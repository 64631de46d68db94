import Lox.Proofs.Lexemes
import Lox.Proofs.ShortestDecimals

/-!
# Printed numbers read back

The positional text of a decimal is digits, or digits, a point and digits, and spells that decimal
(`Decimal.ofLiteral_positional`). So the text of a finite number is scanned as one number, after a
minus if it is negative, and the literal is the number without its sign, bit for bit. Two numbers
have the same text just if the language takes them for equal.

Main statement: `Number.text_reads_back`.
-/

namespace Lox

/-! ## Literals -/

namespace Number

theorem ofDigits_eq (ds : List Char) : ofDigits ds = Nat.ofDigitChars 10 ds 0 := rfl

theorem ofDecimal_mul_pow (digits n : Nat) :
    ofDecimal (digits * 10 ^ n) 0 = ofDecimal digits n := by
  rw [ofDecimal_eq ⟨digits * 10 ^ n, 0⟩, ofDecimal_eq ⟨digits, n⟩, reading_mul_pow, Int.zero_add]

theorem ofDecimal_zero (exponent : Int) : ofDecimal 0 exponent = ofPattern 0 := by
  rw [ofDecimal_eq ⟨0, exponent⟩, reading_zero]

section
variable {ds : List Char} (hds : ∀ a ∈ ds, a.isDigit = true)
include hds

theorem ne_point_of_mem : ∀ a ∈ ds, (a != '.') = true := by
  intro a ha
  rw [bne_iff_ne]
  rintro rfl
  exact absurd (hds '.' ha) (by decide)

theorem ofLiteral_whole : ofLiteral ds = ofDecimal (ofDigits ds) 0 := by
  have htake := List.takeWhile_eq_self_iff.2 (ne_point_of_mem hds)
  have hdrop := List.dropWhile_eq_nil_iff.2 (ne_point_of_mem hds)
  simp only [ofLiteral, htake, hdrop, List.drop_nil, List.append_nil, List.length_nil]
  rfl

theorem ofLiteral_fraction (fs : List Char) :
    ofLiteral (ds ++ '.' :: fs) = ofDecimal (ofDigits (ds ++ fs)) (-(fs.length : Int)) := by
  have htake : (ds ++ '.' :: fs).takeWhile (· != '.') = ds := by
    rw [List.takeWhile_append_of_pos (ne_point_of_mem hds)]
    simp
  have hdrop : (ds ++ '.' :: fs).dropWhile (· != '.') = '.' :: fs := by
    rw [List.dropWhile_append_of_pos (ne_point_of_mem hds)]
    simp
  simp only [ofLiteral, htake, hdrop, List.drop_one, List.tail_cons]

end

end Number

/-! ## Positional texts -/

namespace Decimal

open Number

theorem isDigit_of_mem_padded {n k : Nat} :
    ∀ a ∈ List.replicate k '0' ++ Nat.toDigits 10 n, a.isDigit = true := by
  intro a ha
  rcases List.mem_append.1 ha with ha | ha
  · rw [List.eq_of_mem_replicate ha]
    rfl
  · exact Nat.isDigit_of_mem_toDigits (by decide) (by decide) ha

theorem positional_of_nonneg {d : Decimal} (h : 0 ≤ d.exponent) :
    d.positional = Nat.toDigits 10 d.digits ++ List.replicate d.exponent.toNat '0' :=
  if_pos (by omega)

/-- With a negative exponent `-places`, the last `places` digits stand behind a point. -/
theorem positional_of_neg {d : Decimal} (h : d.exponent < 0) : ∃ ds fs,
    d.positional = ds ++ '.' :: fs ∧ ds ≠ [] ∧ (fs.length : Int) = -d.exponent ∧
      (∀ a ∈ ds ++ fs, a.isDigit = true) ∧ ofDigits (ds ++ fs) = d.digits := by
  have hplaces : (-d.exponent).toNat ≠ 0 := by omega
  refine ⟨_, _, if_neg hplaces, ?_, ?_, ?_, ?_⟩
  · rw [← List.length_pos_iff, List.length_take]
    simp only [List.length_append, List.length_replicate]
    omega
  · rw [List.length_drop]
    simp only [List.length_append, List.length_replicate]
    omega
  · rw [List.take_append_drop]
    exact isDigit_of_mem_padded
  · rw [List.take_append_drop, ofDigits_eq, Nat.ofDigitChars_append,
      Nat.ofDigitChars_replicate_zero, Nat.mul_zero,
      Nat.ofDigitChars_ten_toDigits]

/-- A positional text has the form of a number. -/
theorem lexeme_positional (d : Decimal) : Piece.Lexeme .number d.positional := by
  rcases lt_or_ge d.exponent 0 with h | h
  · obtain ⟨ds, fs, he, hne, hlen, hdigits, -⟩ := positional_of_neg h
    obtain ⟨a, ds, rfl⟩ := List.exists_cons_of_ne_nil hne
    have hfs : fs ≠ [] := by
      rintro rfl
      simp only [List.length_nil] at hlen
      omega
    obtain ⟨f, fs, rfl⟩ := List.exists_cons_of_ne_nil hfs
    simp only [List.forall_mem_append, List.forall_mem_cons] at hdigits
    rw [he]
    exact .fraction hdigits.1.1 hdigits.1.2 hdigits.2.1 hdigits.2.2
  · have hdigits : ∀ a ∈ d.positional, a.isDigit = true := by
      rw [positional_of_nonneg h]
      intro a ha
      exact isDigit_of_mem_padded a (List.mem_append.2 (List.mem_append.1 ha).symm)
    have hne : d.positional ≠ [] := by
      rw [positional_of_nonneg h]
      exact List.append_ne_nil_of_left_ne_nil Nat.toDigits_ne_nil _
    obtain ⟨a, ds, he⟩ := List.exists_cons_of_ne_nil hne
    rw [he] at hdigits ⊢
    exact .whole (List.forall_mem_cons.1 hdigits).1 (List.forall_mem_cons.1 hdigits).2

/-- **A positional text spells its decimal.** -/
theorem ofLiteral_positional (d : Decimal) :
    ofLiteral d.positional = ofDecimal d.digits d.exponent := by
  rcases lt_or_ge d.exponent 0 with h | h
  · obtain ⟨ds, fs, he, -, hlen, hdigits, hvalue⟩ := positional_of_neg h
    rw [he, ofLiteral_fraction (List.forall_mem_append.1 hdigits).1, hvalue, hlen, Int.neg_neg]
  · obtain ⟨n, hn⟩ := Int.eq_ofNat_of_zero_le h
    have hdigits : ∀ a ∈ Nat.toDigits 10 d.digits ++ List.replicate n '0', a.isDigit = true :=
      fun a ha => isDigit_of_mem_padded a (List.mem_append.2 (List.mem_append.1 ha).symm)
    rw [positional_of_nonneg h, hn, Int.toNat_natCast, ofLiteral_whole hdigits, ofDigits_eq,
      Nat.ofDigitChars_append, Nat.ofDigitChars_replicate_zero,
      Nat.ofDigitChars_ten_toDigits, Nat.mul_comm, ofDecimal_mul_pow]

end Decimal

/-! ## Signs -/

namespace Number

/-- The number without its sign. -/
def absolute (n : Number) : Number := if n.isNegative then n.negate else n

theorem pattern_lt (n : Number) : n.pattern < 2 ^ 63 := Nat.mod_lt _ (by decide)

/-- The pattern and the sign are the bits. -/
theorem toNat_bits (n : Number) :
    n.bits.toNat = (if n.isNegative then 2 ^ 63 else 0) + n.pattern := by
  have hlt := n.bits.toNat_lt
  simp only [isNegative, pattern, Nat.pow_eq, decide_eq_true_eq]
  split <;> omega

theorem eq_of_pattern {a b : Number} (hp : a.pattern = b.pattern)
    (hs : a.isNegative = b.isNegative) : a = b := by
  have hbits : a.bits.toNat = b.bits.toNat := by rw [toNat_bits a, toNat_bits b, hp, hs]
  cases a
  cases b
  exact congrArg mk (UInt64.toNat_inj.1 hbits)

theorem toNat_ofPattern {p : Nat} (h : p < 2 ^ 63) : (ofPattern p).bits.toNat = p := by
  rw [ofPattern, UInt64.toNat_ofNat']
  exact Nat.mod_eq_of_lt (by omega)

/-- Turning the top bit over takes it away where it is set. -/
theorem xor_top {p : Nat} (h : p < 2 ^ 63) : (2 ^ 63 + p) ^^^ 2 ^ 63 = p := by
  refine Nat.eq_of_testBit_eq fun i => ?_
  rw [Nat.testBit_xor, Nat.testBit_two_pow]
  rcases Nat.lt_trichotomy i 63 with hi | rfl | hi
  · rw [Nat.testBit_two_pow_add_gt hi, decide_eq_false (by omega), Bool.xor_false]
  · rw [Nat.testBit_two_pow_add_eq, Nat.testBit_lt_two_pow h]
    rfl
  · have hle : 2 ^ 64 ≤ 2 ^ i := Nat.pow_le_pow_right (by decide) hi
    rw [Nat.testBit_lt_two_pow (by omega), Nat.testBit_lt_two_pow (by omega),
      decide_eq_false (by omega), Bool.xor_false]

/-- The number without its sign is the one with its pattern. -/
theorem absolute_eq (n : Number) : n.absolute = ofPattern n.pattern := by
  have hlt := pattern_lt n
  have hsplit := toNat_bits n
  have hbits : n.absolute.bits.toNat = n.pattern := by
    unfold absolute
    split
    · rename_i hs
      rw [if_pos hs] at hsplit
      have hxor : n.negate.bits.toNat = n.bits.toNat ^^^ 2 ^ 63 := UInt64.toNat_xor ..
      rw [hxor, hsplit, xor_top hlt]
    · rename_i hs
      rw [if_neg hs] at hsplit
      omega
  have hboth : n.absolute.bits = (ofPattern n.pattern).bits :=
    UInt64.toNat_inj.1 (hbits.trans (toNat_ofPattern hlt).symm)
  exact congrArg mk hboth

theorem pattern_absolute (n : Number) : n.absolute.pattern = n.pattern := by
  have hlt := pattern_lt n
  rw [absolute_eq, pattern, toNat_ofPattern hlt]
  exact Nat.mod_eq_of_lt hlt

theorem isNegative_absolute (n : Number) : n.absolute.isNegative = false := by
  have hlt := pattern_lt n
  rw [absolute_eq, isNegative, toNat_ofPattern hlt]
  simpa using hlt

/-! ## Texts -/

/-- The digits of a finite pattern, without a sign. -/
def unsigned (p : Nat) : List Char := if p = 0 then ['0'] else (shortest p).positional

theorem lexeme_unsigned (p : Nat) : Piece.Lexeme .number (unsigned p) := by
  unfold unsigned
  split
  · exact .whole rfl (by simp)
  · exact Decimal.lexeme_positional _

theorem ofLiteral_unsigned {p : Nat} (hp : p < infinitePattern) :
    ofLiteral (unsigned p) = ofPattern p := by
  unfold unsigned
  split
  · rename_i hzero
    rw [hzero, ofLiteral_whole (List.forall_mem_singleton.2 rfl)]
    exact ofDecimal_zero 0
  · rw [Decimal.ofLiteral_positional, readsAs_shortest hp]

/-- Neither infinite nor not a number. -/
theorem pattern_lt_infinitePattern {n : Number} (hn : n.isNaN = false)
    (hi : n.isInfinite = false) : n.pattern < infinitePattern := by
  simp only [isNaN, isInfinite, decide_eq_false_iff_not] at hn hi
  omega

theorem text_of_finite {n : Number} (hn : n.isNaN = false) (hi : n.isInfinite = false) :
    n.text.toList =
      (if n.isNegative && !n.isZero then ['-'] else []) ++ unsigned n.pattern := by
  cases hz : n.isZero with
  | true =>
    have hp : n.pattern = 0 := by simpa [isZero] using hz
    simp [text, hn, hi, hz, unsigned, hp]
  | false =>
    have hp : n.pattern ≠ 0 := by simpa [isZero] using hz
    cases hs : n.isNegative <;> simp [text, hn, hi, hz, hs, unsigned, hp]

theorem text_absolute {n : Number} (hn : n.isNaN = false) (hi : n.isInfinite = false) :
    n.absolute.text = String.ofList (unsigned n.pattern) := by
  have hp := pattern_absolute n
  have hn' : n.absolute.isNaN = false := by simpa only [isNaN, hp] using hn
  have hi' : n.absolute.isInfinite = false := by simpa only [isInfinite, hp] using hi
  have htext := text_of_finite hn' hi'
  rw [isNegative_absolute, hp] at htext
  exact String.toList_inj.1 (by simpa using htext)

/-! ## Texts of literals -/

theorem isNaN_isNegative_ofLiteral (cs : List Char) :
    (ofLiteral cs).isNaN = false ∧ (ofLiteral cs).isNegative = false := by
  have hle : ∃ p ≤ infinitePattern, ofLiteral cs = ofPattern p := ⟨_, nearest_le _ _, rfl⟩
  obtain ⟨p, hp, he⟩ := hle
  have hlt : p < 2 ^ 63 := hp.trans_lt (by decide)
  rw [he, isNaN, isNegative, pattern, toNat_ofPattern hlt, Nat.pow_eq, Nat.mod_eq_of_lt hlt]
  exact ⟨decide_eq_false (Nat.not_lt.2 hp), decide_eq_false (Nat.not_le.2 hlt)⟩

/-- The literal of a finite number is its text again. -/
theorem ofLiteral_text {n : Number} {cs : List Char} (hn : n = ofLiteral cs)
    (hi : n.isInfinite = false) :
    Piece.Lexeme .number n.text.toList ∧ ofLiteral n.text.toList = n := by
  obtain ⟨hnan, hneg⟩ := isNaN_isNegative_ofLiteral cs
  rw [← hn] at hnan hneg
  have htext := text_of_finite hnan hi
  rw [hneg, Bool.false_and, if_neg (by decide), List.nil_append] at htext
  have habs : n.absolute = n := by rw [absolute, hneg, if_neg (by decide)]
  rw [htext, ofLiteral_unsigned (pattern_lt_infinitePattern hnan hi), ← absolute_eq, habs]
  exact ⟨lexeme_unsigned _, rfl⟩

/-! ## Scanning texts -/

/-- The text of a finite number says a number, after a minus if it has a sign. -/
theorem says_text {n : Number} (hn : n.isNaN = false) (hi : n.isInfinite = false) :
    Piece.Says ((if n.isNegative && !n.isZero then [⟨.minus, "-", 0, 0⟩] else []) ++
      [⟨.number, n.absolute.text, 0, 0⟩]) n.text.toList := by
  have hdigits : Piece.Says [⟨.number, n.absolute.text, 0, 0⟩] (unsigned n.pattern) := by
    have hlexeme := lexeme_unsigned n.pattern
    have hsays := Piece.says_lexeme (t := ⟨.number, n.absolute.text, 0, 0⟩)
      (by rwa [text_absolute hn hi, String.toList_ofList])
    rw [text_absolute hn hi, String.toList_ofList] at hsays
    rwa [text_absolute hn hi]
  rw [text_of_finite hn hi]
  split
  · exact hdigits.minus
  · exact hdigits

/-- The literal of the digits is the number without its sign. -/
theorem content_digits {n : Number} (hn : n.isNaN = false) (hi : n.isInfinite = false) :
    (Token.mk .number n.absolute.text 0 0).content =
      (.number, n.absolute.text, some (.number n.absolute)) := by
  have hread := ofLiteral_unsigned (pattern_lt_infinitePattern hn hi)
  rw [← absolute_eq] at hread
  have hlist : n.absolute.text.toList = unsigned n.pattern := by
    rw [text_absolute hn hi, String.toList_ofList]
  simp only [Token.content, Token.literal?, Token.constant?, hlist, hread]

theorem scan_text {n : Number} (hn : n.isNaN = false) (hi : n.isInfinite = false) :
    (scan n.text).diagnostics = [] ∧ (scan n.text).all.map Token.content =
      (if n.isNegative && !n.isZero then [(.minus, "-", none)] else []) ++
        [(.number, n.absolute.text, some (.number n.absolute)), (.eof, "", none)] := by
  obtain ⟨hd, hall⟩ := (says_text hn hi).scanned
  refine ⟨hd, ?_⟩
  rw [hall, List.map_append, List.map_singleton, content_digits hn hi, List.append_assoc]
  split <;> rfl

/-! ## Equal texts -/

theorem same_iff {a b : Number} (ha : a.isNaN = false) (hb : b.isNaN = false) :
    a.same b = true ↔ a = b ∨ (a.isZero = true ∧ b.isZero = true) := by
  cases a
  cases b
  simp [same, ha, hb]

/-- An infinity is written as a word. -/
theorem text_of_infinite {n : Number} (hi : n.isInfinite = true) :
    n.text = if n.isNegative then "-Infinity" else "Infinity" := by
  have hn : n.isNaN = false := by
    simp only [isInfinite, isNaN, decide_eq_true_eq, decide_eq_false_iff_not] at hi ⊢
    omega
  simp [text, hn, hi]

theorem text_ne_of_infinite {a b : Number} (ha : a.isInfinite = true) (hb : b.isNaN = false)
    (hi : b.isInfinite = false) : a.text ≠ b.text := by
  intro he
  -- a finite number is scanned as a number, and the words are not
  have hnumber : TokenKind.number ∈ (scan b.text).all.map (·.kind) := by
    have hall := congrArg (List.map (·.1)) (scan_text hb hi).2
    rw [List.map_map] at hall
    change (scan b.text).all.map (·.kind) = _ at hall
    rw [hall]
    simp
  rw [← he, text_of_infinite ha] at hnumber
  split at hnumber
  · exact absurd hnumber (by decide +kernel)
  · exact absurd hnumber (by decide +kernel)

theorem eq_of_text_of_finite {a b : Number} (ha : a.isNaN = false) (hai : a.isInfinite = false)
    (hb : b.isNaN = false) (hbi : b.isInfinite = false) (he : a.text = b.text) :
    a = b ∨ (a.isZero = true ∧ b.isZero = true) := by
  have hcontents := (scan_text ha hai).2.symm.trans (he ▸ (scan_text hb hbi).2)
  have hboth : (a.isNegative && !a.isZero) = (b.isNegative && !b.isZero) ∧
      a.absolute = b.absolute := by
    revert hcontents
    cases a.isNegative && !a.isZero <;> cases b.isNegative && !b.isZero <;> simp
  obtain ⟨hsign, habs⟩ := hboth
  have hpattern : a.pattern = b.pattern := by
    rw [← pattern_absolute a, ← pattern_absolute b, habs]
  have hzero : a.isZero = b.isZero := by simp only [isZero, hpattern]
  cases hz : b.isZero with
  | true => exact .inr ⟨hzero.trans hz, rfl⟩
  | false =>
    rw [hzero, hz, Bool.not_false, Bool.and_true, Bool.and_true] at hsign
    exact .inl (eq_of_pattern hpattern hsign)

theorem eq_of_text_of_infinite {a b : Number} (ha : a.isInfinite = true) (hb : b.isInfinite = true)
    (he : a.text = b.text) : a = b := by
  have hpattern : a.pattern = b.pattern := by
    simp only [isInfinite, decide_eq_true_eq] at ha hb
    rw [ha, hb]
  rw [text_of_infinite ha, text_of_infinite hb] at he
  refine eq_of_pattern hpattern ?_
  revert he
  cases a.isNegative <;> cases b.isNegative <;> decide

theorem text_of_isZero {n : Number} (hz : n.isZero = true) : n.text = "0" := by
  have hp : n.pattern = 0 := by simpa [isZero] using hz
  have hn : n.isNaN = false := by simp [isNaN, hp]
  have hi : n.isInfinite = false := by
    rw [isInfinite, hp]
    rfl
  simp [text, hn, hi, hz]

theorem text_eq_iff {a b : Number} (ha : a.isNaN = false) (hb : b.isNaN = false) :
    a.text = b.text ↔ a = b ∨ (a.isZero = true ∧ b.isZero = true) := by
  constructor
  · intro he
    cases hai : a.isInfinite <;> cases hbi : b.isInfinite
    · exact eq_of_text_of_finite ha hai hb hbi he
    · exact absurd he.symm (text_ne_of_infinite hbi ha hai)
    · exact absurd he (text_ne_of_infinite hai hb hbi)
    · exact .inl (eq_of_text_of_infinite hai hbi he)
  · rintro (rfl | ⟨hz, hz'⟩)
    · rfl
    · rw [text_of_isZero hz, text_of_isZero hz']

/-- **Printed numbers read back.** The text of a finite number is scanned without a fault as one
number, after a minus if it is below zero, and the literal is the number without its sign. Two
numbers, infinities included, have the same text just if they are the same to the language. -/
theorem text_reads_back :
    (∀ n : Number, n.isNaN = false → n.isInfinite = false →
      (scan n.text).diagnostics = [] ∧ (scan n.text).all.map Token.content =
        (if n.isNegative && !n.isZero then [(.minus, "-", none)] else []) ++
          [(.number, n.absolute.text, some (.number n.absolute)), (.eof, "", none)]) ∧
    ∀ a b : Number, a.isNaN = false → b.isNaN = false → (a.text = b.text ↔ a.same b = true) :=
  ⟨fun _ => scan_text, fun _ _ ha hb => (text_eq_iff ha hb).trans (same_iff ha hb).symm⟩

/-- The largest number below zero, and the two zeros. -/
theorem text_reads_back_below_zero :
    let least : Number := ⟨0x8000000000000001⟩
    (least.isNaN = false ∧ least.isInfinite = false) ∧
      (scan least.text).diagnostics = [] ∧
      (scan least.text).all.map Token.content =
        [(.minus, "-", none), (.number, text ⟨1⟩, some (.number ⟨1⟩)), (.eof, "", none)] ∧
      text ⟨0x8000000000000000⟩ = text ⟨0⟩ := by
  intro least
  have hn : least.isNaN = false := by decide +kernel
  have hi : least.isInfinite = false := by decide +kernel
  obtain ⟨hd, hall⟩ := text_reads_back.1 least hn hi
  have habs : least.absolute = ⟨1⟩ := by decide +kernel
  have hsign : (least.isNegative && !least.isZero) = true := by decide +kernel
  rw [habs, hsign] at hall
  exact ⟨⟨hn, hi⟩, hd, hall, (text_reads_back.2 _ _ (by decide +kernel) (by decide +kernel)).2
    (by decide +kernel)⟩

end Number

end Lox
