import Lox.Listing.Rule
import Lox.Proofs.Cutting

/-!
# The first rule that matches

The first match of a pattern is computed step by step (`Pattern.first?_seq`), the reserved words
apart: of those a text matches the one that is its whole first word (`Pattern.first?_words`). So at
every place a rule matches, and the first to match makes the span that `Span.next` makes
(`Rule.firstSpan?_cons`); the rules cut a text in one way only (`Rule.cuts_iff`).
-/

namespace Lox

namespace Pattern

section
variable {a b : Pattern} {before : Option Char} {c : Char} {cs : List Char} {p : Char → Bool}

/-! ## The preferred match -/

theorem splits_seq : (seq a b).splits before cs =
    (a.splits before cs).flatMap fun (taken, rest) =>
      (b.splits (taken.getLast?.or before) rest).map fun (more, rest) => (taken ++ more, rest) :=
  rfl

theorem splits_one_cons :
    (one p).splits before (c :: cs) = if p c then [([c], cs)] else [] :=
  rfl

@[simp] theorem first?_one_cons :
    (one p).first? before (c :: cs) = if p c then some ([c], cs) else none := by
  rw [first?, splits_one_cons]
  split <;> rfl

@[simp] theorem first?_one_nil : (one p).first? before [] = none := rfl

@[simp] theorem first?_many :
    (many p).first? before cs = some (cs.takeWhile p, cs.dropWhile p) := by
  change (stretches p cs).head? = _
  induction cs with
  | nil => rfl
  | cons c cs ih =>
    by_cases hc : p c = true
    · simp [stretches, hc, ih]
    · simp [stretches, hc]

@[simp] theorem first?_optional :
    (optional a).first? before cs = (a.first? before cs).or (some ([], cs)) := by
  simp [first?, splits, List.head?_append]

@[simp] theorem first?_alt :
    (alt a b).first? before cs = (a.first? before cs).or (b.first? before cs) := by
  simp [first?, splits, List.head?_append]

/-- What matches after one character. -/
@[simp] theorem first?_seq_one_cons :
    (seq (one p) b).first? before (c :: cs) =
      if p c then (b.first? (some c) cs).map fun (taken, rest) => (c :: taken, rest) else none := by
  rw [first?, splits_seq, splits_one_cons]
  by_cases hc : p c = true <;> simp [hc, first?]

@[simp] theorem first?_seq_one_nil : (seq (one p) b).first? before [] = none := rfl

theorem first?_anyOf_singleton (t : String) :
    (anyOf [t]).first? before cs =
      if t.toList.isPrefixOf cs then some (t.toList, cs.drop t.toList.length) else none := by
  by_cases h : t.toList.isPrefixOf cs = true <;> simp [first?, splits, h]

/-- After the preferred match of the first part comes that of the second, if the second part matches
everywhere: nothing has to be tried again. -/
theorem first?_seq (hb : ∀ before cs, ∃ split, b.first? before cs = some split) :
    (seq a b).first? before cs = (a.first? before cs).bind fun (taken, rest) =>
      (b.first? (taken.getLast?.or before) rest).map fun (more, rest) => (taken ++ more, rest) := by
  rw [first?, splits_seq, first?]
  cases a.splits before cs with
  | nil => rfl
  | cons split others =>
    obtain ⟨taken, rest⟩ := split
    obtain ⟨second, hsecond⟩ := hb (taken.getLast?.or before) rest
    have hhead : (b.splits (taken.getLast?.or before) rest).head? = some second := hsecond
    simp [List.head?_append, first?, hhead]

end

/-! ## Whole words -/

/-- The word characters of the language are ASCII. -/
theorem lt_of_isWordPart {c : Char} (h : Piece.isWordPart c = true) : c.toNat < 0x80 := by
  unfold Piece.isWordPart Char.isAlphanum Char.isAlpha Char.isUpper Char.isLower Char.isDigit at h
  simp only [Bool.or_eq_true, Bool.and_eq_true, decide_eq_true_eq, UInt32.le_iff_toNat_le,
    ge_iff_le] at h
  change ((((65 ≤ c.toNat ∧ c.toNat ≤ 90) ∨ (97 ≤ c.toNat ∧ c.toNat ≤ 122)) ∨
    (48 ≤ c.toNat ∧ c.toNat ≤ 57)) ∨ c = '_') at h
  rcases h with h | rfl
  · omega
  · decide

theorem isWordChar_of_isWordPart {c : Char} (h : Piece.isWordPart c = true) :
    Text.isWordChar c = true := by
  rw [Text.isWordChar, if_pos (lt_of_isWordPart h)]
  exact h

/-- After a beginning of a text that is made of word characters stands a word boundary just if it is
the whole first word. -/
theorem atBoundary_iff {word : List Char} (hne : word ≠ [])
    (hword : ∀ c ∈ word, Piece.isWordPart c = true) (before : Option Char) (rest : List Char) :
    atBoundary (word.getLast?.or before) rest = true ↔
      (word ++ rest).takeWhile Piece.isWordPart = word ∧
        ((word ++ rest).dropWhile Piece.isWordPart).head?.any Text.isWordChar = false := by
  have hlast : (word.getLast?.or before).any Text.isWordChar = true := by
    rw [List.getLast?_eq_some_getLast hne]
    exact isWordChar_of_isWordPart (hword _ (List.getLast_mem hne))
  rw [atBoundary, hlast, Bool.true_bne, Bool.not_eq_true', List.takeWhile_append_of_pos hword,
    List.dropWhile_append_of_pos hword, List.append_right_eq_self]
  cases rest with
  | nil => simp
  | cons c cs =>
    by_cases hc : Piece.isWordPart c = true
    · simp [hc, isWordChar_of_isWordPart hc]
    · simp [hc]

/-- A list with one element at most. -/
theorem head?_eq_ite {α : Type} [DecidableEq α] {xs : List α} {x : α} {P : Prop} [Decidable P]
    (h : ∀ y, y ∈ xs ↔ y = x ∧ P) : xs.head? = if P then some x else none := by
  cases xs with
  | nil =>
    have hP : ¬ P := fun hP => List.not_mem_nil ((h x).2 ⟨rfl, hP⟩)
    rw [if_neg hP]
    rfl
  | cons y ys =>
    obtain ⟨rfl, hP⟩ := (h y).1 List.mem_cons_self
    rw [if_pos hP]
    rfl

/-- **Of some words, a text matches the one that is its whole first word**, if that ends at a word
boundary. -/
theorem first?_words {texts : List String}
    (hwords : ∀ t ∈ texts, t.toList ≠ [] ∧ ∀ c ∈ t.toList, Piece.isWordPart c = true)
    (before : Option Char) (cs : List Char) :
    (word texts).first? before cs =
      if String.ofList (cs.takeWhile Piece.isWordPart) ∈ texts ∧
          (cs.dropWhile Piece.isWordPart).head?.any Text.isWordChar = false then
        some (cs.takeWhile Piece.isWordPart, cs.dropWhile Piece.isWordPart)
      else none := by
  have happ := List.takeWhile_append_dropWhile (p := Piece.isWordPart) (l := cs)
  refine head?_eq_ite fun split => ?_
  simp only [word, splits, List.mem_flatMap, List.mem_map, List.mem_filter,
    List.isPrefixOf_iff_prefix]
  constructor
  · rintro ⟨_, ⟨t, ⟨ht, after, rfl⟩, rfl⟩, more, hmore, rfl⟩
    obtain ⟨hne, hword⟩ := hwords t ht
    simp only [List.drop_left] at hmore ⊢
    split at hmore
    · rename_i hboundary
      obtain ⟨htake, hdrop⟩ := (atBoundary_iff hne hword before after).1 hboundary
      rw [htake] at happ
      rw [List.mem_singleton.1 hmore, htake, List.append_cancel_left happ, List.append_nil,
        String.ofList_toList]
      exact ⟨rfl, ht, List.append_cancel_left happ ▸ hdrop⟩
    · cases hmore
  · rintro ⟨rfl, ht, hdrop⟩
    obtain ⟨hne, hword⟩ := hwords _ ht
    rw [String.toList_ofList] at hne hword
    have hboundary := (atBoundary_iff hne hword before (cs.dropWhile Piece.isWordPart)).2
      (by rw [happ]; exact ⟨rfl, hdrop⟩)
    have hrest : cs.drop (cs.takeWhile Piece.isWordPart).length = cs.dropWhile Piece.isWordPart :=
      (congrArg _ happ.symm).trans List.drop_left
    refine ⟨_, ⟨_, ⟨ht, ?_⟩, rfl⟩, ([], cs.dropWhile Piece.isWordPart), ?_, ?_⟩
    · rw [String.toList_ofList]
      exact List.takeWhile_prefix _
    · simp only [String.toList_ofList, hrest, hboundary, if_true, List.mem_singleton]
    · simp only [String.toList_ofList, List.append_nil]

end Pattern

namespace Span

/-- Words are the same for display as for the language. -/
theorem wordPart_eq : (fun c => isLetter c || c.isDigit) = Piece.isWordPart := by
  funext c
  unfold isLetter Piece.isWordPart Char.isAlphanum
  cases c.isAlpha <;> cases decide (c = '_') <;> simp

theorem not_isWordPart {c : Char} (hd : ¬ c.isDigit = true) (hl : ¬ isLetter c = true) :
    Piece.isWordPart c = false := by
  rw [← wordPart_eq]
  simp [hd, hl]

end Span

namespace Rule

open Pattern Lox.Span

/-! ## One rule -/

section
variable (before : Option Char) (c : Char) (cs : List Char)

theorem first?_blanks :
    blanks.first? before (c :: cs) =
      if Text.isBlank c then some (c :: cs.takeWhile Text.isBlank, cs.dropWhile Text.isBlank)
      else none := by
  simp [blanks]

theorem first?_comment :
    comment.first? before (c :: cs) =
      if c = '/' && cs.head? = some '/' then
        some (c :: cs.takeWhile (· != '\n'), cs.dropWhile (· != '\n'))
      else none := by
  rw [comment, first?_seq fun _ _ => ⟨_, first?_many⟩, first?_anyOf_singleton]
  cases cs with
  | nil => simp
  | cons d ds =>
    by_cases hc : c = '/'
    · by_cases hd : d = '/'
      · simp [hc, hd]
      · simp [hd, Ne.symm hd]
    · simp [hc, Ne.symm hc]

theorem first?_string :
    string.first? before (c :: cs) =
      if c = '"' then some ((stringSpan cs).1.text, (stringSpan cs).2) else none := by
  rw [string, first?_seq_one_cons,
    first?_seq fun _ _ => ⟨_, by rw [first?_optional, Option.or_some]⟩]
  have hstop := Piece.stops_dropWhile (· != '"') cs
  by_cases hc : c = '"'
  · unfold stringSpan
    cases hd : cs.dropWhile (· != '"') with
    | nil => simp [hc, hd]
    | cons d ds =>
      rw [hd] at hstop
      have hquote : d = '"' := by simpa using hstop d rfl
      simp [hc, hd, hquote]
  · simp [hc]

theorem first?_number :
    number.first? before (c :: cs) =
      if c.isDigit then
        some (c :: cs.takeWhile Char.isDigit ++ (fraction (cs.dropWhile Char.isDigit)).1,
          (fraction (cs.dropWhile Char.isDigit)).2)
      else none := by
  rw [number, first?_seq_one_cons,
    first?_seq fun _ _ => ⟨_, by rw [first?_optional, Option.or_some]⟩]
  simp only [first?_many, first?_optional, Option.bind_some]
  unfold fraction
  rcases cs.dropWhile Char.isDigit with - | ⟨d, - | ⟨e, rest⟩⟩
  · simp
  · by_cases hd : d = '.' <;> simp [hd]
  · by_cases hd : d = '.'
    · by_cases he : e.isDigit = true <;> simp [hd, he]
    · simp [hd]

/-- Where a word stands, one of some words is the whole of it. -/
theorem first?_word_of_isLetter {texts : List String}
    (hwords : ∀ t ∈ texts, t.toList ≠ [] ∧ ∀ c ∈ t.toList, Piece.isWordPart c = true)
    (hc : isLetter c = true) :
    (word texts).first? before (c :: cs) =
      if String.ofList (c :: cs.takeWhile Piece.isWordPart) ∈ texts ∧
          (cs.dropWhile Piece.isWordPart).head?.any Text.isWordChar = false then
        some (c :: cs.takeWhile Piece.isWordPart, cs.dropWhile Piece.isWordPart)
      else none := by
  have hpart : Piece.isWordPart c = true := by
    rw [← wordPart_eq]
    simp [hc]
  rw [first?_words hwords, List.takeWhile_cons_of_pos hpart, List.dropWhile_cons_of_pos hpart]

/-- Where no word stands there is none of some words. -/
theorem first?_word_eq_none {texts : List String}
    (hwords : ∀ t ∈ texts, t.toList ≠ [] ∧ ∀ c ∈ t.toList, Piece.isWordPart c = true)
    (hc : Piece.isWordPart c = false) : (word texts).first? before (c :: cs) = none := by
  rw [first?_words hwords, if_neg]
  rintro ⟨hmem, -⟩
  rw [List.takeWhile_cons_of_neg (by simp [hc])] at hmem
  exact (hwords _ hmem).1 String.toList_ofList

theorem first?_name :
    name.first? before (c :: cs) =
      if isLetter c then some (c :: cs.takeWhile Piece.isWordPart, cs.dropWhile Piece.isWordPart)
      else none := by
  simp [name, wordPart_eq]

theorem first?_operator :
    operator.first? before (c :: cs) =
      if isComparison c then
        some (match cs with
          | '=' :: rest => ([c, '='], rest)
          | _ => ([c], cs))
      else if isSign c then some ([c], cs) else none := by
  unfold operator
  by_cases hc : isComparison c = true
  · cases cs with
    | nil => simp [hc]
    | cons d ds => by_cases hd : d = '=' <;> simp [hc, hd]
  · simp [hc]

end

/-! ## Reserved words -/

theorem isWordPart_of_mem_reserved {t : String} (h : t ∈ constants ++ pseudos ++ keywords) :
    t.toList ≠ [] ∧ ∀ c ∈ t.toList, Piece.isWordPart c = true := by
  have hall : (constants ++ pseudos ++ keywords).all
      (fun t => !t.toList.isEmpty && t.toList.all Piece.isWordPart) = true := by decide
  have ht := List.all_eq_true.1 hall t h
  simpa using ht

theorem reserved_eq : reserved = constants.map (·, .constant) ++ pseudos.map (·, .pseudo) ++
    keywords.map (·, .keyword) :=
  rfl

theorem lookup_map_pair (ws : List String) (cls : SpanClass) (w : String) :
    (ws.map (·, cls)).lookup w = if w ∈ ws then some cls else none := by
  induction ws with
  | nil => rfl
  | cons v ws ih =>
    by_cases h : w = v
    · simp [h]
    · simp [List.lookup_cons, beq_eq_false_iff_ne.2 h, h, ih]

/-- The class of a word is that of the list it stands in. -/
theorem reserved_lookup (w : String) :
    (reserved.lookup w).getD .name =
      if w ∈ constants then .constant
      else if w ∈ pseudos then .pseudo
      else if w ∈ keywords then .keyword
      else .name := by
  rw [reserved_eq, List.lookup_append, List.lookup_append, lookup_map_pair, lookup_map_pair,
    lookup_map_pair]
  repeat' split
  all_goals rfl

/-! ## The first rule -/

/-- **At every place some rule matches**, and the first to match makes the span that `next` makes. -/
theorem firstSpan?_cons (before : Option Char) (c : Char) (cs : List Char) :
    firstSpan? before (c :: cs) = some (next c cs) := by
  have hconstants := fun t ht => isWordPart_of_mem_reserved (t := t)
    (List.mem_append_left _ (List.mem_append_left _ ht))
  have hpseudos := fun t ht => isWordPart_of_mem_reserved (t := t)
    (List.mem_append_left _ (List.mem_append_right _ ht))
  have hkeywords := fun t ht => isWordPart_of_mem_reserved (t := t)
    (List.mem_append_right _ ht)
  simp only [firstSpan?, all, List.findSome?_cons, List.findSome?_nil, span?, first?_blanks,
    first?_comment, first?_string, first?_number, first?_name, first?_operator, first?_one_cons]
  unfold next
  by_cases hblank : Text.isBlank c = true
  · simp [hblank]
  by_cases hcomment : (c = '/' && cs.head? = some '/') = true
  · simp [hblank, hcomment]
  by_cases hquote : c = '"'
  · subst hquote
    have hcls : (stringSpan cs).1.cls = .string := by
      unfold stringSpan
      split <;> rfl
    simp [hblank, ← hcls]
  by_cases hdigit : c.isDigit = true
  · simp [hblank, hcomment, hquote, hdigit]
  by_cases hletter : isLetter c = true
  · rw [first?_word_of_isLetter _ _ _ hconstants hletter,
      first?_word_of_isLetter _ _ _ hpseudos hletter,
      first?_word_of_isLetter _ _ _ hkeywords hletter]
    simp only [wordPart_eq, wordClass, reserved_lookup]
    generalize String.ofList (c :: cs.takeWhile Piece.isWordPart) = w
    by_cases hend : (cs.dropWhile Piece.isWordPart).head?.any Text.isWordChar = true
    · simp [hblank, hcomment, hquote, hdigit, hletter, hend]
    · rw [Bool.not_eq_true] at hend
      by_cases h₁ : w ∈ constants
      · simp [hblank, hcomment, hquote, hdigit, hletter, hend, h₁]
      by_cases h₂ : w ∈ pseudos
      · simp [hblank, hcomment, hquote, hdigit, hletter, hend, h₁, h₂]
      by_cases h₃ : w ∈ keywords <;>
        simp [hblank, hcomment, hquote, hdigit, hletter, hend, h₁, h₂, h₃]
  have hword := not_isWordPart hdigit hletter
  rw [first?_word_eq_none _ _ _ hconstants hword, first?_word_eq_none _ _ _ hpseudos hword,
    first?_word_eq_none _ _ _ hkeywords hword]
  by_cases hcomparison : isComparison c = true
  · simp only [hblank, hcomment, hquote, hdigit, hletter, hcomparison]
    cases cs with
    | nil => rfl
    | cons d ds => by_cases hd : d = '=' <;> simp [hd]
  have hbreak : c ≠ '\n' := by
    rintro rfl
    exact hblank (by decide)
  by_cases hsign : isSign c = true
  · simp [hblank, hcomment, hquote, hdigit, hletter, hcomparison, hsign]
  · by_cases hpunctuation : isPunctuation c = true <;>
      simp [hblank, hcomment, hquote, hdigit, hletter, hcomparison, hsign, hpunctuation, hbreak]

/-! ## The whole text -/

/-- What the rules make of a text. -/
theorem cuts_cut (before : Option Char) (cs : List Char) : Cuts before cs (Span.cut cs) := by
  fun_induction Span.cut cs generalizing before with
  | case1 => exact .done before
  | case2 c cs ih => exact .span (firstSpan?_cons before c cs) (ih _)

theorem Cuts.unique {before : Option Char} {cs : List Char} {spans spans' : List Span}
    (h : Cuts before cs spans) (h' : Cuts before cs spans') : spans = spans' := by
  induction h generalizing spans' with
  | done before =>
    cases h' with
    | done => rfl
    | span first _ => cases first
  | span first _ ih =>
    cases h' with
    | done => cases first
    | span first' others' =>
      cases first.symm.trans first'
      rw [ih others']

/-- **The rules cut a text in one way**, which is the one that `Span.cut` computes. -/
theorem cuts_iff (before : Option Char) (cs : List Char) (spans : List Span) :
    Cuts before cs spans ↔ spans = Span.cut cs :=
  ⟨fun h => h.unique (cuts_cut before cs), fun h => h ▸ cuts_cut before cs⟩

end Rule

end Lox
