import Mathlib.Data.List.TakeWhile
import Lox.Token.Scan

/-!
# Where pieces end

A piece of a source ends where it does because of the one or two characters that follow it. So if
the text after it is replaced by a text that resembles it (`Resembles`), the piece stays the same
(`Piece.next_resembling`). Both a source with a line break and another source after it and a source
with other names in it are cut like the sources they are made from.
-/

namespace Lox

namespace Piece

/-- Nothing runs on into `rest'` that stops before `rest`: the two begin with the same character, or
both with a letter, or one is empty and the other begins with a line break. -/
structure Resembles (rest rest' : List Char) : Prop where
  head : rest'.head? = rest.head? ∨ (rest = [] ∧ rest'.head? = some '\n') ∨
    ∃ c c', rest.head? = some c ∧ rest'.head? = some c' ∧ isWordStart c = true ∧
      isWordStart c' = true
  fraction : ∀ d more, rest' = '.' :: d :: more → d.isDigit = true →
    ∃ d' more', rest = '.' :: d' :: more' ∧ d'.isDigit = true

theorem isWordPart_of_isWordStart {c : Char} (h : isWordStart c = true) : isWordPart c = true := by
  unfold isWordStart at h
  unfold isWordPart Char.isAlphanum
  grind

theorem not_isDigit_of_isWordStart {c : Char} (h : isWordStart c = true) : c.isDigit = false := by
  unfold isWordStart Char.isAlpha Char.isUpper Char.isLower at h
  unfold Char.isDigit
  simp only [Bool.or_eq_true, Bool.and_eq_true, decide_eq_true_eq, UInt32.le_iff_toNat_le] at h
  simp only [Bool.and_eq_false_iff, decide_eq_false_iff_not, UInt32.le_iff_toNat_le]
  rcases h with (h | h) | rfl
  · exact .inr (by simp at h ⊢; omega)
  · exact .inr (by simp at h ⊢; omega)
  · exact .inr (by decide)

section
variable {rest rest' : List Char} (h : Resembles rest rest')
include h

/-- What stops before `rest` stops before `rest'`, if it stops before a line break. -/
theorem Resembles.stops {p : Char → Bool} (hb : p '\n' = false)
    (hw : (∀ c, isWordStart c = true → p c = true) ∨ ∀ c, isWordStart c = true → p c = false)
    (hs : ∀ c ∈ rest.head?, p c = false) : ∀ c ∈ rest'.head?, p c = false := by
  intro c hc
  rcases h.head with he | ⟨-, he⟩ | ⟨c₁, c₂, hr, he, h₁, h₂⟩
  · exact hs c (he ▸ hc)
  · rw [he] at hc
    cases hc
    exact hb
  · rw [he] at hc
    cases hc
    rcases hw with hw | hw
    · exact absurd (hw c₁ h₁) (by simp [hs c₁ hr])
    · exact hw c h₂

theorem Resembles.stops_word (hs : ∀ c ∈ rest.head?, isWordPart c = false) :
    ∀ c ∈ rest'.head?, isWordPart c = false :=
  h.stops (by decide) (.inl fun _ => isWordPart_of_isWordStart) hs

theorem Resembles.stops_digit (hs : ∀ c ∈ rest.head?, c.isDigit = false) :
    ∀ c ∈ rest'.head?, c.isDigit = false :=
  h.stops (by decide) (.inr fun _ => not_isDigit_of_isWordStart) hs

/-- A mark that is no letter does not follow where it did not. -/
theorem Resembles.stops_mark {a : Char} (hb : a ≠ '\n') (hw : isWordStart a = false)
    (hs : rest.head? ≠ some a) : rest'.head? ≠ some a := by
  intro he
  have hne := h.stops (p := (· == a)) (by simpa using hb.symm)
    (.inr fun c hc => by
      rw [beq_eq_false_iff_ne]
      rintro rfl
      rw [hw] at hc
      cases hc)
    (fun c hc => by
      rw [beq_eq_false_iff_ne]
      rintro rfl
      exact hs hc) a he
  simp at hne

/-- A line that ends before `rest` ends before `rest'`. -/
theorem Resembles.stops_line (hs : ∀ c ∈ rest.head?, c = '\n') : ∀ c ∈ rest'.head?, c = '\n' := by
  intro c hc
  rcases h.head with he | ⟨-, he⟩ | ⟨c₁, c₂, hr, -, h₁, -⟩
  · exact hs c (he ▸ hc)
  · rw [he] at hc
    cases hc
    rfl
  · rw [hs c₁ hr] at h₁
    exact absurd h₁ (by decide)

end

/-! ## The first piece -/

/-- The rest of the first piece and what follows it are the rest of the source. -/
theorem tail_next_append (c : Char) (cs : List Char) :
    (next c cs).1.text.tail ++ (next c cs).2 = cs := by
  have happ := next_append c cs
  obtain ⟨c', text', ht⟩ := List.exists_cons_of_ne_nil (text_next_ne_nil c cs)
  rw [ht] at happ ⊢
  exact (List.cons.inj happ).2

section
variable {p : Char → Bool} {rest : List Char}

theorem takeWhile_of_stops (h : ∀ c ∈ rest.head?, p c = false) : rest.takeWhile p = [] := by
  cases rest with
  | nil => rfl
  | cons c cs => exact List.takeWhile_cons_of_neg (by simp [h c rfl])

theorem dropWhile_of_stops (h : ∀ c ∈ rest.head?, p c = false) : rest.dropWhile p = rest := by
  cases rest with
  | nil => rfl
  | cons c cs => exact List.dropWhile_cons_of_neg (by simp [h c rfl])

theorem stops_dropWhile (p : Char → Bool) (cs : List Char) :
    ∀ c ∈ (cs.dropWhile p).head?, p c = false := by
  intro c hc
  have hn := List.head?_dropWhile_not p cs
  rw [Option.mem_def.1 hc] at hn
  simpa using hn

/-- A stretch of characters with `p`, followed by something else. -/
theorem takeWhile_append_of_stops (cs : List Char) (h : ∀ c ∈ rest.head?, p c = false) :
    (cs.takeWhile p ++ rest).takeWhile p = cs.takeWhile p := by
  rw [List.takeWhile_append_of_pos fun a ha => List.mem_takeWhile_imp ha, takeWhile_of_stops h,
    List.append_nil]

theorem dropWhile_append_of_stops (cs : List Char) (h : ∀ c ∈ rest.head?, p c = false) :
    (cs.takeWhile p ++ rest).dropWhile p = rest := by
  rw [List.dropWhile_append_of_pos fun a ha => List.mem_takeWhile_imp ha, dropWhile_of_stops h]

end

theorem numberRest_of_stops {cs rest : List Char} (hs : ∀ c ∈ rest.head?, c.isDigit = false)
    (hf : ∀ d more, rest = '.' :: d :: more → d.isDigit = false) :
    numberRest (cs.takeWhile Char.isDigit ++ rest) = (cs.takeWhile Char.isDigit, rest) := by
  unfold numberRest
  rw [takeWhile_append_of_stops _ hs, dropWhile_append_of_stops _ hs]
  split
  · rename_i d more
    rw [if_neg (by simp [hf d more rfl])]
  · rfl

/-- A number is the same before a text that resembles what follows it. -/
theorem numberRest_resembling (cs : List Char) {rest' : List Char}
    (h : Resembles (numberRest cs).2 rest') :
    numberRest ((numberRest cs).1 ++ rest') = ((numberRest cs).1, rest') := by
  have hwhole := stops_dropWhile Char.isDigit cs
  unfold numberRest at h ⊢
  split at h
  · rename_i d more hd
    simp only
    split at h
    · rename_i hdigit
      rw [if_pos hdigit]
      have hstops := h.stops_digit (stops_dropWhile Char.isDigit (d :: more))
      -- the point stops the whole digits, and the fraction begins anew
      have hpoint : ∀ c ∈ ('.' :: (List.takeWhile Char.isDigit (d :: more) ++ rest')).head?,
          c.isDigit = false := by
        intro c hc
        cases hc
        decide
      simp only [List.append_assoc, List.cons_append]
      rw [takeWhile_append_of_stops _ hpoint, dropWhile_append_of_stops _ hpoint]
      have hfirst : (d :: more).takeWhile Char.isDigit = d :: more.takeWhile Char.isDigit :=
        List.takeWhile_cons_of_pos hdigit
      have htake := takeWhile_append_of_stops (d :: more) hstops
      have hdrop := dropWhile_append_of_stops (d :: more) hstops
      rw [hfirst] at htake hdrop ⊢
      simp only [List.cons_append] at htake hdrop ⊢
      rw [if_pos hdigit, htake, hdrop]
    · rename_i hdigit
      rw [if_neg hdigit]
      refine numberRest_of_stops (h.stops_digit (hd ▸ hwhole)) fun d' more' he => ?_
      by_contra hd'
      obtain ⟨d₁, more₁, he₁, hd₁⟩ := h.fraction d' more' he (by simpa using hd')
      cases he₁
      exact hdigit hd₁
  · rename_i hno
    refine numberRest_of_stops (h.stops_digit hwhole) fun d' more' he => ?_
    by_contra hd'
    obtain ⟨d₁, more₁, he₁, -⟩ := h.fraction d' more' he (by simpa using hd')
    exact hno d₁ more₁ he₁

/-- A string is the same whatever follows it. -/
theorem stringPiece_resembling (cs rest' : List Char)
    (ho : ∀ text, (stringPiece cs).1 ≠ openString text) :
    stringPiece ((stringPiece cs).1.text.tail ++ rest') = ((stringPiece cs).1, rest') := by
  have hq := stops_dropWhile (· != '"') cs
  unfold stringPiece at ho ⊢
  split at ho
  · rename_i quote rest hd
    simp only
    have hquote : ∀ c ∈ (quote :: rest').head?, (c != '"') = false := by
      rw [hd] at hq
      exact hq
    change stringPiece ((cs.takeWhile (· != '"') ++ [quote]) ++ rest') = _
    rw [List.append_assoc, List.singleton_append, stringPiece, takeWhile_append_of_stops _ hquote,
      dropWhile_append_of_stops _ hquote]
  · exact absurd rfl (ho _)

section
variable {c : Char} {cs : List Char} (hs : single? c = none)
include hs

theorem next_plain {plain extended : TokenKind} (he : extensible? c = some (plain, extended))
    (hn : cs.head? ≠ some '=') : next c cs = (token plain [c], cs) := by
  simp only [next, hs, he]
  split
  · exact absurd rfl hn
  · rfl

/-- What begins with neither a mark nor a letter that a mark can be extended with. -/
theorem next_of_not_mark (he : extensible? c = none) (hc : c ≠ '/') :
    next c cs = if isBlank c then (blank c, cs)
      else if c = '"' then stringPiece cs
      else if c.isDigit then (token .number (c :: (numberRest cs).1), (numberRest cs).2)
      else if isWordStart c then
        (token (.ofWord (c :: cs.takeWhile isWordPart)) (c :: cs.takeWhile isWordPart),
          cs.dropWhile isWordPart)
      else (stray c, cs) := by
  simp only [next, hs, he, if_neg hc]

end

theorem next_slash {cs : List Char} (hn : cs.head? ≠ some '/') :
    next '/' cs = (token .slash ['/'], cs) := by
  have hs : single? '/' = none := rfl
  have he : extensible? '/' = none := rfl
  simp only [next, hs, he, if_true]
  split
  · exact absurd rfl hn
  · rfl

theorem next_comment (cs : List Char) :
    next '/' ('/' :: cs) = (comment ('/' :: '/' :: cs.takeWhile (· != '\n')),
      cs.dropWhile (· != '\n')) := rfl

/-- **The first piece is the same** before a text that resembles what follows it. -/
theorem next_resembling (c : Char) (cs : List Char) {rest' : List Char}
    (ho : ∀ text, (next c cs).1 ≠ openString text) (h : Resembles (next c cs).2 rest') :
    next c ((next c cs).1.text.tail ++ rest') = ((next c cs).1, rest') := by
  cases hs : single? c with
  | some kind => simp only [next, hs, text, List.tail_cons, List.nil_append]
  | none =>
  cases he : extensible? c with
  | some kinds =>
    obtain ⟨plain, extended⟩ := kinds
    by_cases hhead : cs.head? = some '='
    · obtain ⟨more, rfl⟩ := List.head?_eq_some_iff.1 hhead
      simp only [next, hs, he, text, List.tail_cons, List.singleton_append]
    · rw [next_plain hs he hhead] at h ⊢
      exact next_plain hs he (h.stops_mark (by decide) (by decide) hhead)
  | none =>
  by_cases hslash : c = '/'
  · subst hslash
    by_cases hhead : cs.head? = some '/'
    · obtain ⟨more, rfl⟩ := List.head?_eq_some_iff.1 hhead
      rw [next_comment] at h ⊢
      have hline : ∀ c ∈ rest'.head?, (c != '\n') = false := by
        intro c hc
        have hn := h.stops_line (fun c hc => by simpa using stops_dropWhile _ more c hc) c hc
        simpa using hn
      change next '/' ('/' :: (more.takeWhile (· != '\n') ++ rest')) = _
      rw [next_comment, takeWhile_append_of_stops _ hline, dropWhile_append_of_stops _ hline]
    · rw [next_slash hhead] at h ⊢
      exact next_slash (h.stops_mark (by decide) (by decide) hhead)
  rw [next_of_not_mark hs he hslash] at ho h ⊢
  rw [next_of_not_mark hs he hslash]
  by_cases hblank : isBlank c = true
  · rw [if_pos hblank, if_pos hblank]
    rfl
  rw [if_neg hblank] at ho h ⊢
  rw [if_neg hblank]
  by_cases hquote : c = '"'
  · rw [if_pos hquote] at ho ⊢
    rw [if_pos hquote, stringPiece_resembling cs rest' ho]
  rw [if_neg hquote] at h ⊢
  rw [if_neg hquote]
  by_cases hdigit : c.isDigit = true
  · rw [if_pos hdigit] at h ⊢
    have hn := numberRest_resembling cs h
    rw [if_pos hdigit]
    simp only [text, List.tail_cons, hn]
  rw [if_neg hdigit] at h ⊢
  rw [if_neg hdigit]
  by_cases hword : isWordStart c = true
  · rw [if_pos hword] at h ⊢
    have hstops := h.stops_word (stops_dropWhile isWordPart cs)
    rw [if_pos hword]
    simp only [text, List.tail_cons, takeWhile_append_of_stops _ hstops,
      dropWhile_append_of_stops _ hstops]
  · rw [if_neg hword, if_neg hword]
    rfl

end Piece

end Lox
