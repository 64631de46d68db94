import Lox.Proofs.FirstRule
import Lox.Proofs.Joining

/-!
# The spans of a listing are its tokens

Display and scanning cut a text by different means: one by an ordered list of rules, the other by a
case distinction on the next character. On a text without a lexical fault they cut at the same
places (`Piece.next_eq_span`), and what display shows besides blanks and comments is the tokens
(`Span.shown_are_tokens`).
-/

namespace Lox

/-- How tokens of a kind are displayed. The end of a source has no text to display. -/
def SpanClass.ofKind : TokenKind → SpanClass
  | .string => .string
  | .number => .number
  | .identifier => .name
  | .kwTrue | .kwFalse | .kwNil => .constant
  | .kwThis | .kwSuper => .pseudo
  | .kwAnd | .kwClass | .kwElse | .kwFor | .kwFun | .kwIf | .kwOr | .kwPrint | .kwReturn | .kwVar
  | .kwWhile => .keyword
  | .minus | .plus | .slash | .star | .bang | .bangEqual | .equal | .equalEqual | .greater
  | .greaterEqual | .less | .lessEqual => .operator
  | .leftParen | .rightParen | .leftBrace | .rightBrace | .comma | .dot | .semicolon =>
    .punctuation
  | .eof => .blank

/-- A token as it is displayed. -/
def Token.span (t : Token) : Span := ⟨.ofKind t.kind, t.lexeme.toList⟩

/-- Whether a span is anything but white space or a comment. -/
def Span.isShown (s : Span) : Bool := s.cls != .blank && s.cls != .comment

namespace Piece

/-- The span that a piece is, if it is a token. -/
def span? : Piece → Option Span
  | token kind text => some ⟨.ofKind kind, text⟩
  | _ => none

theorem map_span_tokens (ps : List Piece) (p : Position) :
    (tokens p ps).map Token.span = ps.filterMap span? := by
  induction ps generalizing p with
  | nil => rfl
  | cons piece ps ih =>
    rw [tokens_cons, List.map_append, ih, List.filterMap_cons]
    cases piece with
    | token kind text => simp [token?, Token.span, span?]
    | _ => rfl

/-- No piece of the text is a fault. -/
def Clean (cs : List Char) : Prop := ∀ piece ∈ cut cs, piece.fault? = none

theorem clean_cons {c : Char} {cs : List Char} :
    Clean (c :: cs) ↔ (next c cs).1.fault? = none ∧ Clean (next c cs).2 := by
  rw [Clean, cut, List.forall_mem_cons]
  rfl

/-! ## Characters that begin no token -/

/-- Characters beyond ASCII begin no token and are no blank. -/
theorem next_of_large {c : Char} (h : 0x80 ≤ c.toNat) (cs : List Char) :
    next c cs = (stray c, cs) := by
  have hne : ∀ d : Char, d.toNat < 0x80 → c ≠ d := by
    rintro d hd rfl
    omega
  have hs : single? c = none := by
    unfold single?
    split
    all_goals first
      | rfl
      | exact absurd rfl (hne _ (by decide))
  have he : extensible? c = none := by
    unfold extensible?
    split
    all_goals first
      | rfl
      | exact absurd rfl (hne _ (by decide))
  have hblank : isBlank c = false := by
    simp [isBlank, hne _ (show ' '.toNat < 0x80 by decide),
      hne _ (show '\r'.toNat < 0x80 by decide), hne _ (show '\t'.toNat < 0x80 by decide),
      hne _ (show '\n'.toNat < 0x80 by decide)]
  have hpart : isWordPart c = false := by
    rw [Bool.eq_false_iff]
    intro hp
    have hsmall := Pattern.lt_of_isWordPart hp
    omega
  have hstart : isWordStart c = false := by
    rw [Bool.eq_false_iff]
    exact fun hw => absurd (isWordPart_of_isWordStart hw) (by simp [hpart])
  have hdigit : c.isDigit = false := by
    rw [Bool.eq_false_iff]
    exact fun hd => absurd hpart (by simp [isWordPart, Char.isAlphanum, hd])
  rw [next_of_not_mark hs he (hne _ (by decide))]
  simp [hblank, hne _ (show '"'.toNat < 0x80 by decide), hdigit, hstart]

theorem lt_of_fault?_eq_none {c : Char} {cs : List Char} (h : (next c cs).1.fault? = none) :
    c.toNat < 0x80 := by
  by_contra hlarge
  rw [next_of_large (by omega)] at h
  cases h

/-- White space in a text without a fault is a blank of the language. -/
theorem isBlank_of_textIsBlank {c : Char} {cs : List Char} (h : (next c cs).1.fault? = none)
    (hb : Text.isBlank c = true) : isBlank c = true := by
  have hlt := lt_of_fault?_eq_none h
  have hrange : (9 ≤ c.toNat ∧ c.toNat ≤ 13) ∨ c.toNat = 32 := by
    simp [Text.isBlank, Text.inRanges, Text.blankRanges] at hb
    omega
  have hchar := Char.ofNat_toNat c
  obtain hn | hn | hn | hn | hn | hn : c.toNat = 9 ∨ c.toNat = 10 ∨ c.toNat = 11 ∨ c.toNat = 12 ∨
      c.toNat = 13 ∨ c.toNat = 32 := by omega
  all_goals rw [hn] at hchar; subst hchar
  · rfl
  · rfl
  · cases h
  · cases h
  · rfl
  · rfl

/-- After a word of a text without a fault stands no word character. -/
theorem not_isWordChar_of_clean {cs : List Char} (h : Clean cs)
    (hstops : ∀ c ∈ cs.head?, isWordPart c = false) : ¬ cs.head?.any Text.isWordChar = true := by
  cases cs with
  | nil => simp
  | cons c cs =>
    intro hw
    have hpart := hstops c rfl
    change Text.isWordChar c = true at hw
    rw [Text.isWordChar, if_pos (lt_of_fault?_eq_none (clean_cons.1 h).1)] at hw
    exact absurd hw (by rw [← isWordPart, hpart]; decide)

/-! ## One step -/

theorem numberRest_eq (cs : List Char) :
    numberRest cs = (cs.takeWhile Char.isDigit ++ (Span.fraction (cs.dropWhile Char.isDigit)).1,
      (Span.fraction (cs.dropWhile Char.isDigit)).2) := by
  unfold numberRest Span.fraction
  rcases cs.dropWhile Char.isDigit with - | ⟨d, - | ⟨e, rest⟩⟩
  · simp
  · by_cases hd : d = '.' <;> simp [hd]
  · by_cases hd : d = '.'
    · by_cases he : e.isDigit = true <;> simp [hd, he]
    · simp [hd]

theorem lookup_eq_none_of_not_mem {α : Type} {t : List (String × α)} {w : String}
    (h : w ∉ t.map Prod.fst) : t.lookup w = none := by
  rw [List.lookup_eq_none_iff]
  intro entry he
  rw [bne_iff_ne]
  rintro rfl
  exact h (List.mem_map_of_mem he)

/-- A word has the class of its kind. -/
theorem ofKind_ofWord (word : List Char) :
    SpanClass.ofKind (.ofWord word) =
      (Span.reserved.lookup (String.ofList word)).getD .name := by
  unfold TokenKind.ofWord
  generalize String.ofList word = w
  have hsame : ∀ w ∈ Span.reserved.map Prod.fst, w ∈ TokenKind.keywords.map Prod.fst := by decide
  by_cases hw : w ∈ TokenKind.keywords.map Prod.fst
  · revert w
    decide
  · rw [lookup_eq_none_of_not_mem hw, lookup_eq_none_of_not_mem fun h => hw (hsame w h)]
    rfl

section
variable {c : Char} {cs : List Char}

/-- Scanning and display cut off the same, and what they cut off is a token. -/
def CutAlike (c : Char) (cs : List Char) : Prop :=
  (next c cs).1.span? = some (Span.next c cs).1 ∧ (next c cs).2 = (Span.next c cs).2

theorem cutAlike_of_single {kind : TokenKind} (h : single? c = some kind) : CutAlike c cs := by
  unfold single? at h
  split at h <;> cases h <;> exact ⟨rfl, rfl⟩

theorem next_of_isComparison (h : Span.isComparison c = true) (cs : List Char) :
    Span.next c cs = match cs with
      | '=' :: rest => (⟨.operator, [c, '=']⟩, rest)
      | _ => (⟨.operator, [c]⟩, cs) := by
  simp only [Span.isComparison, Bool.or_eq_true, decide_eq_true_eq] at h
  rcases h with ((rfl | rfl) | rfl) | rfl <;> rfl

theorem isComparison_of_extensible {plain extended : TokenKind}
    (h : extensible? c = some (plain, extended)) :
    single? c = none ∧ Span.isComparison c = true ∧ SpanClass.ofKind plain = .operator ∧
      SpanClass.ofKind extended = .operator := by
  unfold extensible? at h
  split at h <;> cases h <;> exact ⟨rfl, rfl, rfl, rfl⟩

theorem cutAlike_of_extensible {plain extended : TokenKind}
    (h : extensible? c = some (plain, extended)) : CutAlike c cs := by
  obtain ⟨hs, hcomparison, hplain, hextended⟩ := isComparison_of_extensible h
  rw [CutAlike, next_of_isComparison hcomparison]
  simp only [next, hs, h]
  split <;> simp [span?, hplain, hextended]

theorem cutAlike_slash (h : cs.head? ≠ some '/') : CutAlike '/' cs := by
  have hspan : Span.next '/' cs = (⟨.operator, ['/']⟩, cs) := by
    have hblank : Text.isBlank '/' = false := by decide
    have hsign : Span.isSign '/' = true := by decide
    have hcomparison : Span.isComparison '/' = false := by decide
    have hletter : Span.isLetter '/' = false := by decide
    simp [Span.next, hblank, h, hletter, hcomparison, hsign]
  rw [CutAlike, next_slash h, hspan]
  exact ⟨rfl, rfl⟩

theorem cutAlike_quote (h : (stringPiece cs).1.fault? = none) : CutAlike '"' cs := by
  change (stringPiece cs).1.span? = some (Span.stringSpan cs).1 ∧
    (stringPiece cs).2 = (Span.stringSpan cs).2
  cases hd : cs.dropWhile (· != '"') with
  | nil =>
    simp only [stringPiece, hd] at h
    cases h
  | cons quote rest =>
    have hpiece : stringPiece cs =
        (token .string ('"' :: cs.takeWhile (· != '"') ++ [quote]), rest) := by
      simp only [stringPiece, hd]
    have hspan : Span.stringSpan cs =
        (⟨.string, '"' :: cs.takeWhile (· != '"') ++ [quote]⟩, rest) := by
      simp only [Span.stringSpan, hd]
    rw [hpiece, hspan]
    exact ⟨rfl, rfl⟩

/-- **Scanning and display cut alike**: in a text without a fault, the piece that begins with a
character that is neither white space nor the beginning of a comment is a token, and the span that
begins there has its text and the class of its kind. -/
theorem cutAlike_of_clean (hclean : Clean (c :: cs))
    (hblank : Text.isBlank c = false) (hcomment : (c = '/' && cs.head? = some '/') = false) :
    CutAlike c cs := by
  obtain ⟨hfault, hrest⟩ := clean_cons.1 hclean
  cases hs : single? c with
  | some kind => exact cutAlike_of_single hs
  | none =>
  cases he : extensible? c with
  | some kinds => exact cutAlike_of_extensible he
  | none =>
  by_cases hslash : c = '/'
  · subst hslash
    exact cutAlike_slash (by simpa using hcomment)
  rw [next_of_not_mark hs he hslash] at hfault hrest
  rw [CutAlike, next_of_not_mark hs he hslash]
  have hnotblank : isBlank c = false := by
    rw [Bool.eq_false_iff]
    intro hb
    simp only [isBlank, Bool.or_eq_true, decide_eq_true_eq] at hb
    rcases hb with ((rfl | rfl) | rfl) | rfl <;> cases hblank
  rw [if_neg (by simp [hnotblank])] at hfault hrest ⊢
  by_cases hquote : c = '"'
  · subst hquote
    exact cutAlike_quote hfault
  rw [if_neg hquote] at hfault hrest ⊢
  by_cases hdigit : c.isDigit = true
  · simp only [Span.next, hblank, hcomment, hquote, hdigit, if_true, if_false, numberRest_eq]
    exact ⟨rfl, rfl⟩
  rw [if_neg hdigit] at hfault hrest ⊢
  by_cases hstart : isWordStart c = true
  · have hletter : Span.isLetter c = true := hstart
    rw [if_pos hstart] at hrest ⊢
    have hclass : Span.wordClass (c :: cs.takeWhile isWordPart) (cs.dropWhile isWordPart) =
        .ofKind (.ofWord (c :: cs.takeWhile isWordPart)) := by
      rw [Span.wordClass, if_neg (not_isWordChar_of_clean hrest (stops_dropWhile _ _)),
        ofKind_ofWord]
    simp only [Span.next, hblank, hcomment, hquote, hdigit, hletter, if_true, if_false,
      Span.wordPart_eq, hclass]
    exact ⟨rfl, rfl⟩
  · rw [if_neg hstart] at hfault
    cases hfault

/-- What begins neither with white space nor with a comment is shown. -/
theorem isShown_next (hblank : Text.isBlank c = false)
    (hcomment : (c = '/' && cs.head? = some '/') = false) : (Span.next c cs).1.isShown = true := by
  have hstring : (Span.stringSpan cs).1.cls = .string := by
    unfold Span.stringSpan
    split <;> rfl
  have hword : ∀ word rest, (⟨Span.wordClass word rest, word⟩ : Span).isShown = true := by
    intro word rest
    unfold Span.wordClass
    rw [Rule.reserved_lookup]
    repeat' split
    all_goals rfl
  unfold Span.next
  rw [if_neg (by simp [hblank]), if_neg (by simp [hcomment])]
  split
  · simp [Span.isShown, hstring]
  split
  · rfl
  split
  · exact hword _ _
  repeat' split
  all_goals rfl

theorem ofKind_ne_error (kind : TokenKind) : SpanClass.ofKind kind ≠ .error := by
  cases kind <;> decide

theorem cls_ne_error_of_span? {piece : Piece} {span : Span} (h : piece.span? = some span) :
    span.cls ≠ .error := by
  cases piece with
  | token kind text =>
    cases h
    exact ofKind_ne_error kind
  | _ => cases h

end

/-! ## The whole text -/

/-- White space at the beginning of a text has no token in it. -/
theorem filterMap_span?_dropWhile {cs : List Char} (h : Clean cs) :
    Clean (cs.dropWhile Text.isBlank) ∧
      (cut cs).filterMap span? = (cut (cs.dropWhile Text.isBlank)).filterMap span? := by
  induction cs with
  | nil => exact ⟨h, rfl⟩
  | cons c cs ih =>
    by_cases hb : Text.isBlank c = true
    · obtain ⟨hfault, hrest⟩ := clean_cons.1 h
      have hnext : next c cs = (blank c, cs) := by
        have hblank := isBlank_of_textIsBlank hfault hb
        simp only [isBlank, Bool.or_eq_true, decide_eq_true_eq] at hblank
        rcases hblank with ((rfl | rfl) | rfl) | rfl <;> rfl
      rw [hnext] at hrest
      rw [List.dropWhile_cons_of_pos hb, cut, hnext]
      exact ih hrest
    · rw [List.dropWhile_cons_of_neg hb]
      exact ⟨h, rfl⟩

/-- **Display shows the tokens of a text without a fault**, and marks nothing as an error. -/
theorem filter_isShown_cut {cs : List Char} (h : Clean cs) :
    (Span.cut cs).filter Span.isShown = (cut cs).filterMap span? ∧
      ∀ span ∈ Span.cut cs, span.cls ≠ .error := by
  fun_induction Span.cut cs with
  | case1 => exact ⟨by rw [cut]; rfl, fun _ hs => by cases hs⟩
  | case2 c cs ih =>
    rw [List.forall_mem_cons]
    cases hb : Text.isBlank c with
    | true =>
      have hspan : Span.next c cs = (⟨.blank, c :: cs.takeWhile Text.isBlank⟩,
          cs.dropWhile Text.isBlank) := if_pos hb
      have hdrop : (c :: cs).dropWhile Text.isBlank = cs.dropWhile Text.isBlank :=
        List.dropWhile_cons_of_pos hb
      obtain ⟨hclean, hsame⟩ := filterMap_span?_dropWhile h
      rw [hdrop] at hclean hsame
      rw [hspan] at ih ⊢
      obtain ⟨hshown, herror⟩ := ih hclean
      rw [hsame, ← hshown]
      exact ⟨rfl, SpanClass.noConfusion, herror⟩
    | false =>
    obtain ⟨-, hrest⟩ := clean_cons.1 h
    cases hcomment : c = '/' && cs.head? = some '/' with
    | true =>
      simp only [Bool.and_eq_true, decide_eq_true_eq, List.head?_eq_some_iff] at hcomment
      obtain ⟨rfl, more, rfl⟩ := hcomment
      rw [next_comment] at hrest
      obtain ⟨hshown, herror⟩ := ih hrest
      refine ⟨?_, SpanClass.noConfusion, herror⟩
      rw [cut, next_comment]
      exact hshown
    | false =>
      obtain ⟨hspan, hsame⟩ := cutAlike_of_clean h hb hcomment
      obtain ⟨hshown, herror⟩ := ih (hsame ▸ hrest)
      rw [List.filter_cons_of_pos (isShown_next hb hcomment), hshown, cut, hsame,
        List.filterMap_cons_some hspan]
      exact ⟨rfl, cls_ne_error_of_span? hspan, herror⟩

end Piece

theorem Text.normalizeBreaks_of_not_mem {cs : List Char} (h : '\r' ∉ cs) :
    Text.normalizeBreaks cs = cs := by
  fun_induction Text.normalizeBreaks cs with
  | case1 => rfl
  | case2 cs ih => exact absurd List.mem_cons_self h
  | case3 c cs _ ih =>
    have hc : c ≠ '\r' := fun he => h (he ▸ List.mem_cons_self)
    rw [if_neg hc, ih fun hm => h (List.mem_cons_of_mem _ hm)]

namespace Span

/-- **The two ways to cut a source agree.** The rules cut a text in one way: at each place the first
rule that matches there decides. If the source has no lexical fault, no carriage return and no
shebang line, then the spans that are neither white space nor comments are its tokens, in order,
with the same texts and the classes of their kinds, and no span is marked as an error. -/
theorem shown_are_tokens (source : String) (hfaults : (scan source).diagnostics = [])
    (hbreaks : '\r' ∉ source.toList) (hshebang : Piece.hasShebang source.toList = false) :
    (∀ spans, Rule.Cuts none source.toList spans ↔ spans = Span.spans source.toList) ∧
      (Span.spans source.toList).filter isShown = (scan source).tokens.map Token.span ∧
      ∀ span ∈ Span.spans source.toList, span.cls ≠ .error := by
  have hspans : Span.spans source.toList = Span.cut source.toList := by
    rw [Span.spans, Text.normalizeBreaks_of_not_mem hbreaks]
  have hpieces := Piece.pieces_of_not_hasShebang hshebang
  have hclean : Piece.Clean source.toList := by
    rw [Piece.Clean, ← hpieces]
    exact scan_diagnostics.1 hfaults
  rw [hspans, scan_tokens, Piece.map_span_tokens, hpieces]
  exact ⟨Rule.cuts_iff none _, Piece.filter_isShown_cut hclean⟩

/-- A source where the two ways could part: a point after a number, reserved words that go on,
operators in a row, slashes and quotes in one another. -/
theorem shown_are_tokens_of_hard_cuts :
    let source := "7.x !== classy nil1 this.nil // \"no string\n\"a // b\" / 1.50.c <= super;"
    ((scan source).diagnostics = [] ∧ '\r' ∉ source.toList ∧
      Piece.hasShebang source.toList = false) ∧
    (∀ spans, Rule.Cuts none source.toList spans ↔ spans = Span.spans source.toList) ∧
      (Span.spans source.toList).filter isShown = (scan source).tokens.map Token.span ∧
      ∀ span ∈ Span.spans source.toList, span.cls ≠ .error := by
  intro source
  have hfaults : (scan source).diagnostics = [] := by decide +kernel
  have hbreaks : '\r' ∉ source.toList := by decide +kernel
  have hshebang : Piece.hasShebang source.toList = false := by decide +kernel
  exact ⟨⟨hfaults, hbreaks, hshebang⟩, shown_are_tokens source hfaults hbreaks hshebang⟩

end Span

end Lox
