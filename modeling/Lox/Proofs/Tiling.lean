import Mathlib.Data.List.Pairwise
import Lox.Proofs.Context
import Lox.Proofs.Respelling

/-!
# Tokens and gaps tile a source

The pieces of a source lie side by side, so every character is in one of them. What is not a token
is a gap (`Piece.Fills`): a shebang line, a blank, a comment, an unexpected character, or a string
that is never closed. Each unexpected character and an open string is reported once, in the order of
the source, and nothing else is.

Main statement: `scan_tiles`.
-/

namespace Lox

namespace Piece

/-! ## What is no token -/

/-- A character that no token begins with and that may not stand between tokens. -/
def Unexpected (c : Char) : Prop :=
  c ∉ [' ', '\r', '\t', '\n', '(', ')', '\x7b', '\x7d', ',', '.', '-', '+', ';', '*', '!', '=', '<',
    '>', '/', '"'] ∧ c.isDigit = false ∧ isWordStart c = false

/-- What it takes to be a gap of its form, with `before` in front and `after` behind. -/
def Fills (before after : List Char) : Piece → Prop
  | token _ _ => False
  | blank c => c ∈ [' ', '\r', '\t', '\n']
  | comment text => ['/', '/'] <+: text ∧ '\n' ∉ text ∧ ∀ c ∈ after.head?, c = '\n'
  | shebang text =>
    before = [] ∧ ['#', '!'] <+: text ∧ '\n' ∉ text ∧ ∀ c ∈ after.head?, c = '\n'
  | stray c => Unexpected c
  | openString text => (∃ body, text = '"' :: body ∧ '"' ∉ body) ∧ after = []

/-- The piece is a gap in the source, after `i` characters. -/
def StandsAt (source : List Char) (i : Nat) (piece : Piece) : Prop :=
  ∃ before after, source = before ++ piece.text ++ after ∧ before.length = i ∧
    piece.Fills before after

/-- Whether the piece is a token. -/
def isToken : Piece → Bool
  | token _ _ => true
  | _ => false

theorem token?_eq_none {p : Position} {piece : Piece} :
    piece.token? p = none ↔ piece.isToken = false := by
  cases piece <;> simp [token?, isToken]

theorem not_mem_line (cs : List Char) : '\n' ∉ cs.takeWhile (· != '\n') := fun h => by
  simpa using List.mem_takeWhile_imp h

theorem head?_after_line (cs : List Char) : ∀ c ∈ (cs.dropWhile (· != '\n')).head?, c = '\n' :=
  fun c hc => by simpa using stops_dropWhile _ cs c hc

theorem fills_stringPiece (before cs : List Char) (h : (stringPiece cs).1.isToken = false) :
    (stringPiece cs).1.Fills before (stringPiece cs).2 := by
  unfold stringPiece at h ⊢
  split at h
  · cases h
  · exact ⟨⟨_, rfl, fun hq => by simpa using List.mem_takeWhile_imp hq⟩, rfl⟩

theorem not_mem_of_single? {c : Char} (h : single? c = none) :
    c ∉ ['(', ')', '\x7b', '\x7d', ',', '.', '-', '+', ';', '*'] := by
  simp only [List.mem_cons, List.not_mem_nil, or_false]
  rintro (rfl | rfl | rfl | rfl | rfl | rfl | rfl | rfl | rfl | rfl) <;> cases h

theorem not_mem_of_extensible? {c : Char} (h : extensible? c = none) :
    c ∉ ['!', '=', '<', '>'] := by
  simp only [List.mem_cons, List.not_mem_nil, or_false]
  rintro (rfl | rfl | rfl | rfl) <;> cases h

/-- The first piece is a token or fills the gap up to the rest. -/
theorem fills_next (before : List Char) (c : Char) (cs : List Char)
    (h : (next c cs).1.isToken = false) : (next c cs).1.Fills before (next c cs).2 := by
  cases hs : single? c with
  | some kind => simp only [next, hs, isToken, Bool.true_eq_false] at h
  | none =>
  cases he : extensible? c with
  | some kinds =>
    obtain ⟨plain, extended⟩ := kinds
    simp only [next, hs, he] at h
    split at h <;> cases h
  | none =>
  by_cases hslash : c = '/'
  · subst hslash
    by_cases hhead : cs.head? = some '/'
    · obtain ⟨more, rfl⟩ := List.head?_eq_some_iff.1 hhead
      rw [next_comment]
      exact ⟨⟨_, rfl⟩, by simpa using not_mem_line more, head?_after_line more⟩
    · rw [next_slash hhead] at h
      cases h
  rw [next_of_not_mark hs he hslash] at h ⊢
  by_cases hblank : isBlank c = true
  · rw [if_pos hblank]
    simpa [Fills, isBlank, or_assoc] using hblank
  rw [if_neg hblank] at h ⊢
  by_cases hquote : c = '"'
  · rw [if_pos hquote] at h ⊢
    exact fills_stringPiece before cs h
  rw [if_neg hquote] at h ⊢
  by_cases hdigit : c.isDigit = true
  · rw [if_pos hdigit] at h
    cases h
  rw [if_neg hdigit] at h ⊢
  by_cases hword : isWordStart c = true
  · rw [if_pos hword] at h
    cases h
  rw [if_neg hword]
  have hmarks := not_mem_of_single? hs
  have hmore := not_mem_of_extensible? he
  refine ⟨?_, by simpa using hdigit, by simpa using hword⟩
  simp only [List.mem_cons, List.not_mem_nil, or_false, isBlank, Bool.or_eq_true,
    decide_eq_true_eq] at hmarks hmore hblank ⊢
  tauto

theorem fills_cut : ∀ {cs before : List Char} {xs ys : List Piece} {piece : Piece},
    cut cs = xs ++ piece :: ys → piece.isToken = false →
      piece.Fills (before ++ xs.flatMap text) (ys.flatMap text)
  | [], _, xs, _, _, h, _ => by simp [cut] at h
  | c :: cs, before, xs, ys, piece, h, hp => by
    have := length_next_le c cs
    rw [cut] at h
    cases xs with
    | nil =>
      obtain ⟨rfl, rfl⟩ := List.cons.inj h
      rw [text_cut]
      exact fills_next _ c cs hp
    | cons first xs =>
      obtain ⟨rfl, hrest⟩ := List.cons.inj h
      rw [List.flatMap_cons, ← List.append_assoc]
      exact fills_cut hrest hp
termination_by cs => cs.length

/-- Every piece of a source that is no token fills the gap in which it stands. -/
theorem fills_pieces {source : List Char} {xs ys : List Piece} {piece : Piece}
    (h : pieces source = xs ++ piece :: ys) (hp : piece.isToken = false) :
    piece.Fills (xs.flatMap text) (ys.flatMap text) := by
  cases hs : hasShebang source with
  | false =>
    rw [pieces_of_not_hasShebang hs] at h
    have hfills : piece.Fills ([] ++ xs.flatMap text) (ys.flatMap text) := fills_cut h hp
    exact hfills
  | true =>
    obtain ⟨more, rfl⟩ := eq_of_hasShebang hs
    change shebang (('#' :: '!' :: more).takeWhile (· != '\n')) ::
      cut (('#' :: '!' :: more).dropWhile (· != '\n')) = _ at h
    cases xs with
    | nil =>
      obtain ⟨rfl, rfl⟩ := List.cons.inj h
      rw [text_cut]
      exact ⟨rfl, ⟨_, rfl⟩, not_mem_line _, head?_after_line _⟩
    | cons first xs =>
      obtain ⟨rfl, hrest⟩ := List.cons.inj h
      rw [List.flatMap_cons]
      exact fills_cut hrest hp

/-! ## Side by side -/

/-- The places that a piece covers, from its position on. -/
def Covers (i : Nat) (placed : Position × Piece) : Prop :=
  placed.1.offset ≤ i ∧ i < placed.1.offset + placed.2.text.length

/-- Pieces stand one behind the other. -/
theorem placed_sorted : ∀ (ps : List Piece) (p : Position),
    (∀ a ∈ placed p ps, p.offset ≤ a.1.offset) ∧
      (placed p ps).Pairwise fun a b => a.1.offset + a.2.text.length ≤ b.1.offset
  | [], _ => by simp [placed]
  | piece :: ps, p => by
    obtain ⟨hle, hps⟩ := placed_sorted ps (p.advance piece.text)
    have hfirst : p.offset ≤ (p.advance piece.text).offset := Nat.le_add_right _ _
    refine ⟨fun a ha => ?_, List.pairwise_cons.2 ⟨hle, hps⟩⟩
    rcases List.mem_cons.1 ha with rfl | ha
    · exact Nat.le_refl _
    · exact hfirst.trans (hle a ha)

/-- No character is between two pieces. -/
theorem exists_covers : ∀ {ps : List Piece} {p : Position} {i : Nat}, p.offset ≤ i →
    i < p.offset + (ps.flatMap text).length → ∃ a ∈ placed p ps, Covers i a
  | [], p, i, hp, hi => by
    simp only [List.flatMap_nil, List.length_nil] at hi
    omega
  | piece :: ps, p, i, hp, hi => by
    by_cases hfirst : i < p.offset + piece.text.length
    · exact ⟨(p, piece), List.mem_cons_self, hp, hfirst⟩
    · rw [List.flatMap_cons, List.length_append] at hi
      have hrest : i < (p.advance piece.text).offset + (ps.flatMap text).length := by
        simp only [Position.advance]
        omega
      obtain ⟨a, ha, hc⟩ := exists_covers (p := p.advance piece.text) (Nat.not_lt.1 hfirst) hrest
      exact ⟨a, List.mem_cons_of_mem _ ha, hc⟩

/-- No character is in two pieces. -/
theorem eq_of_covers {ps : List Piece} {p : Position} {i : Nat} {a b : Position × Piece}
    (ha : a ∈ placed p ps) (hb : b ∈ placed p ps) (hai : Covers i a) (hbi : Covers i b) :
    a = b := by
  have hall : (placed p ps).Pairwise fun a b => ¬ (Covers i a ∧ Covers i b) := by
    refine (placed_sorted ps p).2.imp fun {a b} hle hc => ?_
    unfold Covers at hc
    omega
  have hsymm : Std.Symm fun a b : Position × Piece => ¬ (Covers i a ∧ Covers i b) :=
    ⟨fun _ _ h hc => h hc.symm⟩
  exact by_contra fun hne => hall.forall ha hb hne ⟨hai, hbi⟩

/-! ## Gaps -/

/-- The gaps among the pieces, each with the number of characters before it. -/
def gaps (ps : List (Position × Piece)) : List (Nat × Piece) :=
  ps.filterMap fun (p, piece) => if piece.isToken then none else some (p.offset, piece)

/-- What is reported about a gap: an unexpected character on its line, an open string on the last
line of the source. -/
def complaint? (source : List Char) : Nat × Piece → Option Diagnostic
  | (i, stray _) => some ⟨(1 + (source.take i).count '\n' : Nat), .line, .strayCharacter⟩
  | (_, openString _) => some ⟨(1 + source.count '\n' : Nat), .line, .openString⟩
  | _ => none

theorem mem_gaps {ps : List (Position × Piece)} {i : Nat} {piece : Piece} :
    (i, piece) ∈ gaps ps ↔ piece.isToken = false ∧ ∃ p, (p, piece) ∈ ps ∧ p.offset = i := by
  unfold gaps
  rw [List.mem_filterMap]
  constructor
  · rintro ⟨⟨p, piece'⟩, hm, he⟩
    cases ht : piece'.isToken with
    | true => simp [ht] at he
    | false =>
      simp only [ht, Bool.false_eq_true, if_false, Option.some.injEq, Prod.mk.injEq] at he
      obtain ⟨rfl, rfl⟩ := he
      exact ⟨ht, p, hm, rfl⟩
  · rintro ⟨ht, p, hm, rfl⟩
    exact ⟨(p, piece), hm, by simp [ht]⟩

section
variable {source : List Char} {p : Position} {piece : Piece}

/-- The text of a source around one of its pieces. -/
theorem exists_around (h : (p, piece) ∈ placed .start (pieces source)) :
    ∃ xs ys, pieces source = xs ++ piece :: ys ∧
      source = xs.flatMap text ++ piece.text ++ ys.flatMap text ∧
      p = Position.start.advance (xs.flatMap text) := by
  obtain ⟨xs, ys, hps, rfl⟩ := exists_of_mem_placed h
  refine ⟨xs, ys, hps, ?_, rfl⟩
  conv => lhs; rw [← text_pieces source, hps, List.flatMap_append, List.flatMap_cons]
  rw [List.append_assoc]

theorem standsAt_of_mem (h : (p, piece) ∈ placed .start (pieces source))
    (hp : piece.isToken = false) : piece.StandsAt source p.offset := by
  obtain ⟨xs, ys, hps, hsource, rfl⟩ := exists_around h
  exact ⟨_, _, hsource, (Nat.zero_add _).symm, fills_pieces hps hp⟩

/-- The scanner reports about a piece what is to be reported about the gap. -/
theorem diagnostic?_eq_complaint? (h : (p, piece) ∈ placed .start (pieces source))
    (hp : piece.isToken = false) : piece.diagnostic? p = complaint? source (p.offset, piece) := by
  obtain ⟨xs, ys, hps, hsource, rfl⟩ := exists_around h
  have hfills := fills_pieces hps hp
  have hoffset : (Position.start.advance (xs.flatMap text)).offset = (xs.flatMap text).length :=
    Nat.zero_add _
  cases piece with
  | stray c =>
    have hbreak : [c].count '\n' = 0 := by
      refine List.count_eq_zero.2 fun hc => ?_
      cases List.mem_singleton.1 hc
      exact hfills.1 (by decide)
    have hbefore : source.take (xs.flatMap text).length = xs.flatMap text := by
      conv => lhs; rw [hsource, List.append_assoc]
      exact List.take_left
    rw [hoffset]
    simp only [diagnostic?, fault?, Option.map_some, complaint?, hbefore, text, Position.advance,
      Position.start, hbreak, Nat.add_zero]
  | openString body =>
    obtain ⟨-, hend⟩ := hfills
    rw [hend, List.append_nil] at hsource
    simp only [diagnostic?, fault?, Option.map_some, complaint?, hsource, text, Position.advance,
      Position.start, List.count_append, Nat.add_assoc]
  | token kind text => cases hp
  | blank c | comment text | shebang text => rfl

end

/-! ## Tokens and gaps -/

section
variable {source : List Char}

/-- Scanning reports the complaints about the gaps, in their order. -/
theorem diagnostics_eq_complaints : ∀ {ps : List (Position × Piece)},
    (∀ a ∈ ps, a ∈ placed .start (pieces source)) →
      ps.filterMap (fun (p, piece) => piece.diagnostic? p) = (gaps ps).filterMap (complaint? source)
  | [], _ => rfl
  | (p, piece) :: ps, h => by
    have ih := diagnostics_eq_complaints fun a ha => h a (List.mem_cons_of_mem _ ha)
    cases ht : piece.isToken with
    | true =>
      have hnone : piece.diagnostic? p = none := by cases piece <;> first | rfl | cases ht
      simpa only [gaps, List.filterMap_cons, hnone, ht, if_true] using ih
    | false =>
      have hsame := diagnostic?_eq_complaint? (h _ List.mem_cons_self) ht
      simp only [gaps, List.filterMap_cons, hsame, ht, Bool.false_eq_true, if_false]
      rw [ih]
      rfl

/-- A token stands where its piece does. -/
theorem range_of_token? {p : Position} {piece : Piece} {t : Token} (h : piece.token? p = some t) :
    t.offset = p.offset ∧ t.length = piece.text.length := by
  cases piece with
  | token kind text =>
    cases h
    exact ⟨rfl, String.length_ofList⟩
  | _ => cases h

theorem covers_token? {p : Position} {piece : Piece} {t : Token} (h : piece.token? p = some t)
    (i : Nat) : Covers i (p, piece) ↔ t.offset ≤ i ∧ i < t.offset + t.length := by
  obtain ⟨hoffset, hlength⟩ := range_of_token? h
  rw [hoffset, hlength]
  rfl

/-- Tokens stand one behind the other. -/
theorem tokens_apart (ps : List Piece) (p : Position) :
    (tokens p ps).Pairwise fun t t' => t.offset + t.length ≤ t'.offset := by
  refine (placed_sorted ps p).2.filterMap _ ?_
  rintro ⟨q, piece⟩ ⟨q', piece'⟩ hle t ht t' ht'
  obtain ⟨hoffset, hlength⟩ := range_of_token? ht
  rw [hoffset, hlength, (range_of_token? ht').1]
  exact hle

/-- Gaps stand one behind the other. -/
theorem gaps_apart (ps : List Piece) (p : Position) :
    (gaps (placed p ps)).Pairwise fun g g' => g.1 + g.2.text.length ≤ g'.1 := by
  refine (placed_sorted ps p).2.filterMap _ ?_
  rintro ⟨q, piece⟩ ⟨q', piece'⟩ hle g hg g' hg'
  cases ht : piece.isToken <;> cases ht' : piece'.isToken <;>
    simp only [ht, ht', if_true, Bool.false_eq_true, if_false, reduceCtorEq,
      Option.some.injEq] at hg hg'
  subst hg hg'
  exact hle

/-- Each place of a source is in a gap or in a token, and not in both. -/
theorem covered_by_gap_iff {i : Nat} (hi : i < source.length) :
    (∃ g ∈ gaps (placed .start (pieces source)), g.1 ≤ i ∧ i < g.1 + g.2.text.length) ↔
      ¬ ∃ t ∈ tokens .start (pieces source), t.offset ≤ i ∧ i < t.offset + t.length := by
  constructor
  · rintro ⟨⟨j, piece⟩, hg, hgi⟩ ⟨t, ht, hti⟩
    obtain ⟨hp, p, hm, rfl⟩ := mem_gaps.1 hg
    obtain ⟨⟨q, other⟩, hq, he⟩ := List.mem_filterMap.1 ht
    cases eq_of_covers hm hq hgi ((covers_token? he i).2 hti)
    exact Option.some_ne_none _ (he.symm.trans (token?_eq_none.2 hp))
  · intro hnone
    have hlt : i < Position.start.offset + ((pieces source).flatMap text).length := by
      rw [text_pieces]
      exact hi.trans_eq (Nat.zero_add _).symm
    obtain ⟨⟨p, piece⟩, hm, hc⟩ := exists_covers (Nat.zero_le i) hlt
    cases ht : piece.token? p with
    | some t => exact absurd ⟨t, List.mem_filterMap.2 ⟨_, hm, ht⟩, (covers_token? ht i).1 hc⟩ hnone
    | none =>
      exact ⟨(p.offset, piece), mem_gaps.2 ⟨token?_eq_none.1 ht, p, hm, rfl⟩, hc⟩

end

end Piece

/-- The range of a token in its source: its text, and its line at its end. -/
theorem range_of_mem_scan {source : String} {t : Token} (h : t ∈ (scan source).tokens) :
    0 < t.length ∧ t.offset + t.length ≤ source.toList.length ∧
      t.lexeme.toList = (source.toList.drop t.offset).take t.length ∧
      t.line = (1 + (source.toList.take (t.offset + t.length)).count '\n' : Nat) := by
  have hpos : 0 < t.length := by
    obtain ⟨⟨q, piece⟩, hm, he⟩ := List.mem_filterMap.1 h
    obtain ⟨xs, ys, hps, -⟩ := Piece.exists_of_mem_placed hm
    have hne := (Piece.proper_pieces _ piece (hps ▸ List.mem_append_right _ List.mem_cons_self)).1
    rw [(Piece.range_of_token? he).2]
    exact List.length_pos_iff.2 hne
  obtain ⟨before, after, hsource, hoffset, hline⟩ := exists_of_mem_scan h
  have hlength : t.length = t.lexeme.toList.length := String.length_toList.symm
  have hend : t.offset + t.length = (before ++ t.lexeme.toList).length := by
    rw [List.length_append, hoffset, hlength]
  refine ⟨hpos, ?_, ?_, ?_⟩
  · rw [hend, hsource]
    exact (List.prefix_append _ after).length_le
  · rw [hsource, hoffset, hlength, List.append_assoc, List.drop_left, List.take_left]
  · rw [hend, hsource, List.take_left, hline]
    rfl

/-- **Tokens and gaps tile a source.** The tokens have positive length and stand in order and apart
from each other; each has the text of its range and the line on which the range ends; the mark of
the end stands behind everything. A place is in no token exactly if it is in a gap. The gaps stand
in order and apart too, and the diagnostics are the complaints about them, gap by gap: an unexpected
character has one, on its line, an open string has one, on the last line, and no other gap has
any. -/
theorem scan_tiles (source : String) :
    let text := source.toList
    let tokens := (scan source).tokens
    (∀ t ∈ tokens, 0 < t.length ∧ t.offset + t.length ≤ text.length ∧
      t.lexeme.toList = (text.drop t.offset).take t.length ∧
      t.line = (1 + (text.take (t.offset + t.length)).count '\n' : Nat)) ∧
    tokens.Pairwise (fun t t' => t.offset + t.length ≤ t'.offset) ∧
    (scan source).all = tokens ++ [⟨.eof, "", (1 + text.count '\n' : Nat), text.length⟩] ∧
    ∃ gaps : List (Nat × Piece),
      (∀ g ∈ gaps, g.2.StandsAt text g.1) ∧
      gaps.Pairwise (fun g g' => g.1 + g.2.text.length ≤ g'.1) ∧
      (∀ i < text.length, (∃ g ∈ gaps, g.1 ≤ i ∧ i < g.1 + g.2.text.length) ↔
        ¬ ∃ t ∈ tokens, t.offset ≤ i ∧ i < t.offset + t.length) ∧
      (scan source).diagnostics = gaps.filterMap (Piece.complaint? text) := by
  intro text tokens
  have hend : (scan source).all =
      tokens ++ [⟨.eof, "", (1 + text.count '\n' : Nat), text.length⟩] := by
    rw [Scan.all, scan]
    simp only [Position.advance, Position.start, Nat.zero_add]
    rfl
  refine ⟨fun t ht => range_of_mem_scan ht, Piece.tokens_apart _ _, hend,
    Piece.gaps (Piece.placed .start (Piece.pieces text)), ?_, Piece.gaps_apart _ _,
    fun i hi => Piece.covered_by_gap_iff hi, Piece.diagnostics_eq_complaints fun a ha => ha⟩
  rintro ⟨i, piece⟩ hg
  obtain ⟨hp, p, hm, rfl⟩ := Piece.mem_gaps.1 hg
  exact Piece.standsAt_of_mem hm hp

end Lox
