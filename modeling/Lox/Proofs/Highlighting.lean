import Lox.Highlight
import Lox.Proofs.Tiling

/-!
# Highlighting never changes the text

The line is put together from its tokens and from what it has between the places where they stand.
The pieces of a line tile it, and its tokens stand where their pieces do; so nothing is lost, said
twice or moved (`Highlight.stitch_tokens`), and colours stand around tokens only.

Main statement: `Highlight.text_kept`.
-/

namespace Lox.Highlight

open Piece (tokens)

/-! ## Stretches -/

/-- A stretch of a line on display, with the code of its colour if it has one. -/
structure Stretch where
  code : Option String
  text : List Char

/-- What is written for a stretch: its text, in the colour between two escape sequences. -/
def Stretch.shown (s : Stretch) : String :=
  match s.code with
  | some code => "\x1b[" ++ code ++ "m" ++ String.ofList s.text ++ "\x1b[0m"
  | none => String.ofList s.text

/-- The stretches in colour among some that begin at place `i`: place, code and text. -/
def coloured (i : Nat) : List Stretch → List (Nat × String × List Char)
  | [] => []
  | s :: rest => (s.code.map fun code => (i, code, s.text)).toList ++ coloured (i + s.text.length) rest

/-- The stretch of a piece. Only tokens have colours. -/
def stretch : Piece → Stretch
  | .token kind text => ⟨colour? kind, text⟩
  | piece => ⟨none, piece.text⟩

@[simp] theorem text_stretch (piece : Piece) : (stretch piece).text = piece.text := by
  cases piece <;> rfl

theorem flatMap_text_stretch (ps : List Piece) :
    (ps.map stretch).flatMap Stretch.text = ps.flatMap Piece.text := by
  rw [List.flatMap_map]
  simp only [text_stretch]

theorem join_ofList (ps : List Piece) :
    String.join (ps.map fun piece => String.ofList piece.text) =
      String.ofList (ps.flatMap Piece.text) := by
  induction ps with
  | nil => rfl
  | cons piece ps ih =>
    rw [List.map_cons, String.join_cons, ih, List.flatMap_cons, String.ofList_append]

/-! ## Between two places -/

section
variable {line : List Char}

theorem between_self (i : Nat) : between line i i = "" := by
  rw [between, List.drop_eq_nil_of_le (List.length_take_le i line), String.ofList_nil]

/-- What stands between two places goes on with the text after the second. -/
theorem between_append {before text after : List Char} (hl : line = before ++ text ++ after)
    {i : Nat} (hi : i ≤ before.length) :
    between line i (before.length + text.length) =
      between line i before.length ++ String.ofList text := by
  have hlong : line.take (before.length + text.length) = before ++ text := by
    rw [hl, ← List.length_append, List.take_left]
  have hshort : line.take before.length = before := by
    rw [hl, List.append_assoc, List.take_left]
  rw [between, between, hlong, hshort, List.drop_append_of_le_length hi, String.ofList_append]

end

/-! ## Tokens and gaps put together -/

/-- What a piece is written as. -/
def written (inColour : Bool) (piece : Piece) : String :=
  if inColour then (stretch piece).shown else String.ofList piece.text

section
variable {inColour : Bool} {p : Position} {piece : Piece}

theorem paint_of_token? {t : Token} (ht : piece.token? p = some t) :
    paint inColour t = written inColour piece := by
  cases piece with
  | token kind text =>
    cases ht
    unfold paint written
    cases hc : colour? kind <;> cases inColour <;>
      simp [hc, stretch, Stretch.shown, styled, Piece.text]
  | _ => cases ht

theorem written_of_gap (ht : piece.token? p = none) :
    written inColour piece = String.ofList piece.text := by
  cases piece with
  | token kind text => cases ht
  | _ => cases inColour <;> rfl

end

/-- **The line is its pieces, written one after the other.** Here `ps` are the pieces from place `p`
on, and the line is written up to place `i`. -/
theorem stitch_tokens (inColour : Bool) {line : List Char} : ∀ {ps : List Piece} {p : Position}
    {before : List Char} {i : Nat}, line = before ++ ps.flatMap Piece.text →
    p.offset = before.length → i ≤ p.offset →
      stitch inColour line i (tokens p ps) =
        between line i p.offset ++ String.join (ps.map (written inColour))
  | [], p, before, i, hl, hp, _ => by
    rw [List.flatMap_nil, List.append_nil] at hl
    rw [hp, ← hl]
    exact (String.append_empty).symm
  | piece :: ps, p, before, i, hl, hp, hi => by
    rw [List.flatMap_cons, ← List.append_assoc] at hl
    have hnext : (p.advance piece.text).offset = (before ++ piece.text).length := by
      rw [List.length_append, ← hp]
      rfl
    rw [Piece.tokens_cons, List.map_cons, String.join_cons]
    cases ht : piece.token? p with
    | some t =>
      obtain ⟨hoffset, hlength⟩ := Piece.range_of_token? ht
      have hend : t.offset + t.length = (p.advance piece.text).offset := by
        rw [hoffset, hlength]
        rfl
      have hrest := stitch_tokens inColour hl hnext (Nat.le_of_eq hend)
      rw [Option.toList_some, List.singleton_append, stitch, hrest, hend, between_self,
        String.empty_append, hoffset, paint_of_token? ht, String.append_assoc]
    | none =>
      have hle : i ≤ (p.advance piece.text).offset := Nat.le_trans hi (Nat.le_add_right _ _)
      have hgap : between line i (p.advance piece.text).offset =
          between line i p.offset ++ String.ofList piece.text := by
        rw [hnext, hp, List.length_append]
        exact between_append hl (hp ▸ hi)
      rw [Option.toList_none, List.nil_append, stitch_tokens inColour hl hnext hle, hgap,
        written_of_gap ht, String.append_assoc]

/-- The stretches in colour stand where the tokens do that have a colour. -/
theorem coloured_stretches : ∀ (ps : List Piece) (p : Position),
    coloured p.offset (ps.map stretch) = (tokens p ps).filterMap fun t =>
      (colour? t.kind).map fun code => (t.offset, code, t.lexeme.toList)
  | [], _ => rfl
  | piece :: ps, p => by
    have ih := coloured_stretches ps (p.advance piece.text)
    rw [List.map_cons, coloured, text_stretch, Piece.tokens_cons, List.filterMap_append, ← ih]
    congr 1
    cases piece with
    | token kind text =>
      cases hc : colour? kind <;> simp [stretch, Piece.token?, Piece.text, hc]
    | _ => rfl

/-! ## The line -/

/-- The colours: strings, numbers, the constants that are words, and the other reserved words. -/
theorem colour?_eq (kind : TokenKind) :
    colour? kind =
      if kind = .string then some "32"
      else if kind = .number then some "35"
      else if kind ∈ [.kwTrue, .kwFalse, .kwNil] then some "36"
      else if kind ∈ TokenKind.keywords.map Prod.snd then some "34"
      else none := by
  cases kind <;> decide

theorem highlight_eq (inColour : Bool) (line : String) :
    highlight inColour line =
      String.join ((Piece.pieces line.toList).map (written inColour)) := by
  have hl : line.toList = [] ++ (Piece.pieces line.toList).flatMap Piece.text := by
    rw [Piece.text_pieces, List.nil_append]
  have hstitch := stitch_tokens inColour (p := .start) (i := 0) hl rfl (Nat.le_refl 0)
  change stitch inColour line.toList 0 (tokens .start (Piece.pieces line.toList)) = _
  rw [hstitch]
  change between line.toList 0 0 ++ _ = _
  rw [between_self, String.empty_append]

/-- **Highlighting never changes the text.** Without colours a line is displayed as it is. With
colours it is displayed as stretches that are together the line. Those in colour are just the
tokens, found by scanning the line, of the kinds that have a colour: each stands where its token does,
and has its text and its colour. All else, whatever it is, is as it was. -/
theorem text_kept (line : String) :
    highlight false line = line ∧
    (∃ stretches : List Stretch,
      stretches.flatMap Stretch.text = line.toList ∧
      highlight true line = String.join (stretches.map Stretch.shown) ∧
      coloured 0 stretches = (scan line).tokens.filterMap fun t =>
        (colour? t.kind).map fun code => (t.offset, code, t.lexeme.toList)) ∧
    ∀ kind : TokenKind, colour? kind =
      if kind = .string then some "32"
      else if kind = .number then some "35"
      else if kind ∈ [.kwTrue, .kwFalse, .kwNil] then some "36"
      else if kind ∈ TokenKind.keywords.map Prod.snd then some "34"
      else none := by
  refine ⟨?_, ⟨(Piece.pieces line.toList).map stretch, ?_, ?_, ?_⟩, colour?_eq⟩
  · rw [highlight_eq]
    exact (join_ofList _).trans (by rw [Piece.text_pieces, String.ofList_toList])
  · rw [flatMap_text_stretch, Piece.text_pieces]
  · rw [highlight_eq, List.map_map]
    rfl
  · exact coloured_stretches (Piece.pieces line.toList) .start

/-- The string that is not closed is no token, and has no colour. -/
example : highlight true "var x = 1 \"a" = "\x1b[34mvar\x1b[0m x = \x1b[35m1\x1b[0m \"a" := by
  decide +kernel

end Lox.Highlight
