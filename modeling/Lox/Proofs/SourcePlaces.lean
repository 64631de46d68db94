import Lox.Proofs.Advancing
import Lox.Proofs.Pointing
import Lox.Proofs.Tiling

/-!
# Every report has a place in the source

What the scanner, the parser, the static rules and a run complain about stands in the source: at a
token of the scan, or at what the scanner could not make a token of. Its line is counted up to its
end, so there is such a line (`Listing.shows_lineAfter`), and a report can show it.

Main statement: `Session.reports_point_into_source`.
-/

namespace Lox

/-! ## Lines -/

namespace Listing

/-- The line on which a text stands after its first `i` characters. -/
def lineAfter (text : List Char) (i : Nat) : Int := (1 + (text.take i).count '\n' : Nat)

/-- The line is one of the source, and showing it prints its number at least. -/
structure Shows (source : String) (line : Int) : Prop where
  first : 1 ≤ line
  last : line ≤ (lines source).length
  gutter : ∀ inColour, ∃ shown, render source line inColour = gutter line.toNat ++ shown
  printed : ∀ inColour, render source line inColour ≠ ""

theorem gutter_append_ne (n : Nat) (shown : String) : gutter n ++ shown ≠ "" := by
  intro h
  have hl := congrArg String.length h
  simp [gutter] at hl

theorem shows_lineAfter (source : String) (i : Nat) : Shows source (lineAfter source.toList i) := by
  have hline : (lines source)[(source.toList.take i).count '\n']? =
      some (lineAt (source.toList.take i) (source.toList.drop i)) := by
    have hsplit := getElem?_splitOn (source.toList.take i) (source.toList.drop i)
    rwa [List.take_append_drop] at hsplit
  have hrender : ∀ inColour, ∃ shown, render source (lineAfter source.toList i) inColour =
      gutter (lineAfter source.toList i).toNat ++ shown := by
    intro inColour
    unfold render lineAfter
    rw [if_neg (by omega), Int.toNat_natCast, Nat.add_sub_cancel_left, hline]
    exact ⟨_, rfl⟩
  refine ⟨?_, ?_, hrender, fun inColour => ?_⟩
  · unfold lineAfter
    omega
  · have hlt := (List.getElem?_eq_some_iff.1 hline).1
    unfold lineAfter
    omega
  · obtain ⟨shown, he⟩ := hrender inColour
    rw [he]
    exact gutter_append_ne _ shown

end Listing

open Listing

/-- A token stands on the line on which its range ends. -/
theorem line_of_mem_scan {source : String} {t : Token} (h : t ∈ (scan source).all) :
    t.line = lineAfter source.toList (t.offset + t.length) := by
  rcases List.mem_append.1 h with h | h
  · exact (range_of_mem_scan h).2.2.2
  · cases List.mem_singleton.1 h
    have hoffset : (scan source).eof.offset + (scan source).eof.length = source.toList.length :=
      Nat.zero_add _
    rw [hoffset, lineAfter, List.take_length]
    rfl

/-- A lexical fault is an unexpected character or an open string, and is reported on the line on
which that ends. -/
theorem Piece.place_of_mem_scan {source : String} {d : Diagnostic}
    (h : d ∈ (scan source).diagnostics) :
    ∃ i piece, StandsAt source.toList i piece ∧
      ((∃ c, piece = stray c) ∨ ∃ text, piece = openString text) ∧
      d.line = lineAfter source.toList (i + piece.text.length) := by
  obtain ⟨⟨p, piece⟩, hm, hd⟩ := List.mem_filterMap.1 h
  obtain ⟨cause, hf, rfl⟩ := Option.map_eq_some_iff.1 hd
  have hform : (∃ c, piece = stray c) ∨ ∃ text, piece = openString text := by
    cases piece with
    | stray c => exact .inl ⟨c, rfl⟩
    | openString text => exact .inr ⟨text, rfl⟩
    | _ => cases hf
  have hp : piece.isToken = false := by
    obtain ⟨c, rfl⟩ | ⟨text, rfl⟩ := hform <;> rfl
  refine ⟨p.offset, piece, standsAt_of_mem hm hp, hform, ?_⟩
  obtain ⟨xs, ys, -, hsource, rfl⟩ := exists_around hm
  have hlength : (Position.start.advance (xs.flatMap text)).offset + piece.text.length =
      (xs.flatMap text ++ piece.text).length := by
    simp only [Position.advance, Position.start, Nat.zero_add, List.length_append]
  rw [hlength, hsource, lineAfter, List.take_left, List.count_append, ← Nat.add_assoc]
  rfl

/-! ## Reports -/

namespace Session

/-- What compiling a source comes to is made of its tokens, and reported at them. -/
theorem compile_points (source : String) :
    Stmt.MadeAll (· ∈ (scan source).tokens) (Program.compile source).statements ∧
      ∃ ds, (Program.compile source).diagnostics = (scan source).diagnostics ++ ds ∧
        Diagnostic.AllAt (· ∈ (scan source).all) ds := by
  obtain ⟨-, -, -, -, -, hmade, hat⟩ :=
    Grammar.parse_ends (scan source).tokens (scan source).eof
  refine ⟨hmade, _, rfl, fun d hd => ?_⟩
  obtain ⟨t, cause, ht, he⟩ := hat d hd
  exact ⟨t, cause, by simpa [Scan.all] using ht, he⟩

/-- **Every report points into the source.** Take any source, run on a new machine. The diagnostics
are those of the scan, and others that are each about a token of the scan, or its mark of the end. A
fault of the run points at a token, unless a native function has made it up, and each call in its
trace carries the line of a closing parenthesis. The line of a token, and of whatever else the
scanner reports, is counted up to the end of it; so it is a line of the source, and a report shows
it. -/
theorem reports_point_into_source (path : String) (natives : List Native) (clock : Clock)
    (fuel : Nat) (source : String) (options : RunOptions) :
    let outcome := run { path, natives } fuel source options (.initial natives clock)
    let scanned := scan source
    (∃ ds, outcome.diagnostics = scanned.diagnostics ++ ds ∧
      ∀ d ∈ ds, ∃ t cause, t ∈ scanned.all ∧ d = .ofToken t cause) ∧
    (∀ f, outcome.ending = .fault f →
      (f.token ∈ scanned.tokens ∨ ∃ text, f.reason = .native text) ∧
        ∀ call ∈ f.trace, ∃ t ∈ scanned.tokens, t.kind = .rightParen ∧ call.line = t.line) ∧
    (∀ t ∈ scanned.all, t.line = lineAfter source.toList (t.offset + t.length)) ∧
    (∀ d ∈ scanned.diagnostics, ∃ i piece, Piece.StandsAt source.toList i piece ∧
      ((∃ c, piece = .stray c) ∨ ∃ text, piece = .openString text) ∧
      d.line = lineAfter source.toList (i + piece.text.length)) ∧
    ∀ i, Shows source (lineAfter source.toList i) := by
  intro outcome scanned
  obtain ⟨hmade, ds, hds, hat⟩ := compile_points source
  have hviolations : Diagnostic.AllAt (· ∈ scanned.all) (Program.compile source).violations := by
    intro d hd
    obtain ⟨t, cause, ht, he⟩ := Stmt.violationsAll_at _ _ _ _ hmade d hd
    exact ⟨t, cause, List.mem_append_left _ ht, he⟩
  refine ⟨?_, fun f hf => ?_, fun t ht => line_of_mem_scan ht,
    fun d hd => Piece.place_of_mem_scan hd, shows_lineAfter source⟩
  · rcases diagnostics_runProgram { path, natives } fuel options (Program.compile source)
      (compiled (Program.compile source) (.initial natives clock)) with he | he
    · exact ⟨ds, he.trans hds, hat⟩
    · rw [hds, List.append_assoc] at he
      exact ⟨_, he, hat.append hviolations⟩
  · obtain ⟨htoken, htrace⟩ := points_runProgram (s := { path, natives }) rfl fuel options
      hmade (m := compiled (Program.compile source) (.initial natives clock))
      (fun i c hc => by cases hc) f hf
    refine ⟨htoken, fun call hc => ?_⟩
    obtain ⟨t, ⟨ht, hk⟩, hline⟩ := htrace call hc
    exact ⟨t, ht, hk, hline⟩

end Session

end Lox
