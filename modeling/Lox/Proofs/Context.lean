import Mathlib.Data.List.DropRight
import Lox.Proofs.Joining
import Lox.Repl

/-!
# The source line under a fault

A token stands on the line on which its text ends, counted in the source it was scanned from
(`exists_of_mem_scan`, `Listing.getElem?_lines`). A report shows the line of that number in the text
that the reporter holds, which is the line that the user typed last. So the right line is shown if the
token that failed was scanned from that text (`Repl.context_of_token`), and another one if it comes
from a function of an earlier input (`Repl.context_of_earlier_input`).
-/

namespace Lox

/-! ## The place of a token -/

theorem Piece.exists_of_mem_placed {piece : Piece} {q : Position} :
    ∀ {ps : List Piece} {p : Position}, (q, piece) ∈ placed p ps →
      ∃ before after, ps = before ++ piece :: after ∧ q = p.advance (before.flatMap text)
  | first :: ps, p, h => by
    rcases List.mem_cons.1 h with h | h
    · cases h
      exact ⟨[], ps, rfl, rfl⟩
    · obtain ⟨before, after, rfl, rfl⟩ := exists_of_mem_placed h
      refine ⟨first :: before, after, rfl, ?_⟩
      simp only [Position.advance, List.flatMap_cons, List.count_append, List.length_append,
        Nat.add_assoc]

/-- A token is a stretch of its source; its line is counted up to the end of the stretch. -/
theorem exists_of_mem_scan {source : String} {t : Token} (h : t ∈ (scan source).tokens) :
    ∃ before after, source.toList = before ++ t.lexeme.toList ++ after ∧ t.offset = before.length ∧
      t.line = 1 + (before ++ t.lexeme.toList).count '\n' := by
  obtain ⟨⟨q, piece⟩, hm, he⟩ := List.mem_filterMap.1 h
  obtain ⟨before, after, hps, rfl⟩ := Piece.exists_of_mem_placed hm
  have htext := Piece.text_pieces source.toList
  rw [hps, List.flatMap_append, List.flatMap_cons, ← List.append_assoc] at htext
  cases piece with
  | token kind text =>
    cases he
    refine ⟨before.flatMap Piece.text, after.flatMap Piece.text, ?_, ?_, ?_⟩
    · rw [String.toList_ofList]
      exact htext.symm
    · simp [Position.advance, Position.start]
    · simp [Position.advance, Position.start, Nat.add_assoc]
  | _ => cases he

/-! ## Lines -/

namespace Listing

/-- The line that goes on where a text is cut in two: the end of the first part after its last line
break, and the second part up to its first one. -/
def lineAt (before after : List Char) : List Char :=
  before.rtakeWhile (· != '\n') ++ after.takeWhile (· != '\n')

theorem length_splitOn (cs : List Char) : (cs.splitOn '\n').length = cs.count '\n' + 1 := by
  induction cs with
  | nil => rfl
  | cons c cs ih =>
    unfold List.splitOn at ih ⊢
    rw [List.splitOnP_cons_eq_if_modifyHead, List.count_cons]
    split
    · rw [List.length_cons, ih]
    · rw [List.length_modifyHead, ih]

theorem head?_splitOn (cs : List Char) :
    (cs.splitOn '\n').head? = some (cs.takeWhile (· != '\n')) := by
  induction cs with
  | nil => rfl
  | cons c cs ih =>
    unfold List.splitOn at ih ⊢
    rw [List.splitOnP_cons_eq_if_modifyHead]
    by_cases hc : c = '\n'
    · simp [hc]
    · simp [hc, List.head?_modifyHead, ih]

/-- **Line breaks count lines**: after a number of line breaks stands the line of that number. -/
theorem getElem?_splitOn (before after : List Char) :
    ((before ++ after).splitOn '\n')[before.count '\n']? = some (lineAt before after) := by
  induction before using List.reverseRecOn generalizing after with
  | nil => rw [List.nil_append, List.count_nil, ← List.head?_eq_getElem?, head?_splitOn]; rfl
  | append_singleton before c ih =>
    rw [List.append_assoc, List.singleton_append, List.count_append]
    by_cases hc : c = '\n'
    · subst hc
      have hsplit : (before ++ '\n' :: after).splitOn '\n' =
          before.splitOn '\n' ++ after.splitOn '\n' :=
        List.splitOnP_append_cons _ _ (by simp)
      have hlast : (before ++ ['\n']).rtakeWhile (· != '\n') = [] :=
        List.rtakeWhile_concat_neg _ _ _ (by simp)
      rw [hsplit, List.getElem?_append_right (by simp [length_splitOn]), length_splitOn, lineAt,
        hlast]
      simp [← List.head?_eq_getElem?, head?_splitOn]
    · have hlast : (before ++ [c]).rtakeWhile (· != '\n') =
          before.rtakeWhile (· != '\n') ++ [c] :=
        List.rtakeWhile_concat_pos _ _ _ (by simpa using hc)
      have hcount : [c].count '\n' = 0 := by simp [hc]
      rw [hcount, Nat.add_zero, ih, lineAt, lineAt, hlast, List.append_assoc,
        List.takeWhile_cons_of_pos (by simpa using hc)]
      rfl

/-- A line with its number in front. -/
def numbered (n : Nat) (text : List Char) : String :=
  gutter n ++ String.ofList (Text.normalizeBreaks (text ++ ['\n']))

/-- Display without colours shows the text as it is. -/
theorem join_paint (style : Style) (text : List Char) :
    String.join ((Span.spans text).map (paint style false)) =
      String.ofList (Text.normalizeBreaks text) := by
  rw [← Span.text_spans]
  induction Span.spans text with
  | nil => rfl
  | cons span spans ih =>
    rw [List.map_cons, String.join_cons, ih, List.flatMap_cons, String.ofList_append]
    rfl

theorem render_eq (source : String) (k : Nat) :
    render source (1 + k : Nat) false = ((lines source)[k]?.map (numbered (1 + k))).getD "" := by
  unfold render
  rw [if_neg (by omega), Int.toNat_natCast, Nat.add_sub_cancel_left]
  cases (lines source)[k]? with
  | none => rfl
  | some text =>
    simp only [join_paint]
    rfl

end Listing

namespace Session

/-- A program that ends in a fault has run, so it had no static fault. -/
theorem diagnostics_of_fault {s : Setting} {fuel : Nat} {p : Program} {m : Machine} {f : Fault}
    (h : (runProgram s fuel {} p m).ending = .fault f) :
    (runProgram s fuel {} p m).diagnostics = [] := by
  by_cases hd : (p.diagnostics ++ p.violations).isEmpty = true
  · have hp : p.diagnostics.isEmpty = true := by
      rw [List.isEmpty_iff, List.append_eq_nil_iff] at hd
      simp [hd.1]
    simp only [runProgram, hp, hd, Bool.true_or, if_true]
    exact List.isEmpty_iff.1 hd
  · rw [Bool.not_eq_true] at hd
    simp only [runProgram, hd, Bool.false_or] at h
    split at h <;> cases h

end Session

namespace Write

theorem errText_append (verbose : Bool) (ws ws' : List Write) :
    errText verbose (ws ++ ws') = errText verbose ws ++ errText verbose ws' := by
  simp [errText, String.join_append]

theorem errText_map_log (events : List Event) : errText false (events.map .log) = "" := by
  simp [errText, List.filterMap_map]

end Write

namespace Repl

/-- What a line came to in a session. -/
theorem runLines_getElem? {flags : Flags} {s : Setting} {fuel : Nat} {reply : Reply} :
    ∀ {lines : List String} {m : Machine} {i : Nat},
      (runLines flags s fuel lines m)[i]? = some reply →
        ∃ line m', lines[i]? = some line ∧ reply = runLine flags s fuel line m'
  | [], _, _, h => by cases h
  | line :: lines, m, i, h => by
    simp only [runLines] at h
    cases i with
    | zero =>
      refine ⟨line, m, rfl, ?_⟩
      split at h <;> exact (Option.some.inj h).symm
    | succ i =>
      split at h
      · cases h
      · cases h
      · rw [List.getElem?_cons_succ] at h ⊢
        exact runLines_getElem? h

/-- What is written about a fault, besides the log. -/
theorem errText_runSource {flags : Flags} (hc : flags.context = true) {s : Setting} {fuel : Nat}
    {source : String} {onFault : List Event} {m : Machine} {f : Fault}
    (hf : (runSource flags s fuel source onFault m).outcome.ending = .fault f) :
    Write.errText false (runSource flags s fuel source onFault m).writes =
      f.reason.message ++ "\n[line " ++ toString f.token.line ++ "]\n" ++
        Listing.render source f.token.line false := by
  have hd := Session.diagnostics_of_fault hf
  unfold runSource at hf hd ⊢
  simp only at hf hd ⊢
  rw [hd, hf]
  simp only [Write.errText_append, Write.errText_map_log]
  cases f.trace.isEmpty <;> simp [Write.errText, Reporter.fault, Reporter.listing, Reporter.banner, hc]

/-- A line that ends in a fault is a program. -/
theorem runLine_of_fault {flags : Flags} {s : Setting} {fuel : Nat} {line : String} {m : Machine}
    {f : Fault} (hf : (runLine flags s fuel line m).ending = .fault f) :
    let step := runSource flags s fuel line [.runtimeError line] m
    (runLine flags s fuel line m).writes = step.writes ∧ step.outcome.ending = .fault f := by
  unfold runLine at hf ⊢
  split at hf
  · cases hf
  · cases hf
  · cases hf
  · exact ⟨rfl, hf⟩

/-- **Context shows the line of a token in the text typed last.** Take any session with context
printing on, an input line of it that ends in a fault, and the source `own` that the token of the
fault was scanned from. Under the fault stands the line of the input that has the number of the line
on which the token ends in `own`, if there is one. So if the token was scanned from this very input,
it is the line on which the token ends. -/
theorem context_of_token {flags : Flags} (hc : flags.context = true) (s : Setting) (fuel : Nat)
    (lines : List String) (m : Machine) {i : Nat} {line own : String} {reply : Reply} {f : Fault}
    (hl : lines[i]? = some line) (hr : (runLines flags s fuel lines m)[i]? = some reply)
    (hf : reply.ending = .fault f) (ho : f.token ∈ (scan own).tokens) :
    let before := own.toList.take (f.token.offset + f.token.length)
    let after := own.toList.drop (f.token.offset + f.token.length)
    let breaks := before.count '\n'
    let shown := ((Listing.lines line)[breaks]?.map (Listing.numbered (1 + breaks))).getD ""
    Write.errText false reply.writes =
        f.reason.message ++ "\n[line " ++ toString (1 + breaks) ++ "]\n" ++ shown ∧
      (own = line → shown = Listing.numbered (1 + breaks) (Listing.lineAt before after)) := by
  intro before after breaks shown
  obtain ⟨line', m', hl', rfl⟩ := runLines_getElem? hr
  cases hl.symm.trans hl'
  obtain ⟨hwrites, hending⟩ := runLine_of_fault hf
  have hline : f.token.line = ((1 + breaks : Nat) : Int) := by
    obtain ⟨cs, ds, htext, hoffset, hline⟩ := exists_of_mem_scan ho
    have hbefore : before = cs ++ f.token.lexeme.toList := by
      have hlength : f.token.offset + f.token.length = (cs ++ f.token.lexeme.toList).length := by
        rw [List.length_append, hoffset, String.length_toList]
        rfl
      change own.toList.take _ = _
      rw [hlength, htext, List.take_left]
    rw [hline, ← hbefore]
    rfl
  refine ⟨?_, ?_⟩
  · rw [hwrites, errText_runSource hc hending, hline, Listing.render_eq]
    rfl
  · rintro rfl
    have hat : (Listing.lines own)[breaks]? = some (Listing.lineAt before after) := by
      have happ : before ++ after = own.toList := List.take_append_drop _ _
      rw [Listing.lines, ← happ]
      exact Listing.getElem?_splitOn before after
    simp only [shown, hat, Option.map_some, Option.getD_some]

/-- A fault on the third line of an input, where a string ends that begins on the line before. -/
theorem context_of_token_of_third_line :
    let line := "a = 2;\nvar b = \"x\ny\" - a;"
    let lines := ["var a = 1;", line]
    let replies := runLines { context := true } setting 20 lines (.initial setting.natives [])
    ∃ reply f, replies[1]? = some reply ∧ reply.ending = .fault f ∧ f.token ∈ (scan line).tokens ∧
      Write.errText false reply.writes = f.reason.message ++ "\n[line 3]\n" ++
        Listing.numbered 3 "y\" - a;".toList := by
  intro line lines replies
  let f : Fault := ⟨⟨.minus, "-", 3, 21⟩, .operandsNotNumbers, []⟩
  have hmap : replies[1]?.map Reply.ending = some (.fault f) := by decide +kernel
  obtain ⟨reply, hr, hf⟩ := Option.map_eq_some_iff.1 hmap
  have ho : f.token ∈ (scan line).tokens := by decide +kernel
  have hl : lines[1]? = some line := rfl
  obtain ⟨herr, hown⟩ := context_of_token rfl setting 20 lines _ hl hr hf ho
  refine ⟨reply, f, hr, hf, ho, ?_⟩
  rw [herr, hown rfl]
  decide +kernel

/-- A fault in a function of an earlier input: the line that was typed last is shown, though the token
of the fault stands on the only line of the first input. -/
theorem context_of_earlier_input :
    let first := "fun f() \x7b return 1 + nil; \x7d"
    let replies := runLines { context := true } setting 20 [first, "f();"]
      (.initial setting.natives [])
    ∃ reply f, replies[1]? = some reply ∧ reply.ending = .fault f ∧
      f.token ∈ (scan first).tokens ∧ f.token ∉ (scan "f();").tokens ∧
      Listing.lineAt (first.toList.take (f.token.offset + f.token.length))
        (first.toList.drop (f.token.offset + f.token.length)) = first.toList ∧
      Write.errText false reply.writes =
        f.reason.message ++ "\n[line 1]\n" ++ Listing.numbered 1 "f();".toList := by
  intro first replies
  let f : Fault := ⟨⟨.plus, "+", 1, 19⟩, .operandsNotAddable, [⟨"f", 1⟩]⟩
  have hmap : replies[1]?.map (fun reply => (reply.ending, Write.errText false reply.writes)) =
      some (.fault f, f.reason.message ++ "\n[line 1]\n" ++
        Listing.numbered 1 "f();".toList) := by
    decide +kernel
  obtain ⟨reply, hr, hpair⟩ := Option.map_eq_some_iff.1 hmap
  obtain ⟨hf, herr⟩ := Prod.mk.inj hpair
  exact ⟨reply, f, hr, hf, by decide +kernel, by decide +kernel, by decide +kernel, herr⟩

end Repl

end Lox
