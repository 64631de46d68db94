import Lox.Proofs.Abreast
import Lox.Proofs.BlindParsing
import Lox.Proofs.BlindRunning

/-!
# Layout does not matter

Two sources whose tokens agree in kind and text differ in blanks, line breaks, comments and a shebang
line only. Parsing, the static rules, binding and running are blind to the places of tokens, so such
sources are one program but for the lines in its reports.

Main statement: `Session.run_of_layout`.
-/

namespace Lox

/-! ## Programs -/

/-- Programs with the same statements and the same faults, but for their places. -/
structure Program.SameButPlaces (p p' : Program) : Prop where
  statements : Stmt.relabelAll .bare p.statements = Stmt.relabelAll .bare p'.statements
  diagnostics : p.diagnostics.map Diagnostic.bare = p'.diagnostics.map Diagnostic.bare

namespace Program.SameButPlaces

variable {p p' : Program} (h : p.SameButPlaces p')
include h

theorem debugAll : Stmt.debugAll p'.statements = Stmt.debugAll p.statements := by
  rw [← Stmt.debugAll_bare, ← h.statements, Stmt.debugAll_bare]

theorem violations : p.violations.map Diagnostic.bare = p'.violations.map Diagnostic.bare := by
  unfold Program.violations
  rw [← Stmt.violationsAll_bare, h.statements, Stmt.violationsAll_bare]

theorem bound : Stmt.relabelAll .bare p.bound = Stmt.relabelAll .bare p'.bound := by
  unfold Program.bound
  rw [← Stmt.bindAll_bare, h.statements, Stmt.bindAll_bare]

/-- Corresponding references have the same name and are bound to the same scopes. -/
theorem references : (Stmt.referencesAll p'.bound).map Reference.bareUse =
    (Stmt.referencesAll p.bound).map Reference.bareUse := by
  rw [← Stmt.referencesAll_bare, ← h.bound, Stmt.referencesAll_bare]

/-- The programs are run or refused together, and come to the same. -/
theorem runProgram (s : Setting) (fuel : Nat) (options : RunOptions) {m m' : Machine}
    (hm : m.bare = m'.bare) :
    (Session.runProgram s fuel options p m).diagnostics.map Diagnostic.bare =
        (Session.runProgram s fuel options p' m').diagnostics.map Diagnostic.bare ∧
      (Session.runProgram s fuel options p m).ending.bare =
        (Session.runProgram s fuel options p' m').ending.bare ∧
      (Session.runProgram s fuel options p m).machine.bare =
        (Session.runProgram s fuel options p' m').machine.bare := by
  have hempty : p.diagnostics.isEmpty = p'.diagnostics.isEmpty := by
    rw [← List.isEmpty_map (f := Diagnostic.bare), h.diagnostics, List.isEmpty_map]
  have hall : (p.diagnostics ++ p.violations).map Diagnostic.bare =
      (p'.diagnostics ++ p'.violations).map Diagnostic.bare := by
    rw [List.map_append, List.map_append, h.diagnostics, h.violations]
  have hallEmpty : (p.diagnostics ++ p.violations).isEmpty =
      (p'.diagnostics ++ p'.violations).isEmpty := by
    rw [← List.isEmpty_map (f := Diagnostic.bare), hall, List.isEmpty_map]
  have hcode : Stmt.relabelAll .bare (if options.unbound then p.statements else p.bound) =
      Stmt.relabelAll .bare (if options.unbound then p'.statements else p'.bound) := by
    cases options.unbound with
    | true => exact h.statements
    | false => exact h.bound
  simp only [Session.runProgram, hempty, hallEmpty]
  split
  · split
    · exact ⟨hall, Session.interpretRounds_of_bare s fuel hcode options.rounds hm⟩
    · exact ⟨hall, rfl, hm⟩
  · exact ⟨h.diagnostics, rfl, hm⟩

end Program.SameButPlaces

/-- Sources with the same tokens but for their places. -/
theorem Program.sameButPlaces_compile {a b : String} (ha : (scan a).diagnostics = [])
    (hb : (scan b).diagnostics = [])
    (h : List.Forall₂ (fun t t' => t'.kind = t.kind ∧ t'.lexeme = t.lexeme) (scan a).tokens
      (scan b).tokens) :
    (compile a).SameButPlaces (compile b) := by
  have hparse : Grammar.parse ((scan a).tokens.map .bare) (scan a).eof.bare =
      Grammar.parse ((scan b).tokens.map .bare) (scan b).eof.bare := by
    rw [Token.map_bare_eq h]
    rfl
  rw [Grammar.parse_bare, Grammar.parse_bare] at hparse
  obtain ⟨hstatements, hdiagnostics⟩ := Grammar.Parsed.mk.inj hparse
  refine ⟨hstatements, ?_⟩
  simp only [compile, ha, hb, List.nil_append]
  exact hdiagnostics

/-! ## What is seen of a run -/

theorem Machine.printed_of_bare {m m' : Machine} (h : m.bare = m'.bare) :
    m'.printed = m.printed := (congrArg (·.printed) h).symm

theorem Machine.globalTexts_of_bare {m m' : Machine} (h : m.bare = m'.bare) :
    m'.globalTexts = m.globalTexts := by
  have hbare (m : Machine) : m.bare.globalTexts = m.globalTexts := by
    have ht : m.bare.heap.text = m.heap.text := funext fun v => m.heap.text_bare v
    unfold globalTexts
    rw [ht]
    rfl
  rw [← hbare, ← h, hbare]

theorem Ending.sameButLines_of_bare {e e' : Ending} (h : e.bare = e'.bare) :
    e.SameButLines e' := by
  have hnames (calls : List Call) : (calls.map Call.bare).map Call.name = calls.map Call.name := by
    rw [List.map_map]
    rfl
  cases e with
  | fault f =>
    cases e' with
    | fault f' =>
      obtain ⟨-, hreason, htrace⟩ := Fault.mk.inj (Ending.fault.inj h)
      exact ⟨hreason.symm, by rw [← hnames, ← htrace, hnames]⟩
    | finished | broken _ | outOfFuel => cases h
  | finished | broken _ | outOfFuel =>
    cases e' with
    | fault f' => cases h
    | finished | broken _ | outOfFuel => exact h.symm

namespace Session

/-- **Layout does not matter.** Sources without lexical faults, whose tokens agree in kind and text,
have the same statements and the same faults at the same places of a line, in the same order; their
references are bound to the same scopes; and run on machines that are equal but for places, calls and
logs, whatever the setting, the fuel and the options, they print the same, leave the same globals and
end in the same way, in machines that are equal again. -/
theorem run_of_layout {a b : String} (ha : (scan a).diagnostics = [])
    (hb : (scan b).diagnostics = [])
    (h : List.Forall₂ (fun t t' => t'.kind = t.kind ∧ t'.lexeme = t.lexeme) (scan a).tokens
      (scan b).tokens) :
    Stmt.debugAll (Program.compile b).statements = Stmt.debugAll (Program.compile a).statements ∧
    (Program.compile b).diagnostics.map Diagnostic.bare =
      (Program.compile a).diagnostics.map Diagnostic.bare ∧
    (Program.compile b).violations.map Diagnostic.bare =
      (Program.compile a).violations.map Diagnostic.bare ∧
    (Stmt.referencesAll (Program.compile b).bound).map Reference.bareUse =
      (Stmt.referencesAll (Program.compile a).bound).map Reference.bareUse ∧
    ∀ (s : Setting) (fuel : Nat) (options : RunOptions) (m m' : Machine), m.bare = m'.bare →
      (run s fuel b options m').diagnostics.map Diagnostic.bare =
        (run s fuel a options m).diagnostics.map Diagnostic.bare ∧
      (run s fuel b options m').machine.printed = (run s fuel a options m).machine.printed ∧
      (run s fuel b options m').machine.globalTexts =
        (run s fuel a options m).machine.globalTexts ∧
      (run s fuel a options m).ending.SameButLines (run s fuel b options m').ending ∧
      (run s fuel a options m).machine.bare = (run s fuel b options m').machine.bare := by
  have hp := Program.sameButPlaces_compile ha hb h
  refine ⟨hp.debugAll, hp.diagnostics.symm, hp.violations.symm, hp.references,
    fun s fuel options m m' hm => ?_⟩
  -- what compiling came to is noted in the log only
  have hcompiled : (compiled (Program.compile a) m).bare = (compiled (Program.compile b) m').bare :=
    hm
  obtain ⟨hdiagnostics, hending, hmachine⟩ := hp.runProgram s fuel options hcompiled
  exact ⟨hdiagnostics.symm, Machine.printed_of_bare hmachine,
    Machine.globalTexts_of_bare hmachine, Ending.sameButLines_of_bare hending, hmachine⟩

/-- A shebang line, comments and line breaks, and a fault in a method that is called on another line. -/
theorem run_of_layout_of_comments :
    let wide := "#!/usr/bin/env lox\nclass A \x7b\n  add(n) \x7b // to nothing\n    return n\n" ++
      "      + nil;\n  \x7d\n\x7d\nvar x = 1; // one\nprint x;\nA().add(\n  x);\n"
    let narrow := "class A\x7badd(n)\x7breturn n+nil;\x7d\x7dvar x=1;print x;A().add(x);"
    let s : Setting := { path := "", natives := [.clock] }
    let m := Machine.initial s.natives []
    ((scan wide).diagnostics = [] ∧ (scan narrow).diagnostics = [] ∧
      List.Forall₂ (fun t t' => t'.kind = t.kind ∧ t'.lexeme = t.lexeme) (scan wide).tokens
        (scan narrow).tokens) ∧
    (run s 20 wide {} m).machine.printed = "1\n" ∧
    (run s 20 wide {} m).ending =
      .fault ⟨⟨.plus, "+", 5, 73⟩, .operandsNotAddable, [⟨"add", 11⟩]⟩ ∧
    (run s 20 narrow {} m).machine.printed = "1\n" ∧
    ∃ f, (run s 20 narrow {} m).ending = .fault f ∧ f.reason = .operandsNotAddable ∧
      f.trace.map Call.name = ["add"] := by
  intro wide narrow s m
  have hwide : (scan wide).diagnostics = [] := by decide +kernel
  have hnarrow : (scan narrow).diagnostics = [] := by decide +kernel
  have hsame : List.Forall₂ (fun t t' => t'.kind = t.kind ∧ t'.lexeme = t.lexeme)
      (scan wide).tokens (scan narrow).tokens := by decide +kernel
  have hprinted : (run s 20 wide {} m).machine.printed = "1\n" := by decide +kernel
  have hending : (run s 20 wide {} m).ending =
      .fault ⟨⟨.plus, "+", 5, 73⟩, .operandsNotAddable, [⟨"add", 11⟩]⟩ := by decide +kernel
  obtain ⟨-, -, -, -, hruns⟩ := run_of_layout hwide hnarrow hsame
  have hrun := hruns s 20 {} m m rfl
  rw [hending, hprinted] at hrun
  refine ⟨⟨hwide, hnarrow, hsame⟩, hprinted, hending, hrun.2.1, ?_⟩
  generalize (run s 20 narrow {} m).ending = e at hrun ⊢
  obtain ⟨-, -, -, hends, -⟩ := hrun
  cases e with
  | fault f => exact ⟨f, rfl, hends⟩
  | finished | broken _ | outOfFuel => cases hends

end Session

end Lox
