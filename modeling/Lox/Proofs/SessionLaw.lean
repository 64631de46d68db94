import Lox.Proofs.Abreast

/-!
# Sessions and single sources

Running sources one after the other is like running them at once: the accepted ones, put together
with line breaks, print the same text and leave the same globals, and the last one ends in the same
way but for lines (`joined_like_session`). The rejected ones leave nothing behind but a line in the
log. A source that ends in a fault ends in the same fault if another source is put after it
(`fault_before_source`).
-/

namespace Lox

/-! ## Sources put together -/

/-- The accepted ones among some sources. -/
def Program.acceptedOf (sources : List String) : List String :=
  sources.filter fun source => (Program.compile source).Accepted

/-- Accepted sources put together. But for the first, their statements differ in their lines. -/
theorem Program.accepted_intercalate {K : Likeness} (hK : ¬ K.lines) {rest : List String}
    {a : String} (ha : (Program.compile a).Accepted)
    (h : ∀ b ∈ rest, (Program.compile b).Accepted ∧ Piece.hasShebang b.toList = false) :
    (Program.compile ("\n".intercalate (a :: rest))).Accepted ∧ ∃ bodies : List (List Stmt),
      List.Forall₂ (fun b body => Stmt.AlikeAll K [] (Program.compile b).bound body) rest bodies ∧
        (Program.compile ("\n".intercalate (a :: rest))).bound =
          (Program.compile a).bound ++ bodies.flatten := by
  induction rest generalizing a with
  | nil =>
    rw [String.intercalate_singleton]
    exact ⟨ha, [], .nil, (List.append_nil _).symm⟩
  | cons b rest ih =>
    obtain ⟨hb, hs⟩ := h b List.mem_cons_self
    obtain ⟨hab, ts, hbound, halike⟩ := Program.accepted_join hK ha hb hs
    obtain ⟨hj, bodies, hbodies, hj'⟩ := ih hab fun c hc => h c (List.mem_cons_of_mem _ hc)
    have hjoin : "\n".intercalate (a :: b :: rest) = "\n".intercalate ((a ++ "\n" ++ b) :: rest) := by
      rw [String.intercalate_cons_append, String.intercalate_cons_cons]
    rw [hjoin]
    refine ⟨hj, ts :: bodies, .cons halike hbodies, ?_⟩
    rw [hj', hbound, List.flatten_cons, List.append_assoc]

theorem Program.accepted_empty :
    (Program.compile "").Accepted ∧ (Program.compile "").bound = [] := by
  have hr : Grammar.Reads (.declarations []) (scan "").tokens [] := by
    rw [show (scan "").tokens = [] by decide +kernel]
    exact .finished
  obtain ⟨hd, hs⟩ := Program.compile_of_reads (by decide +kernel) hr
  exact ⟨⟨hd, by rw [Program.violations, hs]; rfl⟩, by rw [Program.bound, hs]; rfl⟩

/-- The accepted ones of some sources, put together. -/
theorem Program.accepted_join_acceptedOf {K : Likeness} (hK : ¬ K.lines) {sources : List String}
    (hs : ∀ b ∈ (Program.acceptedOf sources).tail, Piece.hasShebang b.toList = false) :
    (Program.compile ("\n".intercalate (Program.acceptedOf sources))).Accepted ∧
      ∃ bodies : List (List Stmt),
        List.Forall₂ (fun b body => Stmt.AlikeAll K [] (Program.compile b).bound body)
          (Program.acceptedOf sources) bodies ∧
        (Program.compile ("\n".intercalate (Program.acceptedOf sources))).bound = bodies.flatten := by
  have hacc : ∀ b ∈ Program.acceptedOf sources, (Program.compile b).Accepted :=
    fun b hb => of_decide_eq_true (List.mem_filter.1 hb).2
  cases hl : Program.acceptedOf sources with
  | nil =>
    rw [String.intercalate_nil]
    exact ⟨Program.accepted_empty.1, [], .nil, Program.accepted_empty.2⟩
  | cons a rest =>
    rw [hl] at hs hacc
    have ha := hacc a List.mem_cons_self
    obtain ⟨hj, bodies, hbodies, hbound⟩ := Program.accepted_intercalate hK ha
      fun b hb => ⟨hacc b (List.mem_cons_of_mem _ hb), hs b hb⟩
    exact ⟨hj, (Program.compile a).bound :: bodies, .cons (Program.alikeAll_bound K ha) hbodies, hbound⟩

namespace Session

/-! ## Sources one by one -/

/-- The machine after some sources, run one after the other. -/
def runEach (s : Setting) (fuel : Nat) (sources : List String) (m : Machine) : Machine :=
  sources.foldl (fun m source => (run s fuel source {} m).machine) m

/-- How the accepted ones of some sources end, run one after the other. -/
def endings (s : Setting) (fuel : Nat) : List String → Machine → List Ending
  | [], _ => []
  | source :: rest, m =>
    let outcome := run s fuel source {} m
    if (Program.compile source).Accepted then
      outcome.ending :: endings s fuel rest outcome.machine
    else endings s fuel rest outcome.machine

section
variable {K : Likeness} {s : Setting} {fuel : Nat} {m m' : Machine} {source : String}
  {rest : List String}

theorem endings_of_accepted (ha : (Program.compile source).Accepted) :
    endings s fuel (source :: rest) m = (run s fuel source {} m).ending ::
      endings s fuel rest (run s fuel source {} m).machine := if_pos ha

theorem endings_of_rejected (hr : ¬ (Program.compile source).Accepted) :
    endings s fuel (source :: rest) m = endings s fuel rest (run s fuel source {} m).machine :=
  if_neg hr

theorem acceptedOf_of_rejected (hr : ¬ (Program.compile source).Accepted) :
    Program.acceptedOf (source :: rest) = Program.acceptedOf rest :=
  List.filter_cons_of_neg (by simpa using hr)

theorem acceptedOf_of_accepted (ha : (Program.compile source).Accepted) :
    Program.acceptedOf (source :: rest) = source :: Program.acceptedOf rest :=
  List.filter_cons_of_pos (by simpa using ha)

/-- Sources of which none is accepted leave nothing behind. -/
theorem abreast_of_rejected : ∀ {sources : List String} {m : Machine}, Abreast K m m' →
    endings s fuel sources m = [] →
    Program.acceptedOf sources = [] ∧ Abreast K (runEach s fuel sources m) m'
  | [], m, h, _ => ⟨rfl, h⟩
  | source :: rest, m, h, he => by
    by_cases ha : (Program.compile source).Accepted
    · rw [endings_of_accepted ha] at he
      cases he
    · rw [endings_of_rejected ha] at he
      have hstep : Abreast K (run s fuel source {} m).machine m' := by
        rw [(run_of_rejected s fuel ha m).2]
        exact h.logged _ m'.log
      rw [acceptedOf_of_rejected ha]
      exact abreast_of_rejected hstep he

/-- The machine of a program executed up to its end or to an interrupt. -/
def ended (r : EStateM.Result Interrupt Machine Unit) : Ending × Machine :=
  match r with
  | .ok _ m => (.finished, m)
  | .error i m => (i.ending, m)

variable (hst : s.scoping = .static) (hn : ∀ native ∈ s.natives, native.Honest)
include hst hn

/-- The accepted ones of some sources, run one by one, and their statements all at once: as long as
each but the last one finishes, the two stay abreast. -/
theorem abreast_runEach : ∀ {sources : List String} {bodies : List (List Stmt)} {m m' : Machine},
    Abreast K m m' →
    List.Forall₂ (fun b body => Stmt.AlikeAll K [] (Program.compile b).bound body)
      (Program.acceptedOf sources) bodies →
    (∀ e ∈ (endings s fuel sources m).dropLast, e = .finished) →
    ((endings s fuel sources m).getLastD .finished).Alike K
        (ended (executeEach s fuel bodies.flatten m')).1 ∧
      Abreast K (runEach s fuel sources m) (ended (executeEach s fuel bodies.flatten m')).2
  | [], bodies, m, m', h, hb, _ => by
    cases hb
    exact ⟨.finished, h⟩
  | source :: rest, bodies, m, m', h, hb, hf => by
    by_cases ha : (Program.compile source).Accepted
    · rw [acceptedOf_of_accepted ha] at hb
      rw [endings_of_accepted ha] at hf ⊢
      cases hb with
      | @cons _ body _ bodies halike hrest =>
      have hbegun : Abreast K (begun s source m) m' := h.logged _ m'.log
      rcases hbegun.executeEach hst hn fuel halike with
        ⟨m₁, m₁', hx, hx', h₁⟩ | ⟨i, i', m₁, m₁', hx, hx', hi, h₁⟩
      · have hrun := run_of_ok ha hx
        have hmachine : runEach s fuel (source :: rest) m = runEach s fuel rest m₁ := by
          rw [runEach, List.foldl_cons, hrun]
          rfl
        rw [hrun] at hf ⊢
        rw [List.getLastD_cons, hmachine, List.flatten_cons, executeEach_append_of_ok _ hx']
        refine abreast_runEach h₁ hrest fun e he => hf e ?_
        have hne : endings s fuel rest m₁ ≠ [] := by
          intro hnil
          rw [hnil] at he
          cases he
        rw [List.dropLast_cons_of_ne_nil hne]
        exact List.mem_cons_of_mem _ he
      · have hrun := run_of_error ha h₁.1 hx
        have hmachine : runEach s fuel (source :: rest) m = runEach s fuel rest m₁ := by
          rw [runEach, List.foldl_cons, hrun]
          rfl
        rw [hrun] at hf ⊢
        -- an interrupted source is the last one that is accepted
        have hlast : endings s fuel rest m₁ = [] := by
          by_contra hne
          rw [List.dropLast_cons_of_ne_nil hne] at hf
          exact i.ending_ne_finished (hf _ List.mem_cons_self)
        obtain ⟨hnone, hrested⟩ := abreast_of_rejected h₁ hlast
        rw [hnone] at hrest
        cases hrest
        rw [hlast, hmachine, List.flatten_cons, executeEach_append_of_error _ hx']
        exact ⟨hi.ending, hrested⟩
    · have hstep : Abreast K (run s fuel source {} m).machine m' := by
        rw [(run_of_rejected s fuel ha m).2]
        exact h.logged _ m'.log
      rw [acceptedOf_of_rejected ha] at hb
      rw [endings_of_rejected ha] at hf ⊢
      exact abreast_runEach hstep hb hf

omit hst hn in
/-- Running an accepted source that comes back to the globals. -/
theorem run_eq_ended (ha : (Program.compile source).Accepted)
    (hf : (ended (executeEach s fuel (Program.compile source).bound (begun s source m))).2.frame =
      globals) :
    run s fuel source {} m =
      ⟨[], (ended (executeEach s fuel (Program.compile source).bound (begun s source m))).1,
        (ended (executeEach s fuel (Program.compile source).bound (begun s source m))).2⟩ := by
  cases hx : executeEach s fuel (Program.compile source).bound (begun s source m) with
  | ok u m₁ => exact run_of_ok ha hx
  | error i m₁ =>
    rw [hx] at hf
    exact run_of_error ha hf hx

/-! ## The law -/

/-- The accepted ones of some sources, run at once and one by one. -/
theorem joined_like_session (h : ∀ K, Abreast K m m) {sources : List String}
    (hs : ∀ b ∈ (Program.acceptedOf sources).tail, Piece.hasShebang b.toList = false)
    (hf : ∀ e ∈ (endings s fuel sources m).dropLast, e = .finished) :
    let joined := run s fuel ("\n".intercalate (Program.acceptedOf sources)) {} m
    joined.diagnostics = [] ∧ joined.machine.printed = (runEach s fuel sources m).printed ∧
      joined.machine.globalTexts = (runEach s fuel sources m).globalTexts ∧
      ((endings s fuel sources m).getLastD .finished).SameButLines joined.ending := by
  intro joined
  let K : Likeness := ⟨False, True⟩
  obtain ⟨ha, bodies, hbodies, hbound⟩ :=
    Program.accepted_join_acceptedOf (K := K) (fun hl => hl) hs
  have hbegun : Abreast K m (begun s ("\n".intercalate (Program.acceptedOf sources)) m) :=
    (h K).logged m.log _
  obtain ⟨he, hm⟩ := abreast_runEach hst hn hbegun hbodies hf
  rw [← hbound] at he hm
  have hj : joined = _ := run_eq_ended ha hm.right
  rw [hj]
  exact ⟨rfl, hm.printed, hm.globalTexts, he.sameButLines trivial⟩

/-- A source that ends in a fault, alone and before another one. -/
theorem fault_before_source (h : ∀ K, Abreast K m m) {a b : String}
    (ha : (Program.compile a).Accepted) (hb : (Program.compile b).Accepted)
    (hs : Piece.hasShebang b.toList = false) {f : Fault} (hf : (run s fuel a {} m).ending = .fault f) :
    let both := run s fuel (a ++ "\n" ++ b) {} m
    both.diagnostics = [] ∧ both.machine.printed = (run s fuel a {} m).machine.printed ∧
      both.machine.globalTexts = (run s fuel a {} m).machine.globalTexts ∧
      Ending.Same (.fault f) both.ending := by
  intro both
  obtain ⟨hab, ts, hbound, -⟩ := Program.accepted_join (K := ⟨False, True⟩) (fun hl => hl) ha hb hs
  let K : Likeness := ⟨True, True⟩
  have hbegun : Abreast K (begun s a m) (begun s (a ++ "\n" ++ b) m) := (h K).logged _ _
  rcases hbegun.executeEach hst hn fuel (Program.alikeAll_bound K ha) with
    ⟨m₁, m₁', hx, -, -⟩ | ⟨i, i', m₁, m₁', hx, hx', hi, h₁⟩
  · rw [run_of_ok ha hx] at hf
    cases hf
  · have hboth : executeEach s fuel (Program.compile (a ++ "\n" ++ b)).bound
        (begun s (a ++ "\n" ++ b) m) = .error i' m₁' := by
      rw [hbound]
      exact executeEach_append_of_error ts hx'
    have hj : both = ⟨[], i'.ending, m₁'⟩ := run_of_error hab h₁.right hboth
    rw [run_of_error ha h₁.1 hx] at hf ⊢
    rw [hj, ← show i.ending = .fault f from hf]
    exact ⟨rfl, h₁.printed, h₁.globalTexts, hi.ending.same trivial (.inl trivial)⟩

end

/-- **The session law.** Take any machine that a session reaches, and any sources of which no
accepted one but the first begins with a shebang line. If the accepted ones, run one after the
other, all finish except perhaps the last, then their texts put together are an accepted source that
prints the same, leaves the same globals, and ends like the last one but for lines; the rejected ones
leave nothing behind but log lines. And a source that ends in a fault prints the same and ends in
the same fault when another one is put after it. -/
theorem sources_run_like_joined (path : String) (natives : List Native)
    (hn : ∀ native ∈ natives, native.Honest) (clock : Clock) (runs : List (Nat × String))
    (fuel : Nat) :
    let s : Setting := { path, natives }
    let m := after s clock runs
    (∀ sources : List String,
      (∀ b ∈ (Program.acceptedOf sources).tail, Piece.hasShebang b.toList = false) →
      (∀ e ∈ (endings s fuel sources m).dropLast, e = .finished) →
      let joined := run s fuel ("\n".intercalate (Program.acceptedOf sources)) {} m
      joined.diagnostics = [] ∧ joined.machine.printed = (runEach s fuel sources m).printed ∧
        joined.machine.globalTexts = (runEach s fuel sources m).globalTexts ∧
        ((endings s fuel sources m).getLastD .finished).SameButLines joined.ending) ∧
    (∀ source, ¬ (Program.compile source).Accepted →
      ∃ log, (run s fuel source {} m).machine = { m with log }) ∧
    ∀ a b f, (Program.compile a).Accepted → (Program.compile b).Accepted →
      Piece.hasShebang b.toList = false → (run s fuel a {} m).ending = .fault f →
      let both := run s fuel (a ++ "\n" ++ b) {} m
      both.diagnostics = [] ∧ both.machine.printed = (run s fuel a {} m).machine.printed ∧
        both.machine.globalTexts = (run s fuel a {} m).machine.globalTexts ∧
        Ending.Same (.fault f) both.ending := by
  intro s m
  have hm : ∀ K, Abreast K m m := fun K => abreast_after rfl hn K clock runs
  refine ⟨fun sources hs hf => joined_like_session rfl hn hm hs hf, fun source hr => ?_,
    fun a b f ha hb hs hf => fault_before_source rfl hn hm ha hb hs hf⟩
  exact ⟨_, (run_of_rejected s fuel hr m).2⟩

/-- Four sources, one of them rejected, the last of which ends in a fault inside a function that an
earlier one declared; and a source after one that ends in a fault. -/
theorem sources_run_like_joined_of_fault :
    let s : Setting := { path := "", natives := [Native.clock] }
    let m := after s [] [(30, "var a = 1;")]
    let sources := ["#!lox\nprint a; // one", "print a +;", "fun f() \x7b\n return a + nil; \x7d", "f();"]
    let joined := run s 30 ("\n".intercalate (Program.acceptedOf sources)) {} m
    let first := "print 1; nil();"
    (Program.acceptedOf sources).length = 3 ∧
    (joined.diagnostics = [] ∧ joined.machine.printed = (runEach s 30 sources m).printed ∧
      joined.machine.globalTexts = (runEach s 30 sources m).globalTexts ∧
      ((endings s 30 sources m).getLastD .finished).SameButLines joined.ending) ∧
    ∃ f, (run s 30 first {} m).ending = .fault f ∧
      Ending.Same (.fault f) (run s 30 (first ++ "\n" ++ "print 2;") {} m).ending := by
  intro s m sources joined first
  have law := sources_run_like_joined "" [Native.clock] honest_clock [] [(30, "var a = 1;")] 30
  have hf : (run s 30 first {} m).ending =
      .fault ⟨⟨.rightParen, ")", 1, 13⟩, .notCallable, []⟩ := by decide +kernel
  refine ⟨by decide +kernel, law.1 sources (by decide +kernel) (by decide +kernel), _, hf, ?_⟩
  exact (law.2.2 first "print 2;" _ (by decide +kernel) (by decide +kernel) (by decide +kernel)
    hf).2.2.2

end Session

end Lox
