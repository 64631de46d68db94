import Lox.Proofs.Advancing
import Lox.Proofs.Relabel

/-!
# Recovery is local

A declaration that is refused is dropped up to the semicolon that ends it, and what stands before
and behind is parsed as if it were not there. So it is if the parser gives up at a token `t` of the
declaration such that no statement begins behind `t`, and neither `t` nor a token behind it is a
semicolon but for the last one (`recovery_is_local`). If the first token dropped is a semicolon,
reading goes on right behind it, so a declaration that is refused at a semicolon in its middle
leaves the tokens behind to be parsed (`recovery_goes_on_after_semicolon`).

`Outcome ts eof p` says what parsing comes to in the middle of a run: with any faults reported
before, and with any depth that is enough.
-/

namespace Lox.Grammar

/-! ## Outcomes -/

/-- What parsing the tokens up to the end comes to (module doc). -/
def Outcome (ts : List Token) (eof : Token) (p : Parsed) : Prop :=
  ∀ n ds, 20 * ts.length + 18 ≤ n → ∃ c, declarations n ⟨ts, eof, ds⟩ = .ok p.statements c ∧
    c.diagnostics = ds ++ p.diagnostics

section
variable {ts us : List Token} {eof : Token} {p : Parsed}

theorem not_outOfFuel {α : Type} {x : Parser α} {c : Cursor} {Q : α → Cursor → Prop}
    (h : Ends x c Q fun _ _ => False) (c' : Cursor) : x c ≠ .error .outOfFuel c' :=
  fun he => h.error he

theorem outcome_parse (ts : List Token) (eof : Token) : Outcome ts eof (parse ts eof) := by
  intro n ds hn
  obtain ⟨c, hruns, -, heof, hds, -⟩ := parse_ends ts eof
  have hrun : declarations n ⟨ts, eof, []⟩ = .ok (parse ts eof).statements c := by
    rw [← hruns (depthFor ts) (Nat.le_refl _)]
    refine eq_of_enough (T := fun _ => True) (fun _ _ => makes_declarations _) (fun _ _ => trivial)
      (not_outOfFuel (declarations_ends hn)) (not_outOfFuel (declarations_ends ?_))
    simp only [depthFor]
    omega
  have hsame := ((makes_declarations (fun _ => True) (Nat.le_refl n) ⟨ts, eof, []⟩
    fun _ _ => trivial).ok hrun).2.2 ds [] eof (.inr ⟨rfl, heof.symm⟩)
  simp only [Cursor.amid, List.append_nil] at hsame
  exact ⟨_, hsame, by rw [hds]⟩

theorem Outcome.parse_eq (h : Outcome ts eof p) : parse ts eof = p := by
  obtain ⟨c, hrun, hds⟩ := h (depthFor ts) [] (by simp only [depthFor]; omega)
  simp only [parse, hrun, hds, List.nil_append]

/-- Before the end there is a declaration, read or refused, and more behind. -/
theorem declarations_further {n : Nat} {c c' : Cursor} {first : Option Stmt} {more : List Stmt}
    {ds : List Diagnostic} (hne : ts ≠ []) (hfirst : declaration n ⟨ts, eof, ds⟩ = .ok first c)
    (hmore : declarations n c = .ok more c') :
    declarations (n + 1) ⟨ts, eof, ds⟩ = .ok (first.toList ++ more) c' := by
  unfold declarations
  rw [bind_ok (atEnd_of_ne hne)]
  simp only [Bool.false_eq_true, if_false]
  rw [bind_ok hfirst, bind_ok hmore]
  rfl

/-- Declarations that are read, and what is behind them. -/
theorem Outcome.reads {stmts : List Stmt} (h : Outcome us eof p)
    (hr : Reads (.declarations stmts) ts []) (helse : headKind? us ≠ some .kwElse) :
    Outcome (ts ++ us) eof ⟨stmts ++ p.statements, p.diagnostics⟩ := by
  induction stmts generalizing ts with
  | nil =>
    cases hr with
    | finished => exact h
  | cons stmt stmts ih =>
    cases hr with
    | @further _ _ _ vs _ hne hd hds =>
      intro n ds hn
      obtain ⟨m, rfl⟩ : ∃ m, n = m + 1 := ⟨n - 1, by omega⟩
      have hm : 20 * (ts ++ us).length + 17 ≤ m := Nat.le_of_succ_le_succ hn
      have hd' : Reads (.declaration stmt) (ts ++ us) (vs ++ us) := hd.append (.inr ⟨rfl, helse⟩)
      have hrun : declaration m ⟨ts ++ us, eof, ds⟩ = .ok (some stmt) ⟨vs ++ us, eof, ds⟩ :=
        hd'.parses hm
      obtain ⟨c, hrest, hc⟩ := ih hds m ds (hd'.past.depth hm (by simp [Phrase.least]))
      exact ⟨c, declarations_further (List.append_ne_nil_of_left_ne_nil hne us) hrun hrest, hc⟩

end

/-! ## A refused declaration -/

/-- Where the tokens are refused if they are parsed as one declaration: the tokens that are left. -/
def refusedAt? (ts : List Token) (eof : Token) : Option (List Token) :=
  match declared (depthFor ts) ⟨ts, eof, []⟩ with
  | .error .refused c => some c.rest
  | _ => none

section
variable {ts us rest after : List Token} {eof t : Token}

theorem refusedAt?_eq_some (h : refusedAt? ts eof = some rest) :
    ∃ c, declared (depthFor ts) ⟨ts, eof, []⟩ = .error .refused c ∧ c.rest = rest := by
  unfold refusedAt? at h
  split at h
  · rename_i c hrun
    exact ⟨c, hrun, Option.some.inj h⟩
  · cases h

/-- What is refused before the end is refused with other tokens behind and any depth that is
enough. -/
theorem declared_of_refusedAt? (h : refusedAt? ts eof = some (t :: after)) :
    t :: after <:+ ts ∧ ∃ faults, ∀ n ≥ 20 * ts.length + 16, ∀ ds us eof',
      declared n ⟨ts ++ us, eof', ds⟩ =
        .error .refused ⟨t :: after ++ us, eof', ds ++ faults⟩ := by
  obtain ⟨c, hrun, hrest⟩ := refusedAt?_eq_some h
  have hmake : ∀ n n', n ≤ n' → Makes (fun _ => True) _ (declared n) (declared n') :=
    fun n n' hle => (makesStatements _ hle).declared hle
  refine ⟨?_, c.diagnostics, fun n hn ds us eof' => ?_⟩
  · rw [← hrest]
    exact ((hmake _ _ (Nat.le_refl _) ⟨ts, eof, []⟩ fun _ _ => trivial).error hrun).1.suffix
  -- the declaration does not run out of depth, so it does what is known with more depth
  have henough : ∀ c', declared n ⟨ts, eof, []⟩ ≠ .error .outOfFuel c' := by
    intro c' he
    refine not_outOfFuel ((statementsWithin (n + 1)).declaration ⟨ts, eof, []⟩
      (Nat.succ_le_succ hn)) c' ?_
    rw [declaration_succ]
    simp only [recover, he]
  have hrun' : declared n ⟨ts, eof, []⟩ = .error .refused c := by
    rw [← hrun]
    refine eq_of_enough hmake (fun _ _ => trivial) henough fun c' he => ?_
    rw [hrun] at he
    cases he
  have hsame := ((hmake n n (Nat.le_refl n) ⟨ts, eof, []⟩ fun _ _ => trivial).error hrun').2 rfl
    ds us eof' (.inl (by simp [hrest]))
  simpa only [Cursor.amid, hrest, List.append_nil] using hsame

/-- The tokens from a fault on are dropped up to the only semicolon, which is the last of them. -/
theorem skipPast_fault (us : List Token) : ∀ {t : Token} {after : List Token},
    (∀ u ∈ (t :: after).dropLast, u.kind ≠ .semicolon) →
    (t :: after).getLast?.map (·.kind) = some .semicolon →
    (∀ u ∈ after, beginsStatement u.kind = false) → skipPast t (after ++ us) = us
  | t, [], _, hlast, _ => by
    have ht : t.kind = .semicolon := Option.some.inj hlast
    cases us with
    | nil => rfl
    | cons u us => simp only [List.nil_append, skipPast, ht, if_true]
  | t, u :: after, hsemi, hlast, hbegins => by
    have ht : t.kind ≠ .semicolon := hsemi t List.mem_cons_self
    have hu := hbegins u List.mem_cons_self
    simp only [List.cons_append, skipPast, ht, hu, if_false, Bool.false_eq_true]
    exact skipPast_fault us (fun v hv => hsemi v (List.mem_cons_of_mem _ hv)) (by simpa using hlast)
      fun v hv => hbegins v (List.mem_cons_of_mem _ hv)

end

/-- A fault that is dropped up to its last token leaves the reports, and nothing else. -/
theorem Outcome.fails {es us after : List Token} {eof eof' t : Token} {p : Parsed}
    (h : Outcome us eof p) (hfails : refusedAt? es eof' = some (t :: after))
    (hlast : es.getLast?.map (·.kind) = some .semicolon)
    (hsemi : ∀ u ∈ (t :: after).dropLast, u.kind ≠ .semicolon)
    (hbegins : ∀ u ∈ after, beginsStatement u.kind = false) :
    Outcome (es ++ us) eof ⟨p.statements, (parse es eof').diagnostics ++ p.diagnostics⟩ := by
  obtain ⟨hsuffix, faults, hdeclared⟩ := declared_of_refusedAt? hfails
  have hne : es ≠ [] := by
    rintro rfl
    cases hlast
  have hlast' : (t :: after).getLast?.map (·.kind) = some .semicolon := by
    obtain ⟨before, rfl⟩ := hsuffix
    rwa [List.getLast?_append_cons] at hlast
  -- what the faults are is known from the declaration on its own
  have hgoes : ∀ {us eof p}, Outcome us eof p →
      Outcome (es ++ us) eof ⟨p.statements, faults ++ p.diagnostics⟩ := by
    intro us eof p h n ds hn
    have hpos := List.length_pos_iff.2 hne
    rw [List.length_append] at hn
    obtain ⟨m, rfl⟩ : ∃ m, n = m + 2 := ⟨n - 2, by omega⟩
    obtain ⟨c, hrest, hc⟩ := h (m + 1) (ds ++ faults) (by omega)
    have hrun : declaration (m + 1) ⟨es ++ us, eof, ds⟩ = .ok none ⟨us, eof, ds ++ faults⟩ := by
      rw [declaration_succ]
      simp only [recover, hdeclared m (by omega) ds us eof, List.cons_append, synchronize,
        skipPast_fault us hsemi hlast' hbegins]
    have hmore := declarations_further (List.append_ne_nil_of_left_ne_nil hne us) hrun hrest
    exact ⟨c, hmore, by rw [hc, List.append_assoc]⟩
  have hown : parse es eof' = ⟨[], faults⟩ := by
    have he := (hgoes (outcome_parse [] eof')).parse_eq
    rw [List.append_nil] at he
    rw [he]
    exact congrArg (Parsed.mk []) (List.append_nil faults)
  rw [hown]
  exact hgoes h

/-- **Recovery is local.** Take tokens that are parsed without a fault. Behind them may come tokens
that end in a semicolon and do not begin with `else`, and that are refused, as one declaration, at a
token `t` such that no token behind `t` begins a statement, and neither `t` nor a token behind it is
a semicolon but for the last one. Then parsing these, and any tokens `rs` behind, gives the
statements of the first and of `rs`, and reports the faults of the second and of `rs`, each as on
its own. Without a refused declaration between them the same holds of all tokens `rs` that do not
begin with `else`. -/
theorem recovery_is_local {ps : List Token} {eofP : Token} (hp : (parse ps eofP).diagnostics = [])
    (rs : List Token) (eof : Token) :
    (∀ (es : List Token) (eofE t : Token) (after : List Token), headKind? es ≠ some .kwElse →
      es.getLast?.map (·.kind) = some .semicolon → refusedAt? es eofE = some (t :: after) →
      (∀ u ∈ (t :: after).dropLast, u.kind ≠ .semicolon) →
      (∀ u ∈ after, beginsStatement u.kind = false) →
      parse (ps ++ es ++ rs) eof =
        ⟨(parse ps eofP).statements ++ (parse rs eof).statements,
          (parse es eofE).diagnostics ++ (parse rs eof).diagnostics⟩) ∧
    (headKind? rs ≠ some .kwElse →
      parse (ps ++ rs) eof =
        ⟨(parse ps eofP).statements ++ (parse rs eof).statements, (parse rs eof).diagnostics⟩) := by
  have hreads := reads_of_parse hp
  have hrs := outcome_parse rs eof
  refine ⟨fun es eofE t after helse hlast hfails hsemi hbegins => ?_, fun helse => ?_⟩
  · have hne : es ≠ [] := by
      rintro rfl
      cases hlast
    rw [List.append_assoc]
    refine Outcome.parse_eq ((hrs.fails hfails hlast hsemi hbegins).reads hreads ?_)
    rwa [headKind?_append hne]
  · exact (hrs.reads hreads helse).parse_eq

/-- A declaration refused at a token before its semicolon, between two programs. -/
theorem recovery_is_local_of_stray_name :
    let first := scan "print 1;"
    let fault := scan "x = 1 y;"
    let last := scan "print 2;"
    (parse first.tokens first.eof).diagnostics = [] ∧
      refusedAt? fault.tokens fault.eof =
        some [⟨.identifier, "y", 1, 6⟩, ⟨.semicolon, ";", 1, 7⟩] ∧
      parse (first.tokens ++ fault.tokens ++ last.tokens) last.eof =
        ⟨(parse first.tokens first.eof).statements ++ (parse last.tokens last.eof).statements,
          (parse fault.tokens fault.eof).diagnostics ++ (parse last.tokens last.eof).diagnostics⟩ ∧
      parse (first.tokens ++ last.tokens) last.eof =
        ⟨(parse first.tokens first.eof).statements ++ (parse last.tokens last.eof).statements,
          (parse last.tokens last.eof).diagnostics⟩ := by
  intro first fault last
  have hp : (parse first.tokens first.eof).diagnostics = [] := by decide +kernel
  have hfails : refusedAt? fault.tokens fault.eof =
      some [⟨.identifier, "y", 1, 6⟩, ⟨.semicolon, ";", 1, 7⟩] := by decide +kernel
  obtain ⟨hwith, hwithout⟩ := recovery_is_local hp last.tokens last.eof
  refine ⟨hp, hfails, ?_, hwithout (by decide +kernel)⟩
  exact hwith fault.tokens fault.eof _ _ (by decide +kernel) (by decide +kernel) hfails
    (by decide) (by decide)

/-- A declaration refused at a semicolon in its middle: no statement begins behind it and there is
no semicolon behind but the last token, and yet the tokens behind are parsed as a statement. -/
theorem recovery_goes_on_after_semicolon :
    let fault := scan "var ; x ;"
    (∀ t ∈ fault.tokens, t.kind ≠ .leftBrace) ∧ headKind? fault.tokens ≠ some .kwElse ∧
      fault.tokens.getLast?.map (·.kind) = some .semicolon ∧
      ∃ t after, refusedAt? fault.tokens fault.eof = some (t :: after) ∧
        (∀ u ∈ after.dropLast, u.kind ≠ .semicolon) ∧
        (∀ u ∈ after, beginsStatement u.kind = false) ∧
        (parse [] fault.eof).diagnostics = [] ∧
        parse ([] ++ fault.tokens ++ []) fault.eof ≠
          ⟨(parse [] fault.eof).statements ++ (parse [] fault.eof).statements,
            (parse fault.tokens fault.eof).diagnostics ++ (parse [] fault.eof).diagnostics⟩ := by
  intro fault
  refine ⟨by decide +kernel, by decide +kernel, by decide +kernel, ⟨.semicolon, ";", 1, 4⟩,
    [⟨.identifier, "x", 1, 6⟩, ⟨.semicolon, ";", 1, 8⟩], by decide +kernel, by decide, by decide,
    by decide +kernel, fun he => ?_⟩
  have hone : (parse ([] ++ fault.tokens ++ []) fault.eof).statements.length = 1 := by
    decide +kernel
  rw [he] at hone
  exact absurd hone (by decide +kernel)

end Lox.Grammar
