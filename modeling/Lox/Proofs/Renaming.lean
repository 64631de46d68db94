import Lox.Proofs.Abreast
import Lox.Proofs.Respelling

/-!
# Renaming a local variable

`Program.renamed source d y` is the source with the name `y` in the place of the local variable `d`:
at its declaration, and at the references that are bound to it. If `y` is a name that the source does
not use, the new source is accepted if the old one is, its bound statements are alike
(`Program.accepted_renamed`), and so both do the same (`Session.renamed_runs_alike`).
-/

namespace Lox

/-! ## The new source -/

/-- The source with another name for its local variable `d`. -/
def Program.renamed (source : String) (d : Token) (y : String) : String :=
  String.ofList ((Piece.respellAll ((Program.compile source).occurrences d) y.toList .start
    (Piece.pieces source.toList)).flatMap Piece.text)

/-! ## Local variables are identifiers -/

section
variable {d : Token}

theorem Stmt.not_isWord_of_mem_variables : ∀ {ss : List Stmt}, Stmt.FormedAll ss →
    d ∈ Stmt.variables ss → ¬ Heap.isWord d.lexeme
  | st :: ss, hf, h => by
    rcases Stmt.mem_variables_cons.1 h with h | h
    · cases st with
      | var name init =>
        cases h
        exact hf.1.1
      | _ => cases h
    · exact Stmt.not_isWord_of_mem_variables hf.2 h

mutual

/-- No local variable is called like one of the two words that only classes bind. -/
theorem Stmt.not_isWord_of_mem_locals (σ : Scopes) : ∀ st : Stmt, st.Formed →
    d ∈ (st.bind σ).locals → ¬ Heap.isWord d.lexeme
  | .block body, hf, h => by
    rcases List.mem_append.1 h with h | h
    · rw [Stmt.variables_bindAll] at h
      exact Stmt.not_isWord_of_mem_variables hf h
    · exact Stmt.not_isWord_of_mem_localsAll _ body hf h
  | .ifThen _ yes, hf, h => Stmt.not_isWord_of_mem_locals σ yes hf.2.1 h
  | .ifElse _ yes no, hf, h => by
    rcases List.mem_append.1 h with h | h
    · exact Stmt.not_isWord_of_mem_locals σ yes hf.2.1.1 h
    · exact Stmt.not_isWord_of_mem_locals σ no hf.2.2.1 h
  | .loop _ body, hf, h => Stmt.not_isWord_of_mem_locals σ body hf.2.1 h
  | .function decl, hf, h => FunDecl.not_isWord_of_mem_locals _ decl hf h
  | .classDecl _ _ methods, hf, h => FunDecl.not_isWord_of_mem_localsAll _ methods hf.2.2 h

theorem Stmt.not_isWord_of_mem_localsAll (σ : Scopes) : ∀ ss : List Stmt, Stmt.FormedAll ss →
    d ∈ Stmt.localsAll (Stmt.bindAll σ ss) → ¬ Heap.isWord d.lexeme
  | st :: ss, hf, h => by
    rcases List.mem_append.1 h with h | h
    · exact Stmt.not_isWord_of_mem_locals σ st hf.1 h
    · exact Stmt.not_isWord_of_mem_localsAll _ ss hf.2 h

theorem FunDecl.not_isWord_of_mem_locals (σ : Scopes) : ∀ f : FunDecl Stmt, FunDecl.Formed f →
    d ∈ FunDecl.locals (FunDecl.bind σ f) → ¬ Heap.isWord d.lexeme
  | ⟨_, params, body⟩, hf, h => by
    rcases List.mem_append.1 h with h | h
    · rcases List.mem_append.1 h with h | h
      · exact hf.2.1 d h
      · rw [Stmt.variables_bindAll] at h
        exact Stmt.not_isWord_of_mem_variables hf.2.2 h
    · exact Stmt.not_isWord_of_mem_localsAll _ body hf.2.2 h

theorem FunDecl.not_isWord_of_mem_localsAll (σ : Scopes) : ∀ fs : List (FunDecl Stmt),
    FunDecl.FormedAll fs → d ∈ FunDecl.localsAll (FunDecl.bindAll σ fs) → ¬ Heap.isWord d.lexeme
  | f :: fs, hf, h => by
    rcases List.mem_append.1 h with h | h
    · exact FunDecl.not_isWord_of_mem_locals σ f hf.1 h
    · exact FunDecl.not_isWord_of_mem_localsAll σ fs hf.2 h

end

end

/-! ## Names and tokens -/

/-- The tokens of a source are all different. -/
theorem nodup_scan (source : String) : (scan source).tokens.Nodup := by
  have hs := (Piece.tokens_sorted (Piece.pieces source.toList) .start
    fun piece hp => (Piece.proper_pieces _ piece hp).1).2
  refine List.Pairwise.imp (fun {t t'} hlt => ?_) hs
  rintro rfl
  exact Nat.lt_irrefl _ hlt

namespace Program

variable {source : String} (ha : (Program.compile source).Accepted) {d : Token}
include ha

theorem count_names_le (d t : Token) :
    ((Stmt.namesAll d none (Program.compile source).bound).map (·.1)).count t ≤
      (scan source).tokens.count t := by
  have hl := (Program.reads ha.diagnostics).linear t
  rw [Program.bound, Stmt.map_namesAll_bindAll]
  simpa only [Grammar.Phrase.yields, Grammar.Phrase.given, List.count_nil, Nat.add_zero,
    Nat.zero_add] using hl

/-- Every name of a source is a token of it. -/
theorem mem_tokens_of_mem_names {p : Token × Bool}
    (hp : p ∈ Stmt.namesAll d none (Program.compile source).bound) :
    p.1 ∈ (scan source).tokens := by
  have hpos := List.count_pos_iff.2 (List.mem_map_of_mem (f := (·.1)) hp)
  exact List.count_pos_iff.1 (lt_of_lt_of_le hpos (count_names_le ha d p.1))

/-- A name is in one place only, so it stands for `d` or it does not. -/
theorem mem_occurrences_iff {t : Token} {b : Bool}
    (hp : (t, b) ∈ Stmt.namesAll d none (Program.compile source).bound) :
    t ∈ (Program.compile source).occurrences d ↔ b = true := by
  have hnodup : ((Stmt.namesAll d none (Program.compile source).bound).map (·.1)).Nodup := by
    rw [List.nodup_iff_count_le_one]
    intro t
    exact (count_names_le ha d t).trans (List.nodup_iff_count_le_one.1 (nodup_scan source) t)
  constructor
  · intro ht
    obtain ⟨⟨t', b'⟩, hm, rfl⟩ := List.mem_map.1 ht
    obtain ⟨hm, hb'⟩ := List.mem_filter.1 hm
    cases List.inj_on_of_nodup_map hnodup hp hm rfl
    exact hb'
  · rintro rfl
    exact List.mem_map.2 ⟨(t, true), List.mem_filter.2 ⟨hp, rfl⟩, rfl⟩

/-- An occurrence of a local variable is an identifier, spelled like the variable. -/
theorem of_mem_occurrences (hd : d ∈ (Program.compile source).locals) {t : Token}
    (ht : t ∈ (Program.compile source).occurrences d) :
    t.kind = .identifier ∧ t.lexeme = d.lexeme ∧ t ∈ (scan source).tokens := by
  have hword : ¬ Heap.isWord d.lexeme :=
    Stmt.not_isWord_of_mem_localsAll [] _ (Program.formed ha.diagnostics) hd
  obtain ⟨⟨t, b⟩, hm, rfl⟩ := List.mem_map.1 ht
  obtain ⟨hm, hb⟩ := List.mem_filter.1 hm
  have hlex : t.lexeme = d.lexeme := Stmt.spelledLikeAll none _ _ hm hb
  have htok : t ∈ (scan source).tokens := mem_tokens_of_mem_names ha hm
  have hspelled := spelled_scan source t htok
  have hname : t ∈ Stmt.nameTokensAll (Program.compile source).statements := by
    rw [← Stmt.map_namesAll_bindAll d [] none]
    exact List.mem_map_of_mem (f := (·.1)) hm
  refine ⟨?_, hlex, htok⟩
  by_contra hk
  have hthis : t.kind ≠ .kwThis := fun h => hword (.inl (hlex ▸ hspelled.eq_this h))
  have hsuper : t.kind ≠ .kwSuper := fun h => hword (.inr (hlex ▸ hspelled.eq_super h))
  cases (Program.reads ha.diagnostics).isName hk hthis hsuper hname

end Program

/-- Tokens that differ can be mapped to any others, one by one. -/
theorem exists_relabelling {R : Token → Token → Prop} {ts ts' : List Token} (hn : ts.Nodup)
    (h : List.Forall₂ R ts ts') :
    ∃ φ : Token → Token, ts.map φ = ts' ∧ (∀ t ∈ ts, R t (φ t)) ∧ ∀ t ∉ ts, φ t = t := by
  induction h with
  | nil => exact ⟨id, rfl, fun t ht => (List.not_mem_nil ht).elim, fun t _ => rfl⟩
  | @cons t t' ts ts' hr _ ih =>
    obtain ⟨hnot, hn⟩ := List.nodup_cons.1 hn
    obtain ⟨φ, hmap, hφ, hid⟩ := ih hn
    have hother : ∀ u, u ≠ t → Function.update φ t t' u = φ u := fun u hu => Function.update_of_ne hu _ _
    refine ⟨Function.update φ t t', ?_, fun u hu => ?_, fun u hu => ?_⟩
    · rw [List.map_cons, Function.update_self, ← hmap]
      exact congrArg (t' :: ·) (List.map_congr_left fun u hu => hother u fun he => hnot (he ▸ hu))
    · rcases List.mem_cons.1 hu with rfl | hu
      · rwa [Function.update_self]
      · rw [hother u fun he => hnot (he ▸ hu)]
        exact hφ u hu
    · rw [hother u fun he => hu (he ▸ List.mem_cons_self)]
      exact hid u fun hm => hu (List.mem_cons_of_mem _ hm)

/-- A relabelling that changes the names of identifiers only is faithful. -/
theorem faithful_of_respelled {marked : List Token} (hm : ∀ t ∈ marked, t.kind = .identifier)
    {y : String} {φ : Token → Token} (h : ∀ t, Token.Respelled marked y t (φ t) ∨ φ t = t) :
    Grammar.Faithful φ := by
  have hkind : ∀ t, (φ t).kind = t.kind := fun t => (h t).elim (·.kind) (congrArg Token.kind)
  refine ⟨hkind, fun t => ?_⟩
  rcases h t with h | h
  · by_cases ht : t ∈ marked
    · simp only [Token.constant?, hkind, hm t ht]
    · have hlex : (φ t).lexeme = t.lexeme := h.lexeme.trans (if_neg ht)
      simp only [Token.constant?, hkind, hlex]
  · rw [h]

namespace Program

variable {source : String} (ha : (Program.compile source).Accepted) {d : Token}
  (hd : d ∈ (Program.compile source).locals) {y : String} (hy : Piece.isName y.toList = true)
include ha hd hy

/-- The tokens of the new source. -/
theorem scan_renamed : (scan (Program.renamed source d y)).diagnostics = [] ∧
    List.Forall₂ (Token.Respelled ((Program.compile source).occurrences d) y)
      (scan source).tokens (scan (Program.renamed source d y)).tokens := by
  have hm : ∀ t ∈ (Program.compile source).occurrences d, t.kind = .identifier :=
    fun t ht => (of_mem_occurrences ha hd ht).1
  have hfaults := scan_diagnostics.1 (List.append_eq_nil_iff.1 ha.diagnostics).1
  have hre := Piece.respelled_respellAll hm y.toList (Piece.pieces source.toList) .start
  have hpieces : Piece.pieces (Program.renamed source d y).toList =
      Piece.respellAll ((Program.compile source).occurrences d) y.toList .start
        (Piece.pieces source.toList) := by
    rw [Program.renamed, String.toList_ofList, Piece.pieces_respelled hy hfaults hre]
  constructor
  · rw [scan_diagnostics, hpieces]
    exact Piece.fault?_respelled hre hfaults
  · rw [scan_tokens, scan_tokens, hpieces]
    exact Piece.tokens_respellAll hm hy _ (Piece.proper_pieces _) rfl

/-- **The renamed source is accepted**, and its bound statements are alike. -/
theorem accepted_renamed (hfresh : ∀ t ∈ (scan source).tokens, t.lexeme ≠ y) :
    (Program.compile (Program.renamed source d y)).Accepted ∧
      Stmt.AlikeAll ⟨True, False⟩ [] (Program.compile source).bound
        (Program.compile (Program.renamed source d y)).bound := by
  obtain ⟨hdiag, htokens⟩ := scan_renamed ha hd hy
  have hm : ∀ t ∈ (Program.compile source).occurrences d, t.kind = .identifier :=
    fun t ht => (of_mem_occurrences ha hd ht).1
  obtain ⟨φ, hmap, hφ, hid⟩ := exists_relabelling (nodup_scan source) htokens
  have hall : ∀ t, Token.Respelled ((Program.compile source).occurrences d) y t (φ t) ∨ φ t = t :=
    fun t => (em (t ∈ (scan source).tokens)).imp (hφ t) (hid t)
  have hreads := (Program.reads ha.diagnostics).relabel (faithful_of_respelled hm hall)
  rw [hmap] at hreads
  obtain ⟨hdiag', hstmts⟩ := Program.compile_of_reads hdiag hreads
  have hword : ¬ Heap.isWord d.lexeme :=
    Stmt.not_isWord_of_mem_localsAll [] _ (Program.formed ha.diagnostics) hd
  have hfreshWord : ¬ Heap.isWord y := Piece.not_isWord_of_isName hy
  have hfixed : ∀ w, Heap.isWord w → Equiv.swap d.lexeme y w = w := by
    intro w hw
    refine Equiv.swap_apply_of_ne_of_ne ?_ ?_
    · rintro rfl
      exact hword hw
    · rintro rfl
      exact hfreshWord hw
  have hlevel : ∀ t : Token, t.Level ⟨True, False⟩ (φ t) :=
    fun t _ => (hall t).elim (·.line) (congrArg Token.line)
  have hfair : Renaming.Fair ⟨True, False⟩ (Equiv.swap d.lexeme y) :=
    ⟨hfixed "this" (.inl rfl), hfixed "super" (.inr rfl), fun h => h.elim⟩
  have hrenames : Renames φ d y (Stmt.namesAll d none (Program.compile source).bound) := by
    rintro ⟨t, b⟩ hp
    have htok := mem_tokens_of_mem_names ha hp
    refine ⟨hfresh t htok, (hφ t htok).lexeme.trans ?_⟩
    simp only [mem_occurrences_iff ha hp, renamedTo]
    by_cases hb : b = true
    · have hlex : t.lexeme = d.lexeme := Stmt.spelledLikeAll none _ _ hp hb
      rw [if_pos hb, if_pos hb, hlex, Equiv.swap_apply_left]
    · rw [if_neg hb, if_neg hb]
  obtain ⟨halike, hviol⟩ := Stmt.rebindAll ⟨hlevel, hfair, hword, hfreshWord⟩
    (Scopes.ready_nil y) _ (Program.formed ha.diagnostics) ha.violations (fun ho => by cases ho) hrenames
  rw [Program.bound, Program.bound, hstmts]
  refine ⟨⟨hdiag', ?_⟩, halike⟩
  rw [Program.violations, hstmts]
  exact hviol

end Program

namespace Session

/-- **Renaming a local variable changes nothing.** Take an accepted source and a variable `d` that a
block or a function of it declares, and a name `y` that no token of the source has. The source with
`y` in the place of `d`, at the declaration and at the references bound to it, is accepted as well.
Run on any machine that a session reaches, the two print the same and leave the same globals, and
they end in the same way, with the same reason, line and trace, unless the first breaks a promise. -/
theorem renamed_runs_alike (path : String) (natives : List Native)
    (hn : ∀ native ∈ natives, native.Honest) (clock : Clock) (runs : List (Nat × String))
    (fuel : Nat) {source : String} (ha : (Program.compile source).Accepted) {d : Token}
    (hd : d ∈ (Program.compile source).locals) {y : String} (hy : Piece.isName y.toList = true)
    (hfresh : ∀ t ∈ (scan source).tokens, t.lexeme ≠ y) :
    let s : Setting := { path, natives }
    let m := after s clock runs
    let old := run s fuel source {} m
    let new := run s fuel (Program.renamed source d y) {} m
    (d ∈ (Program.compile source).occurrences d ∧
      List.Forall₂ (Token.Respelled ((Program.compile source).occurrences d) y)
        (scan source).tokens (scan (Program.renamed source d y)).tokens) ∧
    (Program.compile (Program.renamed source d y)).Accepted ∧
    ((∀ b, old.ending ≠ .broken b) →
      new.machine.printed = old.machine.printed ∧
        new.machine.globalTexts = old.machine.globalTexts ∧ old.ending.Same new.ending) := by
  intro s m old new
  obtain ⟨ha', halike⟩ := Program.accepted_renamed ha hd hy hfresh
  refine ⟨⟨Program.mem_occurrences hd, (Program.scan_renamed ha hd hy).2⟩, ha', fun hb => ?_⟩
  have hm : Abreast ⟨True, False⟩ m m := abreast_after rfl hn _ clock runs
  have hold : run s fuel source {} m = old := rfl
  have hnew : run s fuel (Program.renamed source d y) {} m = new := rfl
  obtain ⟨hend, hmachine⟩ := hm.run (s := s) rfl hn ha ha' halike
  rw [hold, hnew] at hend hmachine
  exact ⟨hmachine.printed, hmachine.globalTexts, hend.same trivial (.inr hb)⟩

/-- A parameter that a closure assigns to, next to a global of the same name. -/
theorem renamed_runs_alike_of_parameter :
    let s : Setting := { path := "", natives := [Native.clock] }
    ∃ source d, (Program.renamed source d "z" =
        "var x = 1; fun f(z) \x7b fun g() \x7b z = z + 1; \x7d g(); print z; \x7d f(2); print x;" ∧
      (run s 30 source {} (after s [] [])).machine.printed = "3\n1\n") ∧
      (Program.compile (Program.renamed source d "z")).Accepted ∧
      (run s 30 (Program.renamed source d "z") {} (after s [] [])).machine.printed =
        (run s 30 source {} (after s [] [])).machine.printed ∧
      (run s 30 (Program.renamed source d "z") {} (after s [] [])).machine.globalTexts =
        (run s 30 source {} (after s [] [])).machine.globalTexts ∧
      (run s 30 source {} (after s [] [])).ending.Same
        (run s 30 (Program.renamed source d "z") {} (after s [] [])).ending := by
  intro s
  have alike : ∀ {source : String} {d : Token}, (Program.compile source).Accepted →
      d ∈ (Program.compile source).locals → (∀ t ∈ (scan source).tokens, t.lexeme ≠ "z") →
      (run s 30 source {} (after s [] [])).ending = .finished → _ :=
    fun {source d} ha hd hfresh he =>
      have h := renamed_runs_alike "" [Native.clock] honest_clock [] [] 30 ha hd
        (show Piece.isName "z".toList = true by decide) hfresh
      And.intro h.2.1 (h.2.2 fun b hb => by cases he.symm.trans hb)
  exact ⟨"var x = 1; fun f(x) \x7b fun g() \x7b x = x + 1; \x7d g(); print x; \x7d f(2); print x;",
    ⟨.identifier, "x", 1, 17⟩, by decide +kernel, alike (by decide +kernel) (by decide +kernel)
      (by decide +kernel) (by decide +kernel)⟩

end Session

end Lox
