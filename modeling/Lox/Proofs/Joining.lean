import Mathlib.Data.Fintype.EquivFin
import Lox.Proofs.Activation
import Lox.Proofs.Cutting
import Lox.Proofs.Rebinding
import Lox.Proofs.Spelling

/-!
# Sources one after the other

Two sources without a fault, put together with a line break between them, are a source without a
fault: its pieces, tokens and statements are those of the first and then those of the second, which
stand further down (`scan_join`, `Program.compile_join`). Binding at the top level carries nothing
over from one to the next, so the bound statements are those of the first source, and then
statements that are those of the second but for their lines (`Program.accepted_join`).
-/

namespace Lox

/-! ## Pieces -/

namespace Piece

/-- A line break ends whatever the end of a source ends, but for a string. -/
theorem resembles_break (rest ds : List Char) : Resembles rest (rest ++ '\n' :: ds) where
  head := by
    cases rest with
    | nil => exact .inr (.inl ⟨rfl, rfl⟩)
    | cons c cs => exact .inl rfl
  fraction d more he hd := by
    rcases rest with - | ⟨c, - | ⟨c', cs⟩⟩
    · cases he
    · cases he
      exact absurd hd (by decide)
    · cases he
      exact ⟨_, _, rfl, hd⟩

theorem cut_join (cs ds : List Char) (ho : ∀ piece ∈ cut cs, ∀ text, piece ≠ openString text) :
    cut (cs ++ '\n' :: ds) = cut cs ++ blank '\n' :: cut ds := by
  fun_induction cut cs with
  | case1 =>
    rw [List.nil_append, List.nil_append, cut]
    rfl
  | case2 c cs ih =>
    have hsame := next_resembling c cs (ho _ List.mem_cons_self)
      (resembles_break (next c cs).2 ds)
    rw [← List.append_assoc, tail_next_append] at hsame
    rw [List.cons_append, cut, hsame, ih fun piece hp => ho piece (List.mem_cons_of_mem _ hp)]
    rfl

theorem takeWhile_join (cs ds : List Char) :
    (cs ++ '\n' :: ds).takeWhile (· != '\n') = cs.takeWhile (· != '\n') ∧
      (cs ++ '\n' :: ds).dropWhile (· != '\n') = cs.dropWhile (· != '\n') ++ '\n' :: ds := by
  induction cs with
  | nil => exact ⟨rfl, rfl⟩
  | cons c cs ih =>
    by_cases hc : c = '\n'
    · simp [hc]
    · simp [hc, ih]

/-- Whether a text begins with the two characters of a shebang line. -/
def hasShebang (cs : List Char) : Bool := ['#', '!'].isPrefixOf cs

theorem pieces_of_not_hasShebang {cs : List Char} (h : hasShebang cs = false) :
    pieces cs = cut cs := by
  unfold pieces
  split
  · cases h
  · rfl

theorem eq_of_hasShebang {cs : List Char} (h : hasShebang cs = true) :
    ∃ more, cs = '#' :: '!' :: more := by
  obtain ⟨more, he⟩ := List.isPrefixOf_iff_prefix.1 h
  exact ⟨more, he.symm⟩

theorem hasShebang_join (cs ds : List Char) : hasShebang (cs ++ '\n' :: ds) = hasShebang cs := by
  rcases cs with - | ⟨c, - | ⟨c', cs⟩⟩
  · rfl
  · simp [hasShebang, List.isPrefixOf]
  · rfl

/-- The pieces of two sources with a line break between them. -/
theorem pieces_join {cs ds : List Char} (ho : ∀ piece ∈ pieces cs, ∀ text, piece ≠ openString text)
    (hd : hasShebang ds = false) :
    pieces (cs ++ '\n' :: ds) = pieces cs ++ blank '\n' :: pieces ds := by
  rw [pieces_of_not_hasShebang hd]
  cases hc : hasShebang cs with
  | false =>
    have hj : hasShebang (cs ++ '\n' :: ds) = false := by rw [hasShebang_join, hc]
    rw [pieces_of_not_hasShebang hc] at ho ⊢
    rw [pieces_of_not_hasShebang hj, cut_join cs ds ho]
  | true =>
    obtain ⟨more, rfl⟩ := eq_of_hasShebang hc
    have hp : pieces ('#' :: '!' :: more) =
        shebang (('#' :: '!' :: more).takeWhile (· != '\n')) ::
          cut (('#' :: '!' :: more).dropWhile (· != '\n')) := rfl
    have hj : pieces ('#' :: '!' :: more ++ '\n' :: ds) =
        shebang (('#' :: '!' :: more ++ '\n' :: ds).takeWhile (· != '\n')) ::
          cut (('#' :: '!' :: more ++ '\n' :: ds).dropWhile (· != '\n')) := rfl
    rw [hp] at ho ⊢
    rw [hj, (takeWhile_join ..).1, (takeWhile_join ..).2,
      cut_join _ _ fun piece hm => ho piece (List.mem_cons_of_mem _ hm)]
    rfl

/-! ## Tokens -/

theorem placed_append : ∀ (ps qs : List Piece) (p : Position),
    placed p (ps ++ qs) = placed p ps ++ placed (p.advance (ps.flatMap text)) qs
  | [], qs, p => by
    change placed p qs = placed ⟨p.line + 0, p.offset + 0⟩ qs
    rfl
  | piece :: ps, qs, p => by
    have hadvance : (p.advance piece.text).advance (ps.flatMap text) =
        p.advance ((piece :: ps).flatMap text) := by
      simp only [Position.advance, List.flatMap_cons, List.count_append, List.length_append,
        Nat.add_assoc]
    change (p, piece) :: placed (p.advance piece.text) (ps ++ qs) = _
    rw [placed_append ps qs, hadvance]
    rfl

/-- The tokens among the pieces, from a position on. -/
def tokens (p : Position) (ps : List Piece) : List Token :=
  (placed p ps).filterMap fun (q, piece) => piece.token? q

theorem tokens_cons (p : Position) (piece : Piece) (ps : List Piece) :
    tokens p (piece :: ps) = (piece.token? p).toList ++ tokens (p.advance piece.text) ps := by
  change List.filterMap _ ((p, piece) :: placed (p.advance piece.text) ps) = _
  rw [List.filterMap_cons]
  simp only
  cases piece.token? p <;> rfl

theorem tokens_append (p : Position) (ps qs : List Piece) :
    tokens p (ps ++ qs) = tokens p ps ++ tokens (p.advance (ps.flatMap text)) qs := by
  unfold tokens
  rw [placed_append, List.filterMap_append]

/-- Scanning finds a fault in each piece that has one. -/
theorem diagnostics_eq_nil_iff : ∀ (ps : List Piece) (p : Position),
    ((placed p ps).filterMap fun (q, piece) => piece.diagnostic? q) = [] ↔
      ∀ piece ∈ ps, piece.fault? = none
  | [], _ => by simp [placed]
  | piece :: ps, p => by
    have ih := diagnostics_eq_nil_iff ps (p.advance piece.text)
    change (List.filterMap _ ((p, piece) :: placed (p.advance piece.text) ps)) = [] ↔ _
    rw [List.filterMap_cons, List.forall_mem_cons, ← ih]
    cases hf : piece.fault? with
    | none => simp [diagnostic?, hf]
    | some cause => simp [diagnostic?, hf]

end Piece

/-- The token further down. -/
def Token.shift (lines chars : Nat) (t : Token) : Token :=
  { t with line := t.line + lines, offset := t.offset + chars }

/-- Pieces that begin further down. -/
theorem Piece.tokens_shift (lines chars : Nat) : ∀ (ps : List Piece) (p : Position),
    tokens ⟨p.line + lines, p.offset + chars⟩ ps = (tokens p ps).map (Token.shift lines chars)
  | [], _ => rfl
  | piece :: ps, p => by
    have hadvance : Position.advance ⟨p.line + lines, p.offset + chars⟩ piece.text =
        ⟨(p.advance piece.text).line + lines, (p.advance piece.text).offset + chars⟩ := by
      simp only [Position.advance, Position.mk.injEq]
      omega
    have htoken : piece.token? ⟨p.line + lines, p.offset + chars⟩ =
        (piece.token? p).map (Token.shift lines chars) := by
      cases piece with
      | token kind text =>
        simp only [token?, Position.advance, Option.map_some, Token.shift, Option.some.injEq,
          Token.mk.injEq, true_and, and_true]
        omega
      | _ => rfl
    rw [tokens_cons, tokens_cons, hadvance, tokens_shift lines chars ps, htoken, List.map_append]
    cases piece.token? p <;> rfl

/-- How far down a source stands that follows another one and a line break. -/
def Token.below (a : String) : Token → Token :=
  Token.shift (a.toList.count '\n' + 1) (a.toList.length + 1)

theorem scan_tokens (source : String) :
    (scan source).tokens = Piece.tokens .start (Piece.pieces source.toList) := rfl

theorem scan_diagnostics {source : String} :
    (scan source).diagnostics = [] ↔ ∀ piece ∈ Piece.pieces source.toList, piece.fault? = none :=
  Piece.diagnostics_eq_nil_iff ..

/-- The tokens of two sources with a line break between them. -/
theorem scan_join {a b : String} (ha : (scan a).diagnostics = []) (hb : (scan b).diagnostics = [])
    (hs : Piece.hasShebang b.toList = false) :
    (scan (a ++ "\n" ++ b)).diagnostics = [] ∧
      (scan (a ++ "\n" ++ b)).tokens = (scan a).tokens ++ (scan b).tokens.map (Token.below a) := by
  rw [scan_diagnostics] at ha hb
  have hopen : ∀ piece ∈ Piece.pieces a.toList, ∀ text, piece ≠ .openString text := by
    rintro piece hp text rfl
    cases ha _ hp
  have htext : (a ++ "\n" ++ b).toList = a.toList ++ '\n' :: b.toList := by simp
  have hpieces : Piece.pieces (a ++ "\n" ++ b).toList =
      Piece.pieces a.toList ++ .blank '\n' :: Piece.pieces b.toList := by
    rw [htext, Piece.pieces_join hopen hs]
  constructor
  · rw [scan_diagnostics, hpieces]
    intro piece hp
    rcases List.mem_append.1 hp with hp | hp
    · exact ha piece hp
    · rcases List.mem_cons.1 hp with rfl | hp
      · rfl
      · exact hb piece hp
  · rw [scan_tokens, scan_tokens, scan_tokens, hpieces, Piece.tokens_append, Piece.text_pieces, Piece.tokens_cons]
    have hadvance : ((Position.start.advance a.toList).advance ['\n']) =
        ⟨Position.start.line + (a.toList.count '\n' + 1),
          Position.start.offset + (a.toList.length + 1)⟩ := rfl
    change _ ++ ([] ++ Piece.tokens ((Position.start.advance a.toList).advance ['\n']) _) = _
    rw [hadvance, Piece.tokens_shift]
    rfl

/-! ## Statements -/

theorem Token.faithful_below (a : String) : Grammar.Faithful (Token.below a) := ⟨fun _ => rfl, fun _ => rfl⟩

/-- A source without a fault reads as its statements. -/
theorem Program.reads {source : String} (h : (Program.compile source).diagnostics = []) :
    Grammar.Reads (.declarations (Program.compile source).statements) (scan source).tokens [] :=
  Grammar.reads_of_parse (List.append_eq_nil_iff.1 h).2

/-- A source that reads as some statements compiles to them. -/
theorem Program.compile_of_reads {source : String} {stmts : List Stmt}
    (hs : (scan source).diagnostics = [])
    (h : Grammar.Reads (.declarations stmts) (scan source).tokens []) :
    (Program.compile source).diagnostics = [] ∧ (Program.compile source).statements = stmts := by
  have hp : Grammar.parse (scan source).tokens (scan source).eof = ⟨stmts, []⟩ :=
    Grammar.parse_eq_iff.2 h
  simp only [Program.compile, hs, hp, List.append_nil, and_self]

/-- The statements of two sources with a line break between them. -/
theorem Program.compile_join {a b : String} (ha : (Program.compile a).diagnostics = [])
    (hb : (Program.compile b).diagnostics = []) (hs : Piece.hasShebang b.toList = false) :
    (Program.compile (a ++ "\n" ++ b)).diagnostics = [] ∧
      (Program.compile (a ++ "\n" ++ b)).statements =
        (Program.compile a).statements ++
          Stmt.relabelAll (Token.below a) (Program.compile b).statements := by
  obtain ⟨hd, ht⟩ := scan_join (List.append_eq_nil_iff.1 ha).1 (List.append_eq_nil_iff.1 hb).1 hs
  refine Program.compile_of_reads hd ?_
  rw [ht]
  exact (Program.reads ha).declarations_append
    ((Program.reads hb).relabel (Token.faithful_below a))

/-! ## Binding -/

theorem Stmt.bindAll_append : ∀ ss ss' : List Stmt,
    Stmt.bindAll [] (ss ++ ss') = Stmt.bindAll [] ss ++ Stmt.bindAll [] ss'
  | [], _ => rfl
  | s :: ss, ss' => by
    simp only [List.cons_append, Stmt.bindAll, Stmt.declare_global, Stmt.bindAll_append ss ss']

theorem Stmt.violationsAll_append (f : FunctionContext) (c : ClassContext) : ∀ ss ss' : List Stmt,
    Stmt.violationsAll f c [] (ss ++ ss') =
      Stmt.violationsAll f c [] ss ++ Stmt.violationsAll f c [] ss'
  | [], _ => rfl
  | s :: ss, ss' => by
    simp only [List.cons_append, Stmt.violationsAll, Stmt.declare_global,
      Stmt.violationsAll_append f c ss ss', List.append_assoc]

/-- A relabelling that keeps every name makes statements that are alike. -/
theorem Stmt.alikeAll_relabelAll {K : Likeness} {φ : Token → Token}
    (hlevel : ∀ t : Token, t.Level K (φ t)) (hname : ∀ t, (φ t).lexeme = t.lexeme)
    {ss : List Stmt} (hf : Stmt.FormedAll ss)
    (hv : Stmt.violationsAll .outside .outside [] ss = []) :
    Stmt.AlikeAll K [] (Stmt.bindAll [] ss) (Stmt.bindAll [] (Stmt.relabelAll φ ss)) ∧
      Stmt.violationsAll .outside .outside [] (Stmt.relabelAll φ ss) = [] := by
  -- a variable that is nowhere, renamed to itself
  obtain ⟨y, hy⟩ := Infinite.exists_notMem_finset
    ("this" :: "super" :: (Stmt.nameTokensAll ss).map Token.lexeme).toFinset
  simp only [List.mem_toFinset, List.mem_cons, not_or] at hy
  obtain ⟨hthis, hsuper, hnames⟩ := hy
  have hword : ¬ Heap.isWord y := by
    rintro (he | he)
    · exact hthis he
    · exact hsuper he
  have H : Retitles K φ ⟨.eof, y, 0, 0⟩ y :=
    ⟨hlevel, by rw [Equiv.swap_self]; exact Renaming.fair_refl K, hword, hword⟩
  refine Stmt.rebindAll H (Scopes.ready_nil y) ss hf hv (fun ho => by cases ho)
    fun p hp => ⟨?_, ?_⟩
  · rintro rfl
    refine hnames (List.mem_map.2 ⟨p.1, ?_, rfl⟩)
    rw [← Stmt.map_namesAll_bindAll _ [] none ss]
    exact List.mem_map_of_mem hp
  · rw [hname, renamedTo, Equiv.swap_self]
    exact (ite_self _).symm

/-- The statements of an accepted source are alike to themselves. -/
theorem Program.alikeAll_bound (K : Likeness) {source : String}
    (ha : (Program.compile source).Accepted) :
    Stmt.AlikeAll K [] (Program.compile source).bound (Program.compile source).bound := by
  have hid : Stmt.relabelAll id (Program.compile source).statements =
      (Program.compile source).statements := by
    have hr := (Program.reads ha.diagnostics).relabel (φ := id) ⟨fun _ => rfl, fun _ => rfl⟩
    rw [List.map_id] at hr
    exact (Program.compile_of_reads (List.append_eq_nil_iff.1 ha.diagnostics).1 hr).2.symm
  have h := (Stmt.alikeAll_relabelAll (K := K) (φ := id) (fun _ _ => rfl) (fun _ => rfl)
    (Program.formed ha.diagnostics) ha.violations).1
  rwa [hid] at h

/-- **Accepted sources, put together, are an accepted source.** Its bound statements are those of the
first, and then the ones of the second but for their lines. -/
theorem Program.accepted_join {K : Likeness} (hK : ¬ K.lines) {a b : String}
    (ha : (Program.compile a).Accepted) (hb : (Program.compile b).Accepted)
    (hs : Piece.hasShebang b.toList = false) :
    (Program.compile (a ++ "\n" ++ b)).Accepted ∧ ∃ ts,
      (Program.compile (a ++ "\n" ++ b)).bound = (Program.compile a).bound ++ ts ∧
        Stmt.AlikeAll K [] (Program.compile b).bound ts := by
  obtain ⟨hd, hstmts⟩ := Program.compile_join ha.diagnostics hb.diagnostics hs
  obtain ⟨halike, hv⟩ := Stmt.alikeAll_relabelAll (K := K) (φ := Token.below a)
    (fun _ hl => absurd hl hK) (fun _ => rfl) (Program.formed hb.diagnostics) hb.violations
  refine ⟨⟨hd, ?_⟩, _, ?_, halike⟩
  · rw [Program.violations, hstmts, Stmt.violationsAll_append, hv, List.append_nil]
    exact ha.violations
  · rw [Program.bound, hstmts, Stmt.bindAll_append]
    rfl

end Lox
