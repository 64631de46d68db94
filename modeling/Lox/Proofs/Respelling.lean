import Lox.Proofs.Joining

/-!
# Sources with other names in them

If some identifiers of a source are replaced by another identifier, the new text is cut into the
pieces that one expects: the replaced ones, and the others as they were (`Piece.pieces_respelled`).
So its tokens are those of the source, with the new name in the places that were marked
(`Piece.tokens_respell`).
-/

namespace Lox

namespace Piece

/-! ## Words -/

/-- Whether a text is a word that can name something. -/
def isName : List Char → Bool
  | [] => false
  | c :: cs => isWordStart c && cs.all isWordPart && TokenKind.ofWord (c :: cs) == .identifier

section
variable {c : Char} (hc : isWordStart c = true)
include hc

theorem single?_of_isWordStart : single? c = none := by
  unfold single?
  split <;> first | rfl | exact absurd hc (by decide)

theorem extensible?_of_isWordStart : extensible? c = none := by
  unfold extensible?
  split <;> first | rfl | exact absurd hc (by decide)

theorem not_isBlank_of_isWordStart : isBlank c = false := by
  by_contra hb
  simp only [isBlank, Bool.not_eq_false, Bool.or_eq_true, decide_eq_true_eq] at hb
  rcases hb with ((rfl | rfl) | rfl) | rfl <;> exact absurd hc (by decide)

/-- What begins with a letter is a word. -/
theorem next_word (cs : List Char) :
    next c cs = (token (.ofWord (c :: cs.takeWhile isWordPart)) (c :: cs.takeWhile isWordPart),
      cs.dropWhile isWordPart) := by
  have hne : ∀ a : Char, isWordStart a = false → c ≠ a := by
    rintro a ha rfl
    rw [ha] at hc
    cases hc
  rw [next_of_not_mark (single?_of_isWordStart hc) (extensible?_of_isWordStart hc)
    (hne '/' (by decide)), not_isBlank_of_isWordStart hc, not_isDigit_of_isWordStart hc, hc,
    if_neg (hne '"' (by decide))]
  simp only [Bool.false_eq_true, if_false, if_true]

end

/-- An identifier begins with a letter, and is all the word. -/
theorem word_of_next {c : Char} {cs text : List Char} (h : (next c cs).1 = token .identifier text) :
    isWordStart c = true ∧ text = c :: cs.takeWhile isWordPart := by
  have hc : isWordStart c = true := by
    by_contra hc
    unfold next at h
    split at h
    · rename_i kind hk
      cases h
      unfold single? at hk
      split at hk <;> cases hk
    split at h
    · rename_i plain extended hk
      unfold extensible? at hk
      split at h <;> cases h <;> split at hk <;> cases hk
    split at h
    · split at h <;> cases h
    split at h
    · cases h
    split at h
    · unfold stringPiece at h
      split at h <;> cases h
    split at h <;> cases h
  rw [next_word hc] at h
  injection h with _ ht
  exact ⟨hc, ht.symm⟩

/-! ## Pieces -/

/-- A piece stays as it is, or is an identifier and becomes the name `y`. -/
inductive Respelled (y : List Char) : Piece → Piece → Prop
  | same {piece} : Respelled y piece piece
  | name {text} : Respelled y (token .identifier text) (token .identifier y)

section
variable {y : List Char} (hy : isName y = true)
include hy

theorem isName_parts : ∃ c cs, y = c :: cs ∧ isWordStart c = true ∧
    (∀ a ∈ cs, isWordPart a = true) ∧ TokenKind.ofWord y = .identifier := by
  cases y with
  | nil => cases hy
  | cons c cs =>
    simp only [isName, Bool.and_eq_true, List.all_eq_true, beq_iff_eq] at hy
    exact ⟨c, cs, rfl, hy.1.1, hy.1.2, hy.2⟩

/-- A name is cut as one piece where no word runs on. -/
theorem cut_name {rest : List Char} (hs : ∀ c ∈ rest.head?, isWordPart c = false) :
    cut (y ++ rest) = token .identifier y :: cut rest := by
  obtain ⟨c, cs, rfl, hc, hcs, hk⟩ := isName_parts hy
  have hall : cs.takeWhile isWordPart = cs := List.takeWhile_eq_self_iff.2 hcs
  have htake := takeWhile_append_of_stops cs hs
  have hdrop := dropWhile_append_of_stops cs hs
  rw [hall] at htake hdrop
  rw [List.cons_append, cut, next_word hc, htake, hdrop, hk]

variable {cs : List Char} {qs : List Piece} (h : List.Forall₂ (Respelled y) (cut cs) qs)
include h

/-- The new text begins like the old one, or both begin with a letter. -/
theorem head_respelled : (qs.flatMap text).head? = cs.head? ∨
    ∃ c c', cs.head? = some c ∧ (qs.flatMap text).head? = some c' ∧ isWordStart c = true ∧
      isWordStart c' = true := by
  cases cs with
  | nil =>
    rw [cut] at h
    cases h
    exact .inl rfl
  | cons c cs =>
    rw [cut] at h
    cases h with
    | @cons _ q _ qs hq _ =>
      generalize hp : (next c cs).1 = piece at hq
      cases hq with
      | same =>
        have happ := next_append c cs
        rw [hp] at happ
        have hne : q.text ≠ [] := hp ▸ text_next_ne_nil c cs
        have hhead := congrArg List.head? happ
        rw [List.head?_append_of_ne_nil _ hne] at hhead
        rw [List.flatMap_cons, List.head?_append_of_ne_nil _ hne]
        exact .inl hhead
      | name =>
        obtain ⟨c', cs', rfl, hc', -, -⟩ := isName_parts hy
        exact .inr ⟨c, c', rfl, rfl, (word_of_next hp).1, hc'⟩

/-- So nothing runs on into the new text that stops before the old one. -/
theorem resembles_respelled : Resembles cs (qs.flatMap text) where
  head := (head_respelled hy h).imp_right .inr
  fraction d more he hd := by
    -- the point is a piece of its own, which stays, and the digit after it is no letter
    have hpoint : cs.head? = some '.' := by
      rcases head_respelled hy h with hh | ⟨c, c', -, hh, -, hc'⟩
      · rw [← hh, he]
        rfl
      · rw [he] at hh
        cases hh
        exact absurd hc' (by decide)
    obtain ⟨cs, rfl⟩ := List.head?_eq_some_iff.1 hpoint
    have hcut : cut ('.' :: cs) = token .dot ['.'] :: cut cs := by
      rw [cut]
      rfl
    rw [hcut] at h
    cases h with
    | @cons _ q _ qs hq hqs =>
      cases hq with
      | same =>
        have hmore : qs.flatMap text = d :: more := (List.cons.inj he).2
        rcases head_respelled hy hqs with hh | ⟨c, c', -, hh, -, hc'⟩
        · rw [hmore] at hh
          obtain ⟨more', rfl⟩ := List.head?_eq_some_iff.1 hh.symm
          exact ⟨d, more', rfl, hd⟩
        · rw [hmore] at hh
          cases hh
          rw [not_isDigit_of_isWordStart hc'] at hd
          cases hd

end

/-- The new text is cut into the new pieces. -/
theorem cut_respelled {y : List Char} (hy : isName y = true) (cs : List Char) :
    ∀ {qs : List Piece}, (∀ piece ∈ cut cs, ∀ text, piece ≠ openString text) →
      List.Forall₂ (Respelled y) (cut cs) qs → cut (qs.flatMap text) = qs := by
  fun_induction cut cs with
  | case1 =>
    intro qs _ h
    cases h
    rw [List.flatMap_nil, cut]
  | case2 c cs ih =>
    intro qs ho h
    cases h with
    | @cons _ q _ qs hq hqs =>
      have hrest := ih (fun piece hp => ho piece (List.mem_cons_of_mem _ hp)) hqs
      have hres := resembles_respelled hy hqs
      have hopen := ho _ List.mem_cons_self
      generalize hp : (next c cs).1 = piece at hq
      rw [List.flatMap_cons]
      cases hq with
      | same =>
        have hsame := next_resembling c cs hopen hres
        obtain ⟨c', text', ht⟩ := List.exists_cons_of_ne_nil (text_next_ne_nil c cs)
        have happ := next_append c cs
        rw [ht] at happ hsame
        cases (List.cons.inj happ).1
        rw [hp] at ht hsame
        rw [ht, List.cons_append, cut]
        rw [List.tail_cons] at hsame
        rw [hsame, hrest]
      | name =>
        obtain ⟨hc, -⟩ := word_of_next hp
        have hstops : ∀ a ∈ (next c cs).2.head?, isWordPart a = false := by
          rw [next_word hc]
          exact stops_dropWhile isWordPart cs
        have hcut := cut_name hy (hres.stops_word hstops)
        rw [hrest] at hcut
        exact hcut

/-- **The new source has the new pieces.** -/
theorem pieces_respelled {y : List Char} (hy : isName y = true) {cs : List Char} {qs : List Piece}
    (hf : ∀ piece ∈ pieces cs, piece.fault? = none)
    (h : List.Forall₂ (Respelled y) (pieces cs) qs) : pieces (qs.flatMap text) = qs := by
  have hopen : ∀ piece ∈ pieces cs, ∀ text, piece ≠ openString text := by
    rintro piece hp text rfl
    cases hf _ hp
  cases hs : hasShebang cs with
  | false =>
    rw [pieces_of_not_hasShebang hs] at hf h hopen
    have hs' : hasShebang (qs.flatMap text) = false := by
      by_contra hs'
      obtain ⟨more, he⟩ := eq_of_hasShebang (Bool.not_eq_false _ ▸ hs')
      -- a source that is not faulty does not begin with a stray character
      rcases head_respelled hy h with hh | ⟨c, c', -, hh, -, hc'⟩
      · rw [he] at hh
        obtain ⟨rest, rfl⟩ := List.head?_eq_some_iff.1 hh.symm
        have hcut : cut ('#' :: rest) = stray '#' :: cut rest := by
          rw [cut]
          rfl
        rw [hcut] at hf
        cases hf _ List.mem_cons_self
      · rw [he] at hh
        cases hh
        exact absurd hc' (by decide)
    rw [pieces_of_not_hasShebang hs', cut_respelled hy cs hopen h]
  | true =>
    obtain ⟨more, rfl⟩ := eq_of_hasShebang hs
    have hp : pieces ('#' :: '!' :: more) = shebang ('#' :: '!' :: more.takeWhile (· != '\n')) ::
        cut (more.dropWhile (· != '\n')) := rfl
    rw [hp] at h hopen
    cases h with
    | @cons _ q _ qs hq hqs =>
      cases hq with
      | same =>
        have hstops : ∀ c ∈ (qs.flatMap text).head?, (c != '\n') = false := by
          intro c hc
          have hn := (resembles_respelled hy hqs).stops_line
            (fun c hc => by simpa using stops_dropWhile _ more c hc) c hc
          simpa using hn
        have hcut := cut_respelled hy _ (fun piece hm => hopen piece (List.mem_cons_of_mem _ hm)) hqs
        change shebang ('#' :: '!' :: (more.takeWhile (· != '\n') ++ qs.flatMap text).takeWhile
          (· != '\n')) :: cut ((more.takeWhile (· != '\n') ++ qs.flatMap text).dropWhile
          (· != '\n')) = _
        rw [takeWhile_append_of_stops _ hstops, dropWhile_append_of_stops _ hstops, hcut]

theorem fault?_respelled {y : List Char} {ps qs : List Piece}
    (h : List.Forall₂ (Respelled y) ps qs) (hf : ∀ piece ∈ ps, piece.fault? = none) :
    ∀ piece ∈ qs, piece.fault? = none := by
  induction h with
  | nil => exact hf
  | cons hq _ ih =>
    obtain ⟨hp, hps⟩ := List.forall_mem_cons.1 hf
    refine List.forall_mem_cons.2 ⟨?_, ih hps⟩
    cases hq with
    | same => exact hp
    | name => rfl

/-- What every piece of a source is: no piece is empty, and no identifier has a line break in it. -/
def Proper (piece : Piece) : Prop :=
  piece.text ≠ [] ∧ ∀ text, piece = token .identifier text → '\n' ∉ text

theorem proper_cut (cs : List Char) : ∀ piece ∈ cut cs, piece.Proper := by
  fun_induction cut cs with
  | case1 => exact fun piece hp => by cases hp
  | case2 c cs ih =>
    intro piece hp
    rcases List.mem_cons.1 hp with rfl | hp
    · refine ⟨text_next_ne_nil c cs, fun text ht hb => ?_⟩
      obtain ⟨hc, rfl⟩ := word_of_next ht
      rcases List.mem_cons.1 hb with rfl | hb
      · exact absurd hc (by decide)
      · exact absurd (List.mem_takeWhile_imp hb) (by decide)
    · exact ih piece hp

theorem proper_pieces (cs : List Char) : ∀ piece ∈ pieces cs, piece.Proper := by
  cases hs : hasShebang cs with
  | false =>
    rw [pieces_of_not_hasShebang hs]
    exact proper_cut cs
  | true =>
    obtain ⟨more, rfl⟩ := eq_of_hasShebang hs
    intro piece hp
    rcases List.mem_cons.1 hp with rfl | hp
    · exact ⟨List.cons_ne_nil _ _, fun text ht => by cases ht⟩
    · exact proper_cut _ piece hp

/-! ## Tokens -/

/-- The tokens of a source come in the order of their places. -/
theorem tokens_sorted : ∀ (ps : List Piece) (p : Position), (∀ piece ∈ ps, piece.text ≠ []) →
    (∀ t ∈ tokens p ps, p.offset ≤ t.offset) ∧
      (tokens p ps).Pairwise fun t t' => t.offset < t'.offset
  | [], _, _ => by simp [tokens, placed]
  | piece :: ps, p, hne => by
    obtain ⟨hle, hps⟩ := tokens_sorted ps (p.advance piece.text)
      fun q hq => hne q (List.mem_cons_of_mem _ hq)
    have hpos : p.offset < (p.advance piece.text).offset :=
      Nat.lt_add_of_pos_right (List.length_pos_iff.2 (hne piece List.mem_cons_self))
    rw [tokens_cons]
    cases piece with
    | token kind text =>
      refine ⟨fun t ht => ?_, List.pairwise_cons.2 ⟨fun t ht => hpos.trans_le (hle t ht), hps⟩⟩
      rcases List.mem_cons.1 ht with rfl | ht
      · exact Nat.le_refl _
      · exact hpos.le.trans (hle t ht)
    | _ => exact ⟨fun t ht => hpos.le.trans (hle t ht), hps⟩

/-- The piece at a position, which becomes the name `y` if it is one of the marked tokens. -/
def respell (marked : List Token) (y : List Char) (p : Position) (piece : Piece) : Piece :=
  match piece.token? p with
  | some t => if t ∈ marked then token t.kind y else piece
  | none => piece

/-- The pieces from a position on, with the name `y` in the place of the marked tokens. -/
def respellAll (marked : List Token) (y : List Char) (p : Position) (ps : List Piece) :
    List Piece :=
  (placed p ps).map fun (q, piece) => piece.respell marked y q

theorem respelled_respellAll {marked : List Token} (hm : ∀ t ∈ marked, t.kind = .identifier)
    (y : List Char) : ∀ (ps : List Piece) (p : Position),
    List.Forall₂ (Respelled y) ps (respellAll marked y p ps)
  | [], _ => .nil
  | piece :: ps, p => by
    refine .cons ?_ (respelled_respellAll hm y ps (p.advance piece.text))
    change Respelled y piece (piece.respell marked y p)
    cases piece with
    | token kind text =>
      unfold respell
      simp only [token?]
      split
      · rename_i ht
        have hk : kind = .identifier := hm _ ht
        rw [hk]
        exact .name
      · exact .same
    | _ => exact .same

end Piece

/-- A token with the name `y` if it is marked, and as it was if not, on the same line. -/
structure Token.Respelled (marked : List Token) (y : String) (t t' : Token) : Prop where
  kind : t'.kind = t.kind
  line : t'.line = t.line
  lexeme : t'.lexeme = if t ∈ marked then y else t.lexeme

theorem Piece.not_mem_of_isName {y : List Char} (hy : isName y = true) : '\n' ∉ y := by
  obtain ⟨c, cs, rfl, hc, hcs, -⟩ := isName_parts hy
  intro hb
  rcases List.mem_cons.1 hb with rfl | hb
  · exact absurd hc (by decide)
  · exact absurd (hcs _ hb) (by decide)

theorem Piece.not_isWord_of_isName {y : String} (hy : isName y.toList = true) :
    ¬ Heap.isWord y := by
  obtain ⟨c, cs, -, -, -, hk⟩ := isName_parts hy
  rintro (rfl | rfl) <;> exact absurd hk (by decide)

/-- **The new source has the new tokens**, on the same lines. -/
theorem Piece.tokens_respellAll {marked : List Token} (hm : ∀ t ∈ marked, t.kind = .identifier)
    {y : String} (hy : isName y.toList = true) : ∀ (ps : List Piece) {p p' : Position},
    (∀ piece ∈ ps, piece.Proper) → p'.line = p.line →
    List.Forall₂ (Token.Respelled marked y) (tokens p ps)
      (tokens p' (respellAll marked y.toList p ps))
  | [], _, _, _, _ => .nil
  | piece :: ps, p, p', hp, hl => by
    have hrest : ∀ {q' : Position}, q'.line = (p.advance piece.text).line →
        List.Forall₂ (Token.Respelled marked y) (tokens (p.advance piece.text) ps)
          (tokens q' (respellAll marked y.toList (p.advance piece.text) ps)) :=
      tokens_respellAll hm hy ps fun q hq => hp q (List.mem_cons_of_mem _ hq)
    have hcons : respellAll marked y.toList p (piece :: ps) = piece.respell marked y.toList p ::
        respellAll marked y.toList (p.advance piece.text) ps := rfl
    rw [hcons, tokens_cons, tokens_cons]
    have hsame : (p'.advance piece.text).line = (p.advance piece.text).line := by
      simp only [Position.advance, hl]
    cases piece with
    | token kind text =>
      by_cases ht : (⟨kind, String.ofList text, (p.advance text).line, p.offset⟩ : Token) ∈ marked
      · have hk : kind = .identifier := hm _ ht
        have htext : text.count '\n' = 0 :=
          List.count_eq_zero.2 ((hp _ List.mem_cons_self).2 text (by rw [hk]))
        have hname : y.toList.count '\n' = 0 := List.count_eq_zero.2 (not_mem_of_isName hy)
        have hline : (p'.advance y.toList).line = (p.advance text).line := by
          simp only [Position.advance, hl, htext, hname]
        have hre : respell marked y.toList p (token kind text) = token kind y.toList := by
          simp only [respell, token?, if_pos ht]
        rw [hre]
        refine .cons ⟨rfl, ?_, ?_⟩ (hrest hline)
        · exact congrArg Int.ofNat hline
        · rw [if_pos ht]
          exact String.ofList_toList
      · have hre : respell marked y.toList p (token kind text) = token kind text := by
          simp only [respell, token?, if_neg ht]
        rw [hre]
        refine .cons ⟨rfl, congrArg Int.ofNat hsame, ?_⟩ (hrest hsame)
        rw [if_neg ht]
    | _ => exact hrest hsame

end Lox
