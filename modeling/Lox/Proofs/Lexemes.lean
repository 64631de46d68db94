import Lox.Proofs.Respelling

/-!
# Lexemes

The text of a token has a form that says what token it is (`Piece.Lexeme`), and a text of such a form
is cut as that token wherever a blank or the end of the source follows it
(`Piece.Lexeme.cut_append`). So the texts of the tokens of a source, written with spaces between
them, are scanned as the same tokens again, whatever else stood in the source.

Main statement: `rescan_stable`.
-/

namespace Lox

/-- What a token says wherever it stands: its kind, its text and its literal. -/
def Token.content (t : Token) : TokenKind × String × Option Constant :=
  (t.kind, t.lexeme, t.literal?)

namespace Piece

/-- The texts that tokens of a kind can have. -/
inductive Lexeme : TokenKind → List Char → Prop
  | single {c kind} (h : single? c = some kind) : Lexeme kind [c]
  | plain {c plain extended} (h : extensible? c = some (plain, extended)) : Lexeme plain [c]
  | extended {c plain extended} (h : extensible? c = some (plain, extended)) :
      Lexeme extended [c, '=']
  | slash : Lexeme .slash ['/']
  | string {body} (h : '"' ∉ body) : Lexeme .string ('"' :: body ++ ['"'])
  | whole {d ds} (hd : d.isDigit = true) (hds : ∀ a ∈ ds, a.isDigit = true) :
      Lexeme .number (d :: ds)
  | fraction {d ds f fs} (hd : d.isDigit = true) (hds : ∀ a ∈ ds, a.isDigit = true)
      (hf : f.isDigit = true) (hfs : ∀ a ∈ fs, a.isDigit = true) :
      Lexeme .number (d :: ds ++ '.' :: f :: fs)
  | word {c cs} (hc : isWordStart c = true) (hcs : ∀ a ∈ cs, isWordPart a = true) :
      Lexeme (.ofWord (c :: cs)) (c :: cs)

/-! ## Tokens have lexemes -/

theorem lexeme_number (d : Char) (cs : List Char) (hd : d.isDigit = true) :
    Lexeme .number (d :: (numberRest cs).1) := by
  have hdigits : ∀ (cs : List Char), ∀ a ∈ cs.takeWhile Char.isDigit, a.isDigit = true :=
    fun cs a ha => List.mem_takeWhile_imp ha
  unfold numberRest
  split
  · rename_i f more _
    split
    · rename_i hf
      simp only
      rw [List.takeWhile_cons_of_pos hf]
      exact .fraction hd (hdigits cs) hf (hdigits more)
    · exact .whole hd (hdigits cs)
  · exact .whole hd (hdigits cs)

/-- The first piece of a text, if it is a token, has a lexeme of its kind. -/
theorem lexeme_next {c : Char} {cs text : List Char} {kind : TokenKind}
    (h : (next c cs).1 = token kind text) : Lexeme kind text := by
  cases hs : single? c with
  | some kind' =>
    simp only [next, hs, token.injEq] at h
    obtain ⟨rfl, rfl⟩ := h
    exact .single hs
  | none =>
  cases he : extensible? c with
  | some kinds =>
    obtain ⟨plain, extended⟩ := kinds
    simp only [next, hs, he] at h
    split at h
    · cases h
      exact .extended he
    · cases h
      exact .plain he
  | none =>
  by_cases hslash : c = '/'
  · subst hslash
    by_cases hhead : cs.head? = some '/'
    · obtain ⟨more, rfl⟩ := List.head?_eq_some_iff.1 hhead
      rw [next_comment] at h
      cases h
    · rw [next_slash hhead] at h
      cases h
      exact .slash
  rw [next_of_not_mark hs he hslash] at h
  split at h
  · cases h
  split at h
  · unfold stringPiece at h
    split at h
    · rename_i quote rest hd
      have hquote := stops_dropWhile (· != '"') cs quote (by rw [hd]; rfl)
      simp only [token.injEq] at h
      obtain ⟨rfl, rfl⟩ := h
      have hq : quote = '"' := by simpa using hquote
      rw [hq]
      exact .string fun hm => by simpa using List.mem_takeWhile_imp hm
    · cases h
  split at h
  · rename_i hdigit
    simp only [token.injEq] at h
    obtain ⟨rfl, rfl⟩ := h
    exact lexeme_number c cs hdigit
  split at h
  · rename_i hword
    simp only [token.injEq] at h
    obtain ⟨rfl, rfl⟩ := h
    exact .word hword fun a ha => List.mem_takeWhile_imp ha
  · cases h

theorem lexeme_of_mem_cut (cs : List Char) {kind : TokenKind} {text : List Char}
    (h : token kind text ∈ cut cs) : Lexeme kind text := by
  fun_induction cut cs with
  | case1 => cases h
  | case2 c cs ih =>
    rcases List.mem_cons.1 h with h | h
    · exact lexeme_next h.symm
    · exact ih h

theorem lexeme_of_mem_pieces {source : List Char} {kind : TokenKind} {text : List Char}
    (h : token kind text ∈ pieces source) : Lexeme kind text := by
  unfold pieces at h
  split at h
  · rcases List.mem_cons.1 h with h | h
    · cases h
    · exact lexeme_of_mem_cut _ h
  · exact lexeme_of_mem_cut _ h

/-! ## Lexemes are tokens -/

section
variable {c : Char} (hc : c.isDigit = true)
include hc

theorem next_digit (cs : List Char) :
    next c cs = (token .number (c :: (numberRest cs).1), (numberRest cs).2) := by
  have hne : ∀ a : Char, a.isDigit = false → c ≠ a := by
    rintro a ha rfl
    rw [ha] at hc
    cases hc
  have hs : single? c = none := by
    unfold single?
    split <;> first | rfl | exact absurd hc (by decide)
  have he : extensible? c = none := by
    unfold extensible?
    split <;> first | rfl | exact absurd hc (by decide)
  have hb : isBlank c = false := by
    simp only [isBlank, Bool.or_eq_false_iff, decide_eq_false_iff_not]
    exact ⟨⟨⟨hne ' ' rfl, hne '\r' rfl⟩, hne '\t' rfl⟩, hne '\n' rfl⟩
  rw [next_of_not_mark hs he (hne '/' rfl), hb, if_neg (hne '"' rfl), if_pos hc]
  rfl

end

theorem single?_of_extensible {c : Char} {kinds : TokenKind × TokenKind}
    (h : extensible? c = some kinds) : single? c = none := by
  unfold extensible? at h
  split at h <;> first | rfl | cases h

theorem stringPiece_closed {body rest : List Char} (hb : '"' ∉ body) :
    stringPiece (body ++ '"' :: rest) = (token .string ('"' :: body ++ ['"']), rest) := by
  have hall : body.takeWhile (· != '"') = body :=
    List.takeWhile_eq_self_iff.2 fun a ha => by
      rw [bne_iff_ne]
      rintro rfl
      exact hb ha
  have hquote : ∀ a ∈ ('"' :: rest).head?, (a != '"') = false := by
    intro a ha
    cases ha
    rfl
  have htake := takeWhile_append_of_stops body hquote
  have hdrop := dropWhile_append_of_stops body hquote
  rw [hall] at htake hdrop
  unfold stringPiece
  rw [htake, hdrop]

/-- What may go on after a token is no blank. -/
theorem eq_false_of_isBlank {p : Char → Bool} (hs : p ' ' = false) (hr : p '\r' = false)
    (ht : p '\t' = false) (hn : p '\n' = false) {a : Char} (h : isBlank a = true) :
    p a = false := by
  simp only [isBlank, Bool.or_eq_true, decide_eq_true_eq] at h
  rcases h with ((rfl | rfl) | rfl) | rfl <;> assumption

section
variable {rest : List Char} (hr : ∀ a ∈ rest.head?, isBlank a = true)
include hr

theorem not_isDigit_after : ∀ a ∈ rest.head?, a.isDigit = false :=
  fun a ha => eq_false_of_isBlank rfl rfl rfl rfl (hr a ha)

theorem head?_ne_after {a : Char} (h : isBlank a = false) : rest.head? ≠ some a := by
  intro he
  rw [hr a he] at h
  cases h

theorem numberRest_whole {ds : List Char} (hds : ∀ a ∈ ds, a.isDigit = true) :
    numberRest (ds ++ rest) = (ds, rest) := by
  have hall : ds.takeWhile Char.isDigit = ds := List.takeWhile_eq_self_iff.2 hds
  have hpoint : ∀ d more, rest = '.' :: d :: more → d.isDigit = false := by
    rintro d more rfl
    exact absurd (hr '.' rfl) (by decide)
  have hrest : numberRest (ds.takeWhile Char.isDigit ++ rest) = (ds.takeWhile Char.isDigit, rest) :=
    numberRest_of_stops (not_isDigit_after hr) hpoint
  rwa [hall] at hrest

theorem numberRest_fraction {ds : List Char} {f : Char} {fs : List Char}
    (hds : ∀ a ∈ ds, a.isDigit = true) (hf : f.isDigit = true)
    (hfs : ∀ a ∈ fs, a.isDigit = true) :
    numberRest (ds ++ '.' :: f :: fs ++ rest) = (ds ++ '.' :: f :: fs, rest) := by
  have hwhole : ds.takeWhile Char.isDigit = ds := List.takeWhile_eq_self_iff.2 hds
  have hpart : (f :: fs).takeWhile Char.isDigit = f :: fs :=
    List.takeWhile_eq_self_iff.2 (List.forall_mem_cons.2 ⟨hf, hfs⟩)
  have hpoint : ∀ a ∈ ('.' :: (f :: fs ++ rest)).head?, a.isDigit = false := by
    intro a ha
    cases ha
    rfl
  have htake := takeWhile_append_of_stops ds hpoint
  have hdrop := dropWhile_append_of_stops ds hpoint
  have htake' := takeWhile_append_of_stops (f :: fs) (not_isDigit_after hr)
  have hdrop' := dropWhile_append_of_stops (f :: fs) (not_isDigit_after hr)
  rw [hwhole] at htake hdrop
  rw [hpart] at htake' hdrop'
  simp only [List.cons_append] at htake hdrop htake' hdrop'
  simp only [List.append_assoc, List.cons_append]
  unfold numberRest
  rw [htake, hdrop]
  simp only [hf, if_true]
  rw [htake', hdrop']

/-- **A lexeme is cut as its token** before a blank and at the end of the source. -/
theorem Lexeme.cut_append {kind : TokenKind} {text : List Char} (h : Lexeme kind text) :
    cut (text ++ rest) = token kind text :: cut rest := by
  cases h with
  | @single c _ h =>
    change cut (c :: rest) = _
    rw [cut]
    simp only [next, h]
  | @plain c _ _ h =>
    change cut (c :: rest) = _
    rw [cut, next_plain (single?_of_extensible h) h (head?_ne_after hr rfl)]
  | @extended c _ _ h =>
    change cut (c :: '=' :: rest) = _
    rw [cut]
    simp only [next, single?_of_extensible h, h]
  | slash =>
    change cut ('/' :: rest) = _
    rw [cut, next_slash (head?_ne_after hr rfl)]
  | @string body h =>
    have hq : next '"' (body ++ '"' :: rest) = stringPiece (body ++ '"' :: rest) := rfl
    rw [List.append_assoc, List.singleton_append, List.cons_append, cut, hq,
      stringPiece_closed h]
  | @whole d ds hd hds =>
    rw [List.cons_append, cut, next_digit hd, numberRest_whole hr hds]
  | @fraction d ds f fs hd hds hf hfs =>
    have hrest := numberRest_fraction hr hds hf hfs
    simp only [List.cons_append] at hrest ⊢
    rw [cut, next_digit hd, hrest]
  | @word c cs hc hcs =>
    have hall : cs.takeWhile isWordPart = cs := List.takeWhile_eq_self_iff.2 hcs
    have hstop : ∀ a ∈ rest.head?, isWordPart a = false :=
      fun a ha => eq_false_of_isBlank rfl rfl rfl rfl (hr a ha)
    have htake := takeWhile_append_of_stops cs hstop
    have hdrop := dropWhile_append_of_stops cs hstop
    rw [hall] at htake hdrop
    rw [List.cons_append, cut, next_word hc, htake, hdrop]

end

/-! ## What pieces say -/

/-- What the piece says, if it is a token. -/
def content? : Piece → Option (TokenKind × String × Option Constant)
  | token kind text => some (Token.mk kind (String.ofList text) 0 0).content
  | _ => none

theorem content_token? (p : Position) (piece : Piece) :
    (piece.token? p).map Token.content = piece.content? := by
  cases piece <;> rfl

theorem map_content_tokens (ps : List Piece) (p : Position) :
    (tokens p ps).map Token.content = ps.filterMap content? := by
  induction ps generalizing p with
  | nil => rfl
  | cons piece ps ih =>
    rw [tokens_cons, List.map_append, ih, List.filterMap_cons, ← content_token? p piece]
    cases piece.token? p <;> rfl

/-- The text is cut without a fault, and its tokens say what `ts` say. -/
structure Says (ts : List Token) (cs : List Char) : Prop where
  sound : ∀ piece ∈ cut cs, piece.fault? = none
  content : (cut cs).filterMap content? = ts.map Token.content

theorem content?_of_token (t : Token) :
    (token t.kind t.lexeme.toList).content? = some t.content := by
  simp only [content?, String.ofList_toList, Token.content, Token.literal?, Token.constant?]

theorem Says.nil : Says [] [] where
  sound := by simp [cut]
  content := by simp [cut]

/-- One more piece in front of a text. -/
theorem Says.of_cut {ts ts' : List Token} {cs cs' : List Char} {piece : Piece} (h : Says ts cs)
    (hcut : cut cs' = piece :: cut cs) (hf : piece.fault? = none)
    (hts : ts'.map Token.content = piece.content?.toList ++ ts.map Token.content) :
    Says ts' cs' where
  sound := by
    rw [hcut]
    exact List.forall_mem_cons.2 ⟨hf, h.sound⟩
  content := by
    rw [hcut, List.filterMap_cons, h.content, hts]
    cases piece.content? <;> rfl

/-- A lexeme in front of a text. -/
theorem Says.cons {t : Token} {ts : List Token} {cs : List Char} (h : Says ts cs)
    (ht : Lexeme t.kind t.lexeme.toList) (hcs : ∀ a ∈ cs.head?, isBlank a = true) :
    Says (t :: ts) (t.lexeme.toList ++ cs) :=
  h.of_cut (ht.cut_append hcs) rfl (by rw [content?_of_token]; rfl)

/-- A space in front of a text. -/
theorem Says.space {ts : List Token} {cs : List Char} (h : Says ts cs) : Says ts (' ' :: cs) := by
  have hcut : cut (' ' :: cs) = blank ' ' :: cut cs := by rw [cut]; rfl
  exact h.of_cut hcut rfl rfl

/-- A minus in front of a text. -/
theorem Says.minus {ts : List Token} {cs : List Char} (h : Says ts cs) :
    Says (⟨.minus, "-", 0, 0⟩ :: ts) ('-' :: cs) := by
  have hcut : cut ('-' :: cs) = token .minus ['-'] :: cut cs := by rw [cut]; rfl
  exact h.of_cut hcut rfl rfl

/-- A shebang line begins with a character that is a fault anywhere else. -/
theorem Says.pieces_eq {ts : List Token} {cs : List Char} (h : Says ts cs) :
    pieces cs = cut cs := by
  refine pieces_of_not_hasShebang ?_
  by_contra hb
  obtain ⟨more, rfl⟩ := eq_of_hasShebang (by simpa using hb)
  have hsharp : stray '#' ∈ cut ('#' :: '!' :: more) := by
    rw [cut]
    exact List.mem_cons_self
  cases h.sound _ hsharp

/-- A lexeme alone says its token. -/
theorem says_lexeme {t : Token} (ht : Lexeme t.kind t.lexeme.toList) :
    Says [t] t.lexeme.toList := by
  have h := Says.nil.cons ht (by simp)
  rwa [List.append_nil] at h

/-- Lexemes with spaces between them say their tokens. -/
theorem says_intercalate : ∀ {ts : List Token}, (∀ t ∈ ts, Lexeme t.kind t.lexeme.toList) →
    Says ts ([' '].intercalate (ts.map fun t => t.lexeme.toList))
  | [], _ => .nil
  | [t], h => by
    rw [List.map_singleton, List.intercalate_singleton]
    exact says_lexeme (h t List.mem_cons_self)
  | t :: u :: ts, h => by
    have hmore := says_intercalate fun t' ht' => h t' (List.mem_cons_of_mem _ ht')
    have ht := hmore.space.cons (h t List.mem_cons_self) (by simp [isBlank])
    simpa only [List.map_cons, List.intercalate_cons_cons, List.append_assoc,
      List.singleton_append] using ht

end Piece

/-- A token of a source has a lexeme of its kind. -/
theorem lexeme_of_mem_scan {source : String} {t : Token} (h : t ∈ (scan source).tokens) :
    Piece.Lexeme t.kind t.lexeme.toList := by
  obtain ⟨⟨p, piece⟩, hm, he⟩ := List.mem_filterMap.1 h
  have hp := Piece.mem_of_mem_placed hm
  cases piece with
  | token kind text =>
    cases he
    simpa using Piece.lexeme_of_mem_pieces hp
  | _ => cases he

/-- The scan of a text that says `ts`. -/
theorem Piece.Says.scanned {ts : List Token} {source : String} (h : Says ts source.toList) :
    (scan source).diagnostics = [] ∧
      (scan source).all.map Token.content = ts.map Token.content ++ [(.eof, "", none)] := by
  refine ⟨scan_diagnostics.2 (h.pieces_eq ▸ h.sound), ?_⟩
  rw [Scan.all, List.map_append, scan_tokens, Piece.map_content_tokens, h.pieces_eq, h.content]
  rfl

/-! ## Reserved words -/

theorem TokenKind.of_mem_keywords {word : String} {kind : TokenKind} (h : (word, kind) ∈ keywords) :
    kind.isKeyword = true ∧ kind = .ofWord word.toList ∧
      ∃ c cs, word.toList = c :: cs ∧ Piece.isWordStart c = true := by
  simp only [keywords, List.mem_cons, Prod.mk.injEq, List.not_mem_nil, or_false] at h
  rcases h with h | h | h | h | h | h | h | h | h | h | h | h | h | h | h | h <;>
    obtain ⟨rfl, rfl⟩ := h <;> exact ⟨rfl, rfl, _, _, rfl, rfl⟩

/-- Only words are keywords. -/
theorem Piece.Lexeme.eq_ofWord_of_isKeyword {kind : TokenKind} {text : List Char}
    (h : Lexeme kind text) (hk : kind.isKeyword = true) : kind = .ofWord text := by
  have hsingle : ∀ {c kind}, single? c = some kind → kind.isKeyword = false := by
    intro c kind h
    unfold single? at h
    split at h <;> cases h <;> rfl
  have hextensible : ∀ {c plain extended}, extensible? c = some (plain, extended) →
      plain.isKeyword = false ∧ extended.isKeyword = false := by
    intro c plain extended h
    unfold extensible? at h
    split at h <;> cases h <;> exact ⟨rfl, rfl⟩
  cases h with
  | single h => rw [hsingle h] at hk; cases hk
  | plain h => rw [(hextensible h).1] at hk; cases hk
  | extended h => rw [(hextensible h).2] at hk; cases hk
  | slash | string | whole | fraction => cases hk
  | word => rfl

/-- What begins with a letter is a word. -/
theorem Piece.Lexeme.eq_ofWord_of_isWordStart {kind : TokenKind} {c : Char} {cs : List Char}
    (h : Lexeme kind (c :: cs)) (hc : isWordStart c = true) : kind = .ofWord (c :: cs) := by
  -- the lexeme is cut as its token, and a text with this first character as a word
  have hend : ∀ a ∈ ([] : List Char).head?, isBlank a = true := by simp
  have hcut := h.cut_append hend
  rw [List.append_nil, cut, cut, next_word hc] at hcut
  have htoken := (List.cons.inj hcut).1
  injection htoken with hk ht
  rw [← hk, ht]

theorem Piece.Lexeme.mem_keywords_iff {text : String} {kind word : TokenKind}
    (h : Lexeme kind text.toList) :
    (text, word) ∈ TokenKind.keywords ↔ kind = word ∧ word.isKeyword = true := by
  constructor
  · intro hm
    obtain ⟨hk, hw, c, cs, hcs, hc⟩ := TokenKind.of_mem_keywords hm
    rw [hcs] at h hw
    exact ⟨(h.eq_ofWord_of_isWordStart hc).trans hw.symm, hk⟩
  · rintro ⟨rfl, hk⟩
    have hne : kind ≠ .identifier := by
      rintro rfl
      cases hk
    simpa using TokenKind.mem_keywords hne (h.eq_ofWord_of_isKeyword hk)

/-! ## Spellings -/

/-- The text of the tokens of a kind, if they have only one. -/
def TokenKind.spelling? : TokenKind → Option String
  | leftParen => some "("
  | rightParen => some ")"
  | leftBrace => some "\x7b"
  | rightBrace => some "\x7d"
  | comma => some ","
  | dot => some "."
  | minus => some "-"
  | plus => some "+"
  | semicolon => some ";"
  | slash => some "/"
  | star => some "*"
  | bang => some "!"
  | bangEqual => some "!="
  | equal => some "="
  | equalEqual => some "=="
  | greater => some ">"
  | greaterEqual => some ">="
  | less => some "<"
  | lessEqual => some "<="
  | kind => (keywords.find? (·.2 = kind)).map (·.1)

namespace Piece

theorem spelling?_of_single? {c : Char} {kind : TokenKind} (h : single? c = some kind) :
    kind.spelling? = some (String.ofList [c]) := by
  unfold single? at h
  split at h <;> cases h <;> rfl

theorem spelling?_of_extensible? {c : Char} {plain extended : TokenKind}
    (h : extensible? c = some (plain, extended)) :
    plain.spelling? = some (String.ofList [c]) ∧
      extended.spelling? = some (String.ofList [c, '=']) := by
  unfold extensible? at h
  split at h <;> cases h <;> exact ⟨rfl, rfl⟩

theorem spelling?_ofWord (w : List Char) :
    TokenKind.ofWord w = .identifier ∨
      (TokenKind.ofWord w).spelling? = some (String.ofList w) := by
  by_cases hk : TokenKind.ofWord w = .identifier
  · exact .inl hk
  · have hall : ∀ p ∈ TokenKind.keywords, p.2.spelling? = some p.1 := by decide
    exact .inr (hall _ (TokenKind.mem_keywords hk rfl))

/-- A token of a kind with one spelling is spelled so. -/
theorem Lexeme.eq_spelling {kind : TokenKind} {text : List Char} (h : Lexeme kind text) {w : String}
    (hw : kind.spelling? = some w) : String.ofList text = w := by
  cases h with
  | single h => exact Option.some.inj ((spelling?_of_single? h).symm.trans hw)
  | plain h => exact Option.some.inj ((spelling?_of_extensible? h).1.symm.trans hw)
  | extended h => exact Option.some.inj ((spelling?_of_extensible? h).2.symm.trans hw)
  | slash => cases hw; rfl
  | string | whole | fraction => cases hw
  | @word c cs =>
    rcases spelling?_ofWord (c :: cs) with hk | hs
    · rw [hk] at hw
      cases hw
    · exact Option.some.inj (hs.symm.trans hw)

theorem Lexeme.isName {text : List Char} (h : Lexeme .identifier text) : isName text = true := by
  generalize hk : TokenKind.identifier = kind at h
  cases h with
  | single h => exact absurd (spelling?_of_single? h) (by rw [← hk]; exact nofun)
  | plain h => exact absurd (spelling?_of_extensible? h).1 (by rw [← hk]; exact nofun)
  | extended h => exact absurd (spelling?_of_extensible? h).2 (by rw [← hk]; exact nofun)
  | slash | string | whole | fraction => cases hk
  | word hc hcs => simp [Piece.isName, hc, ← hk, List.all_eq_true.2 hcs]

/-- A number is digits, or digits, a point and digits. -/
theorem Lexeme.digits {text : List Char} (h : Lexeme .number text) :
    ∃ d ds, d.isDigit = true ∧ (∀ a ∈ ds, a.isDigit = true) ∧
      (text = d :: ds ∨
        ∃ fs, (∀ a ∈ fs, a.isDigit = true) ∧ text = d :: ds ++ '.' :: fs) := by
  generalize hk : TokenKind.number = kind at h
  cases h with
  | single h => exact absurd (spelling?_of_single? h) (by rw [← hk]; exact nofun)
  | plain h => exact absurd (spelling?_of_extensible? h).1 (by rw [← hk]; exact nofun)
  | extended h => exact absurd (spelling?_of_extensible? h).2 (by rw [← hk]; exact nofun)
  | slash | string => cases hk
  | whole hd hds => exact ⟨_, _, hd, hds, .inl rfl⟩
  | fraction hd hds hf hfs =>
    exact ⟨_, _, hd, hds, .inr ⟨_, List.forall_mem_cons.2 ⟨hf, hfs⟩, rfl⟩⟩
  | @word c cs =>
    rcases spelling?_ofWord (c :: cs) with hi | hs
    · rw [hi] at hk
      cases hk
    · rw [← hk] at hs
      cases hs

end Piece

/-! ## Scanning again -/

/-- **Scanning again changes nothing.** The texts of a source's tokens, with spaces between them, are
scanned without a fault as tokens that say the same, in their order, before the end. Each of them
alone is scanned as its own token; and it is a keyword just if it is a reserved word. -/
theorem rescan_stable (source : String) :
    let tokens := (scan source).tokens
    let again := scan (" ".intercalate (tokens.map (·.lexeme)))
    (again.diagnostics = [] ∧
      again.all.map Token.content = tokens.map Token.content ++ [(.eof, "", none)]) ∧
    ∀ t ∈ tokens,
      let alone := scan t.lexeme
      (alone.diagnostics = [] ∧ alone.all.map Token.content = [t.content, (.eof, "", none)]) ∧
      ∀ word, (t.lexeme, word) ∈ TokenKind.keywords ↔ t.kind = word ∧ word.isKeyword = true := by
  intro tokens again
  have hlexeme : ∀ t ∈ tokens, Piece.Lexeme t.kind t.lexeme.toList :=
    fun t ht => lexeme_of_mem_scan ht
  constructor
  · refine Piece.Says.scanned ?_
    rw [String.toList_intercalate, List.map_map]
    exact Piece.says_intercalate hlexeme
  · intro t ht
    have ht := hlexeme t ht
    exact ⟨(Piece.says_lexeme ht).scanned, fun word => ht.mem_keywords_iff⟩

end Lox
