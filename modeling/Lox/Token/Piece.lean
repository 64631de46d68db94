import Lox.Token

/-!
# Pieces of source text

A source is cut into pieces: tokens, and the stretches that are no token. Nothing is dropped, so the
texts of the pieces put together are the source (`Piece.text_pieces`).
-/

namespace Lox

/-- A stretch of source text and what it is. -/
inductive Piece where
  | token (kind : TokenKind) (text : List Char)
  | blank (c : Char)
  | comment (text : List Char)
  /-- A first line that begins with `#!`, without its line break. -/
  | shebang (text : List Char)
  /-- A character that begins no token. -/
  | stray (c : Char)
  /-- A string that runs to the end of the source without its closing quote. -/
  | openString (text : List Char)
deriving DecidableEq, Repr

namespace Piece

def text : Piece → List Char
  | token _ cs | comment cs | shebang cs | openString cs => cs
  | blank c | stray c => [c]

/-! ## The first piece -/

/-- Blanks are the four characters that may stand between tokens. -/
def isBlank (c : Char) : Bool := c = ' ' || c = '\r' || c = '\t' || c = '\n'

def isWordStart (c : Char) : Bool := c.isAlpha || c = '_'

def isWordPart (c : Char) : Bool := c.isAlphanum || c = '_'

/-- The tokens of one character. -/
def single? : Char → Option TokenKind
  | '(' => some .leftParen
  | ')' => some .rightParen
  | '\x7b' => some .leftBrace
  | '\x7d' => some .rightBrace
  | ',' => some .comma
  | '.' => some .dot
  | '-' => some .minus
  | '+' => some .plus
  | ';' => some .semicolon
  | '*' => some .star
  | _ => none

/-- The characters that an equals sign may extend: the kind without it and the kind with it. -/
def extensible? : Char → Option (TokenKind × TokenKind)
  | '!' => some (.bang, .bangEqual)
  | '=' => some (.equal, .equalEqual)
  | '<' => some (.less, .lessEqual)
  | '>' => some (.greater, .greaterEqual)
  | _ => none

/-- The rest of a number after its first digit, and what follows it: digits, and a fraction if a
digit follows the point. -/
def numberRest (cs : List Char) : List Char × List Char :=
  let whole := cs.takeWhile Char.isDigit
  match cs.dropWhile Char.isDigit with
  | '.' :: d :: more =>
    if d.isDigit then
      (whole ++ '.' :: (d :: more).takeWhile Char.isDigit, (d :: more).dropWhile Char.isDigit)
    else (whole, '.' :: d :: more)
  | rest => (whole, rest)

/-- The piece that begins with a quote, and what follows it: the string ends at the next quote. -/
def stringPiece (cs : List Char) : Piece × List Char :=
  let body := cs.takeWhile (· != '"')
  match cs.dropWhile (· != '"') with
  | quote :: rest => (token .string ('"' :: body ++ [quote]), rest)
  | [] => (openString ('"' :: body), [])

/-- The piece that begins with `c`, and the source after it. -/
def next (c : Char) (cs : List Char) : Piece × List Char :=
  if let some kind := single? c then (token kind [c], cs)
  else if let some (plain, extended) := extensible? c then
    match cs with
    | '=' :: rest => (token extended [c, '='], rest)
    | _ => (token plain [c], cs)
  else if c = '/' then
    match cs with
    | '/' :: _ => (comment (c :: cs.takeWhile (· != '\n')), cs.dropWhile (· != '\n'))
    | _ => (token .slash [c], cs)
  else if isBlank c then (blank c, cs)
  else if c = '"' then stringPiece cs
  else if c.isDigit then
    (token .number (c :: (numberRest cs).1), (numberRest cs).2)
  else if isWordStart c then
    let word := c :: cs.takeWhile isWordPart
    (token (.ofWord word) word, cs.dropWhile isWordPart)
  else (stray c, cs)

theorem numberRest_append (cs : List Char) : (numberRest cs).1 ++ (numberRest cs).2 = cs := by
  have whole := List.takeWhile_append_dropWhile (p := Char.isDigit) (l := cs)
  unfold numberRest
  split
  · rename_i d more h
    split
    · simp only [List.append_assoc, List.cons_append, List.takeWhile_append_dropWhile, ← h, whole]
    · rw [← h, whole]
  · exact whole

theorem stringPiece_append (cs : List Char) :
    (stringPiece cs).1.text ++ (stringPiece cs).2 = '"' :: cs := by
  have whole := List.takeWhile_append_dropWhile (p := (· != '"')) (l := cs)
  unfold stringPiece
  split <;> simp_all [text]

/-- The first piece and the rest are the source. -/
theorem next_append (c : Char) (cs : List Char) :
    (next c cs).1.text ++ (next c cs).2 = c :: cs := by
  unfold next
  split
  · simp [text]
  split
  · split <;> simp [text]
  split
  · split <;> simp [text, List.takeWhile_append_dropWhile]
  split
  · simp [text]
  split
  · simp_all [stringPiece_append]
  split
  · simp [text, numberRest_append]
  split
  · simp [text, List.takeWhile_append_dropWhile]
  · simp [text]

/-- A piece has at least its first character. -/
theorem text_next_ne_nil (c : Char) (cs : List Char) : (next c cs).1.text ≠ [] := by
  unfold next stringPiece
  repeat' split
  all_goals simp [text]

theorem length_next_le (c : Char) (cs : List Char) : (next c cs).2.length ≤ cs.length := by
  have sum := congrArg List.length (next_append c cs)
  have pos := List.length_pos_iff.2 (text_next_ne_nil c cs)
  simp only [List.length_append, List.length_cons] at sum
  omega

/-! ## The whole source -/

/-- Cuts a text into its pieces. -/
def cut : List Char → List Piece
  | [] => []
  | c :: cs => (next c cs).1 :: cut (next c cs).2
termination_by cs => cs.length
decreasing_by exact Nat.lt_succ_of_le (length_next_le c cs)

/-- The pieces of a source; only at its very start can there be a shebang line. -/
def pieces (source : List Char) : List Piece :=
  match source with
  | '#' :: '!' :: _ =>
    shebang (source.takeWhile (· != '\n')) :: cut (source.dropWhile (· != '\n'))
  | _ => cut source

theorem text_cut (cs : List Char) : (cut cs).flatMap text = cs := by
  fun_induction cut cs with
  | case1 => rfl
  | case2 c cs ih => rw [List.flatMap_cons, ih, next_append]

/-- **The pieces tile the source.** -/
theorem text_pieces (source : List Char) : (pieces source).flatMap text = source := by
  unfold pieces
  split
  · rw [List.flatMap_cons, text_cut]
    exact List.takeWhile_append_dropWhile
  · exact text_cut source

end Piece

end Lox
