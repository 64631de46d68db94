import Lox.Preferences.Scalar
import Lox.Text

/-!
# Entries of a preference file

A preference file has one `key: value` pair a line, with comments and empty lines in between. Keys
and values are plain, or between single or double quotes. A file may hold several documents; only
the first one counts.
-/

namespace Lox.Preferences

/-! ## Quotes -/

/-- The text up to the closing single quote, and what follows it; a quote is written twice. -/
def singleQuoted : List Char → List Char × List Char
  | [] => ([], [])
  | '\x27' :: '\x27' :: cs =>
    let (text, rest) := singleQuoted cs
    ('\x27' :: text, rest)
  | '\x27' :: cs => ([], cs)
  | c :: cs =>
    let (text, rest) := singleQuoted cs
    (c :: text, rest)

/-- The character that a backslash and a letter stand for. -/
def escaped? : Char → Option Nat
  | '0' => some 0x00
  | 'a' => some 0x07
  | 'b' => some 0x08
  | 't' => some 0x09
  | 'n' => some 0x0A
  | 'v' => some 0x0B
  | 'f' => some 0x0C
  | 'r' => some 0x0D
  | 'e' => some 0x1B
  | 'N' => some 0x85
  | '_' => some 0xA0
  | 'L' => some 0x2028
  | 'P' => some 0x2029
  | _ => none

/-- The text up to the closing double quote, with its escapes, and what follows it. A character that
stands for nothing else stands for itself. -/
def doubleQuoted : List Char → List Char × List Char
  | [] => ([], [])
  | '"' :: cs => ([], cs)
  | '\\' :: 'x' :: a :: b :: cs =>
    let (text, rest) := doubleQuoted cs
    (Char.ofNat (ofDigits 16 [a, b]) :: text, rest)
  | '\\' :: 'u' :: a :: b :: c :: d :: cs =>
    let (text, rest) := doubleQuoted cs
    (Char.ofNat (ofDigits 16 [a, b, c, d]) :: text, rest)
  | '\\' :: c :: cs =>
    let (text, rest) := doubleQuoted cs
    (((escaped? c).map Char.ofNat).getD c :: text, rest)
  | c :: cs =>
    let (text, rest) := doubleQuoted cs
    (c :: text, rest)

/-! ## Values -/

def isGap (c : Char) : Bool := c = ' ' || c = '\t'

def trimGaps (cs : List Char) : List Char :=
  ((cs.dropWhile isGap).reverse.dropWhile isGap).reverse

/-- A plain value without the comment after it. -/
def beforeComment : List Char → List Char
  | [] => []
  | c :: cs => if isGap c && cs.head? = some '#' then [] else c :: beforeComment cs

/-- The value that stands after the colon. -/
def readScalar (cs : List Char) : Scalar :=
  match cs.dropWhile isGap with
  | '"' :: rest => .quoted (String.ofList (doubleQuoted rest).1)
  | '\x27' :: rest => .quoted (String.ofList (singleQuoted rest).1)
  | '#' :: _ => .plain ""
  | rest => .plain (String.ofList (trimGaps (beforeComment rest)))

/-! ## Pairs -/

/-- A pair, with the number of its line. -/
structure Entry where
  line : Nat
  key : Scalar
  value : Scalar
deriving DecidableEq, Repr

/-- Cuts at the first colon that ends a key: one before a blank or at the end. -/
def cutKey : List Char → Option (List Char × List Char)
  | [] => none
  | [':'] => some ([], [])
  | c :: d :: cs =>
    if c = ':' && isGap d then some ([], d :: cs)
    else (cutKey (d :: cs)).map fun (key, value) => (c :: key, value)
  | [_] => none

/-- The key of a line and the text after its colon. -/
def readKey (content : List Char) : Option (Scalar × List Char) :=
  match content with
  | '"' :: cs =>
    let (key, rest) := doubleQuoted cs
    (cutKey rest).map fun (_, value) => (.quoted (String.ofList key), value)
  | '\x27' :: cs =>
    let (key, rest) := singleQuoted cs
    (cutKey rest).map fun (_, value) => (.quoted (String.ofList key), value)
  | content =>
    (cutKey content).map fun (key, value) => (.plain (String.ofList (trimGaps key)), value)

/-- The pair on a line; none on a line that is empty or a comment. -/
def readLine (number : Nat) (line : List Char) : Option Entry :=
  match trimGaps line with
  | [] | '#' :: _ => none
  | content => (readKey content).map fun (key, value) => ⟨number, key, readScalar value⟩

/-! ## Documents -/

/-- Whether a line is a mark of three characters, with nothing but a gap after it. -/
def isMark (mark : Char) (line : List Char) : Bool :=
  line.take 3 = [mark, mark, mark] && ((line.drop 3).head?).all isGap

/-- The mark before a document. -/
def isStart (line : List Char) : Bool := isMark '-' line

/-- The mark after a document. -/
def isStop (line : List Char) : Bool := isMark '.' line

/-- Whether a line belongs to no document: it is empty or a comment. -/
def isIdle (line : List Char) : Bool := (trimGaps line).head?.all (· = '#')

/-- The lines of the first document, with their numbers. -/
def firstDocument (lines : List (List Char × Nat)) : List (List Char × Nat) :=
  let body :=
    match lines.dropWhile (isIdle ·.1) with
    | first :: rest => if isStart first.1 then rest else first :: rest
    | [] => []
  body.takeWhile fun (line, _) => !(isStart line || isStop line)

/-- The text without a byte order mark in front. -/
def withoutMark : List Char → List Char
  | '\ufeff' :: cs => cs
  | cs => cs

/-- The pairs of a file. -/
def entries (source : String) : List Entry :=
  (firstDocument ((Text.lines (withoutMark source.toList)).zipIdx 1)).filterMap
    fun (line, number) => readLine number line

end Lox.Preferences
