import Lox.Text
import Lox.Text.Word

/-!
# Spans of a listing

For display a text is cut into spans by a list of rules; at each place the first rule that applies
decides. Every text is covered, right or wrong, so nothing is lost on display (`Span.text_spans`).
-/

namespace Lox

inductive SpanClass where
  | blank
  | comment
  | string
  | number
  | constant
  | pseudo
  | keyword
  | name
  | operator
  | punctuation
  | error
deriving DecidableEq, Repr

def SpanClass.label : SpanClass → String
  | blank => "Text"
  | comment => "CommentSingle"
  | string => "LiteralString"
  | number => "LiteralNumber"
  | constant => "KeywordConstant"
  | pseudo => "NameBuiltinPseudo"
  | keyword => "Keyword"
  | name => "Name"
  | operator => "Operator"
  | punctuation => "Punctuation"
  | error => "Error"

/-- A stretch of text and how it is displayed. -/
structure Span where
  cls : SpanClass
  text : List Char
deriving DecidableEq, Repr

namespace Span

/-! ## The rules -/

/-- The words with a class of their own. -/
def reserved : List (String × SpanClass) :=
  [("true", .constant), ("false", .constant), ("nil", .constant), ("this", .pseudo),
    ("super", .pseudo), ("and", .keyword), ("class", .keyword), ("else", .keyword),
    ("for", .keyword), ("fun", .keyword), ("if", .keyword), ("or", .keyword), ("print", .keyword),
    ("return", .keyword), ("var", .keyword), ("while", .keyword)]

def isLetter (c : Char) : Bool := c.isAlpha || c = '_'

/-- The class of a word. A reserved word counts only up to a word boundary. -/
def wordClass (word after : List Char) : SpanClass :=
  if after.head?.any Text.isWordChar then .name
  else (reserved.lookup (String.ofList word)).getD .name

/-- A point and digits, if a digit follows the point, and the text after them. -/
def fraction : List Char → List Char × List Char
  | '.' :: d :: cs =>
    if d.isDigit then ('.' :: d :: cs.takeWhile Char.isDigit, cs.dropWhile Char.isDigit)
    else ([], '.' :: d :: cs)
  | cs => ([], cs)

def isSign (c : Char) : Bool := c = '-' || c = '+' || c = '*' || c = '/'

def isComparison (c : Char) : Bool := c = '!' || c = '=' || c = '<' || c = '>'

def isPunctuation (c : Char) : Bool :=
  c = '(' || c = ')' || c = '\x7b' || c = '\x7d' || c = ',' || c = '.' || c = ';'

/-- A string up to its closing quote, or to the end of the text. -/
def stringSpan (cs : List Char) : Span × List Char :=
  let body := cs.takeWhile (· != '"')
  match cs.dropWhile (· != '"') with
  | quote :: rest => (⟨.string, '"' :: body ++ [quote]⟩, rest)
  | [] => (⟨.string, '"' :: body⟩, [])

/-- The span that begins with `c`, and the text after it. -/
def next (c : Char) (cs : List Char) : Span × List Char :=
  if Text.isBlank c then (⟨.blank, c :: cs.takeWhile Text.isBlank⟩, cs.dropWhile Text.isBlank)
  else if c = '/' && cs.head? = some '/' then
    (⟨.comment, c :: cs.takeWhile (· != '\n')⟩, cs.dropWhile (· != '\n'))
  else if c = '"' then stringSpan cs
  else if c.isDigit then
    let (part, rest) := fraction (cs.dropWhile Char.isDigit)
    (⟨.number, c :: cs.takeWhile Char.isDigit ++ part⟩, rest)
  else if isLetter c then
    let word := c :: cs.takeWhile fun c => isLetter c || c.isDigit
    let rest := cs.dropWhile fun c => isLetter c || c.isDigit
    (⟨wordClass word rest, word⟩, rest)
  else if isComparison c then
    match cs with
    | '=' :: rest => (⟨.operator, [c, '=']⟩, rest)
    | _ => (⟨.operator, [c]⟩, cs)
  else if isSign c then (⟨.operator, [c]⟩, cs)
  else if isPunctuation c then (⟨.punctuation, [c]⟩, cs)
  else (⟨.error, [c]⟩, cs)

theorem stringSpan_append (cs : List Char) :
    (stringSpan cs).1.text ++ (stringSpan cs).2 = '"' :: cs := by
  have whole := List.takeWhile_append_dropWhile (p := (· != '"')) (l := cs)
  unfold stringSpan
  split <;> simp_all

theorem fraction_append (cs : List Char) : (fraction cs).1 ++ (fraction cs).2 = cs := by
  unfold fraction
  repeat' split
  all_goals simp [List.takeWhile_append_dropWhile]

/-- The first span and the rest are the text. -/
theorem next_append (c : Char) (cs : List Char) :
    (next c cs).1.text ++ (next c cs).2 = c :: cs := by
  unfold next
  split
  · simp [List.takeWhile_append_dropWhile]
  split
  · simp [List.takeWhile_append_dropWhile]
  split
  · simp_all [stringSpan_append]
  split
  · simp [fraction_append, List.takeWhile_append_dropWhile]
  split
  · simp [List.takeWhile_append_dropWhile]
  split
  · split <;> simp
  repeat' split
  all_goals simp

/-- A span has at least its first character. -/
theorem text_next_ne_nil (c : Char) (cs : List Char) : (next c cs).1.text ≠ [] := by
  unfold next stringSpan
  repeat' split
  all_goals simp

theorem length_next_le (c : Char) (cs : List Char) : (next c cs).2.length ≤ cs.length := by
  have sum := congrArg List.length (next_append c cs)
  have pos := List.length_pos_iff.2 (text_next_ne_nil c cs)
  simp only [List.length_append, List.length_cons] at sum
  omega

/-! ## The whole text -/

/-- Cuts a text with normal line breaks into its spans. -/
def cut : List Char → List Span
  | [] => []
  | c :: cs => (next c cs).1 :: cut (next c cs).2
termination_by cs => cs.length
decreasing_by exact Nat.lt_succ_of_le (length_next_le c cs)

/-- The spans of a text. -/
def spans (text : List Char) : List Span := cut (Text.normalizeBreaks text)

theorem text_cut (cs : List Char) : (cut cs).flatMap text = cs := by
  fun_induction cut cs with
  | case1 => rfl
  | case2 c cs ih => rw [List.flatMap_cons, ih, next_append]

/-- **The spans tile the text**, its line breaks made normal. -/
theorem text_spans (text : List Char) :
    (spans text).flatMap Span.text = Text.normalizeBreaks text :=
  text_cut _

end Span

end Lox
