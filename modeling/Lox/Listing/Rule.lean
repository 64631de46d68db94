import Lox.Listing.Span

/-!
# The rules of a listing

The rules by which a text is cut for display, written as patterns. A pattern lists the ways in which
it matches the beginning of a text, the preferred one first: greed and ordered choice are only a
matter of that order. At each place the first rule that matches decides (`Rule.Cuts`).
-/

namespace Lox

/-- A pattern for the beginning of a text. -/
inductive Pattern where
  /-- One character of a class. -/
  | one (p : Char → Bool)
  /-- As many characters of a class as possible. -/
  | many (p : Char → Bool)
  /-- The first of the texts that will do. -/
  | anyOf (texts : List String)
  /-- The pattern, or else nothing. -/
  | optional (a : Pattern)
  | seq (a b : Pattern)
  | alt (a b : Pattern)
  /-- A place between a word character and something else. -/
  | boundary

namespace Pattern

/-- The ways to take characters of a class, the longest first, each with what follows. -/
def stretches (p : Char → Bool) : List Char → List (List Char × List Char)
  | [] => [([], [])]
  | c :: cs =>
    if p c then (stretches p cs).map (fun (taken, rest) => (c :: taken, rest)) ++ [([], c :: cs)]
    else [([], c :: cs)]

/-- Whether exactly one side of a place is a word character. -/
def atBoundary (before : Option Char) (cs : List Char) : Bool :=
  before.any Text.isWordChar != cs.head?.any Text.isWordChar

/-- The ways in which the beginning of a text matches, each with what follows. `before` is the
character before the text. -/
def splits : Pattern → Option Char → List Char → List (List Char × List Char)
  | one p, _, cs =>
    match cs with
    | c :: rest => if p c then [([c], rest)] else []
    | [] => []
  | many p, _, cs => stretches p cs
  | anyOf texts, _, cs =>
    (texts.filter fun t => t.toList.isPrefixOf cs).map fun t =>
      (t.toList, cs.drop t.toList.length)
  | optional a, before, cs => a.splits before cs ++ [([], cs)]
  | seq a b, before, cs =>
    (a.splits before cs).flatMap fun (taken, rest) =>
      (b.splits (taken.getLast?.or before) rest).map fun (more, rest) => (taken ++ more, rest)
  | alt a b, before, cs => a.splits before cs ++ b.splits before cs
  | boundary, before, cs => if atBoundary before cs then [([], cs)] else []

/-- The preferred match. -/
def first? (a : Pattern) (before : Option Char) (cs : List Char) : Option (List Char × List Char) :=
  (a.splits before cs).head?

/-! ## The patterns of the rules -/

def blanks : Pattern := seq (one Text.isBlank) (many Text.isBlank)

def comment : Pattern := seq (anyOf ["//"]) (many (· != '\n'))

/-- A string, closed or not. -/
def string : Pattern :=
  seq (one (· = '"')) (seq (many (· != '"')) (optional (one (· = '"'))))

def number : Pattern :=
  seq (one Char.isDigit) (seq (many Char.isDigit)
    (optional (seq (one (· = '.')) (seq (one Char.isDigit) (many Char.isDigit)))))

/-- One of some words, as a whole. -/
def word (texts : List String) : Pattern := seq (anyOf texts) boundary

def name : Pattern := seq (one Span.isLetter) (many fun c => Span.isLetter c || c.isDigit)

def operator : Pattern :=
  alt (seq (one Span.isComparison) (optional (one (· = '=')))) (one Span.isSign)

end Pattern

/-- A rule: what matches the pattern is a span of the class. -/
structure Rule where
  pattern : Pattern
  cls : SpanClass

namespace Rule

def constants : List String := ["true", "false", "nil"]

def pseudos : List String := ["this", "super"]

def keywords : List String :=
  ["and", "class", "else", "for", "fun", "if", "or", "print", "return", "var", "while"]

/-- The rules, in their order. -/
def all : List Rule :=
  [⟨.blanks, .blank⟩, ⟨.comment, .comment⟩, ⟨.string, .string⟩, ⟨.number, .number⟩,
    ⟨.word constants, .constant⟩, ⟨.word pseudos, .pseudo⟩, ⟨.word keywords, .keyword⟩,
    ⟨.name, .name⟩, ⟨.operator, .operator⟩, ⟨.one Span.isPunctuation, .punctuation⟩,
    ⟨.one (· != '\n'), .error⟩]

/-- The span that a rule makes of the beginning of a text, and the text after it. -/
def span? (before : Option Char) (cs : List Char) (r : Rule) : Option (Span × List Char) :=
  (r.pattern.first? before cs).map fun (taken, rest) => (⟨r.cls, taken⟩, rest)

/-- The span that the first matching rule makes. -/
def firstSpan? (before : Option Char) (cs : List Char) : Option (Span × List Char) :=
  all.findSome? (span? before cs)

/-- The rules cut a text into spans: at each place the first rule that matches there decides. -/
inductive Cuts : Option Char → List Char → List Span → Prop where
  | done (before : Option Char) : Cuts before [] []
  | span {before : Option Char} {cs rest : List Char} {span : Span} {spans : List Span}
    (first : firstSpan? before cs = some (span, rest))
    (others : Cuts (span.text.getLast?.or before) rest spans) : Cuts before cs (span :: spans)

end Rule

end Lox
