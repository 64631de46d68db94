import Lox.Constant

/-!
# Tokens

The words of the language: kinds, the reserved words, and tokens with their place in the source.
-/

namespace Lox

inductive TokenKind where
  | leftParen | rightParen | leftBrace | rightBrace
  | comma | dot | minus | plus | semicolon | slash | star
  | bang | bangEqual | equal | equalEqual | greater | greaterEqual | less | lessEqual
  | identifier | string | number
  | kwAnd | kwClass | kwElse | kwFalse | kwFun | kwFor | kwIf | kwNil | kwOr | kwPrint | kwReturn
  | kwSuper | kwThis | kwTrue | kwVar | kwWhile
  | eof
deriving DecidableEq, Repr

namespace TokenKind

/-! ## Names and codes -/

/-- Every kind, in the order of their codes. -/
def all : List TokenKind :=
  [leftParen, rightParen, leftBrace, rightBrace, comma, dot, minus, plus, semicolon, slash, star,
    bang, bangEqual, equal, equalEqual, greater, greaterEqual, less, lessEqual,
    identifier, string, number,
    kwAnd, kwClass, kwElse, kwFalse, kwFun, kwFor, kwIf, kwNil, kwOr, kwPrint, kwReturn,
    kwSuper, kwThis, kwTrue, kwVar, kwWhile, eof]

def name : TokenKind → String
  | leftParen => "LEFT_PAREN"
  | rightParen => "RIGHT_PAREN"
  | leftBrace => "LEFT_BRACE"
  | rightBrace => "RIGHT_BRACE"
  | comma => "COMMA"
  | dot => "DOT"
  | minus => "MINUS"
  | plus => "PLUS"
  | semicolon => "SEMICOLON"
  | slash => "SLASH"
  | star => "STAR"
  | bang => "BANG"
  | bangEqual => "BANG_EQUAL"
  | equal => "EQUAL"
  | equalEqual => "EQUAL_EQUAL"
  | greater => "GREATER"
  | greaterEqual => "GREATER_EQUAL"
  | less => "LESS"
  | lessEqual => "LESS_EQUAL"
  | identifier => "IDENTIFIER"
  | string => "STRING"
  | number => "NUMBER"
  | kwAnd => "AND"
  | kwClass => "CLASS"
  | kwElse => "ELSE"
  | kwFalse => "FALSE"
  | kwFun => "FUN"
  | kwFor => "FOR"
  | kwIf => "IF"
  | kwNil => "NIL"
  | kwOr => "OR"
  | kwPrint => "PRINT"
  | kwReturn => "RETURN"
  | kwSuper => "SUPER"
  | kwThis => "THIS"
  | kwTrue => "TRUE"
  | kwVar => "VAR"
  | kwWhile => "WHILE"
  | eof => "EOF"

/-- The kind with a code. Codes start at one: zero is kept for "no kind". -/
def ofCode? (code : Int) : Option TokenKind :=
  if 0 < code then all[(code - 1).toNat]? else none

/-- The name of a code, whether or not it stands for a kind. -/
def codeName (code : Int) : String :=
  if code = 0 then "UNKNOWN" else ((ofCode? code).map name).getD "<unknown>"

/-! ## Reserved words -/

/-- The reserved words and their kinds. -/
def keywords : List (String × TokenKind) :=
  [("and", kwAnd), ("class", kwClass), ("else", kwElse), ("false", kwFalse), ("for", kwFor),
    ("fun", kwFun), ("if", kwIf), ("nil", kwNil), ("or", kwOr), ("print", kwPrint),
    ("return", kwReturn), ("super", kwSuper), ("this", kwThis), ("true", kwTrue), ("var", kwVar),
    ("while", kwWhile)]

/-- The kind of a word: a keyword if the whole word is reserved, else an identifier. -/
def ofWord (word : List Char) : TokenKind :=
  (keywords.lookup (String.ofList word)).getD identifier

/-- The kinds of the reserved words. -/
def isKeyword : TokenKind → Bool
  | kwAnd | kwClass | kwElse | kwFalse | kwFun | kwFor | kwIf | kwNil | kwOr | kwPrint | kwReturn
  | kwSuper | kwThis | kwTrue | kwVar | kwWhile => true
  | _ => false

end TokenKind

/-- A token. `line` is the line on which its text ends; `offset` counts the characters before it.
Lines of a source start at one; tokens made elsewhere may have any line. -/
structure Token where
  kind : TokenKind
  lexeme : String
  line : Int
  offset : Nat
deriving DecidableEq, Repr

namespace Token

/-- How many characters of the source the token covers. -/
def length (t : Token) : Nat := t.lexeme.length

/-- The constant that a literal token spells. -/
def constant? (t : Token) : Option Constant :=
  match t.kind with
  | .number => some (.number (Number.ofLiteral t.lexeme.toList))
  | .string => some (.string (String.ofList (t.lexeme.toList.drop 1).dropLast))
  | .kwTrue => some (.bool true)
  | .kwFalse => some (.bool false)
  | .kwNil => some .nil
  | _ => none

/-- The value a token carries besides its text, which only numbers and strings do. -/
def literal? (t : Token) : Option Constant :=
  match t.kind with
  | .number | .string => t.constant?
  | _ => none

/-- The debug form: kind, text, and the value of a number or string. -/
def describe (t : Token) : String :=
  match t.literal? with
  | some c => t.kind.name ++ " " ++ t.lexeme ++ " " ++ c.text
  | none => t.kind.name ++ " " ++ t.lexeme

end Token

end Lox
