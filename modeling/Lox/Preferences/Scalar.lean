import Lox.Number.Basic
import Lox.Preferences.Timestamp

/-!
# Values of a preference file

A value is plain, or between quotes. A quoted value is always a text; a plain value has a type that
shows in its spelling.
-/

namespace Lox.Preferences

/-! ## Values -/

/-- A value as it was written. -/
inductive Scalar where
  | plain (text : String)
  | quoted (text : String)
deriving DecidableEq, Repr

def Scalar.text : Scalar → String
  | plain t | quoted t => t

/-- The type of a value. -/
inductive Tag where
  | null
  | bool (b : Bool)
  | int
  | float
  | timestamp
  | merge
  | str
deriving DecidableEq, Repr

def Tag.name : Tag → String
  | null => "!!null"
  | bool _ => "!!bool"
  | int => "!!int"
  | float => "!!float"
  | timestamp => "!!timestamp"
  | merge => "!!merge"
  | str => "!!str"

/-! ## Integers -/

def isNonempty (p : Char → Bool) (cs : List Char) : Bool := !cs.isEmpty && cs.all p

def isBinary (c : Char) : Bool := c = '0' || c = '1'

def isOctal (c : Char) : Bool := '0' ≤ c && c ≤ '7'

def isHex (c : Char) : Bool := c.isDigit || ('a' ≤ c && c ≤ 'f') || ('A' ≤ c && c ≤ 'F')

def digitValue (c : Char) : Nat :=
  if c.isDigit then c.toNat - '0'.toNat
  else if 'a' ≤ c then c.toNat - 'a'.toNat + 10 else c.toNat - 'A'.toNat + 10

/-- The number that digits spell in a base. -/
def ofDigits (base : Nat) (ds : List Char) : Nat :=
  ds.foldl (fun n d => base * n + digitValue d) 0

/-- The magnitude of an integer without its sign. A leading zero gives the base. -/
def magnitude? : List Char → Option Nat
  | '0' :: 'x' :: ds | '0' :: 'X' :: ds =>
    if isNonempty isHex ds then some (ofDigits 16 ds) else none
  | '0' :: 'b' :: ds | '0' :: 'B' :: ds =>
    if isNonempty isBinary ds then some (ofDigits 2 ds) else none
  | '0' :: 'o' :: ds | '0' :: 'O' :: ds =>
    if isNonempty isOctal ds then some (ofDigits 8 ds) else none
  | '0' :: ds => if ds.all isOctal then some (ofDigits 8 ds) else none
  | ds => if isNonempty Char.isDigit ds then some (ofDigits 10 ds) else none

/-- An integer of at most 64 bits: with a sign in front, after a small binary or octal mark, or
without one. -/
def isInt : List Char → Bool
  | '-' :: ds => (magnitude? ds).any (· ≤ Nat.pow 2 63)
  | '+' :: ds => (magnitude? ds).any (· < Nat.pow 2 63)
  | '0' :: 'b' :: '-' :: ds => (magnitude? ('0' :: 'b' :: ds)).any (· ≤ Nat.pow 2 63)
  | '0' :: 'b' :: '+' :: ds => (magnitude? ('0' :: 'b' :: ds)).any (· < Nat.pow 2 63)
  | '0' :: 'o' :: '-' :: ds => (magnitude? ('0' :: 'o' :: ds)).any (· ≤ Nat.pow 2 63)
  | '0' :: 'o' :: '+' :: ds => (magnitude? ('0' :: 'o' :: ds)).any (· < Nat.pow 2 63)
  | ds => (magnitude? ds).any (· < Nat.pow 2 64)

/-! ## Decimal numbers -/

/-- The number that an exponent stands for. Nothing at all stands for zero. -/
def exponent? : List Char → Option Int
  | [] => some 0
  | mark :: cs =>
    if mark = 'e' || mark = 'E' then
      match cs with
      | '-' :: ds => if isNonempty Char.isDigit ds then some (-(ofDigits 10 ds : Int)) else none
      | '+' :: ds => if isNonempty Char.isDigit ds then some (ofDigits 10 ds) else none
      | ds => if isNonempty Char.isDigit ds then some (ofDigits 10 ds) else none
    else none

/-- Whether `digits * 10 ^ exponent` is read as a finite number. The number of places decides,
except for numbers as long as the largest ones. -/
def readsFinite (digits : Nat) (exponent : Int) : Bool :=
  let places := (Nat.toDigits 10 digits).length + exponent
  digits = 0 || places < 309 ||
    (places = 309 && !(Number.ofDecimal digits exponent).isInfinite)

/-- A finite decimal number without a sign: digits with a point somewhere or nowhere, and an
exponent. A point at the end needs digits before it. -/
def isDecimal (cs : List Char) : Bool :=
  let whole := cs.takeWhile Char.isDigit
  let (fraction, rest) :=
    match cs.dropWhile Char.isDigit with
    | '.' :: rest => (rest.takeWhile Char.isDigit, rest.dropWhile Char.isDigit)
    | rest => ([], rest)
  let digits := whole ++ fraction
  !digits.isEmpty &&
    (exponent? rest).any fun e => readsFinite (ofDigits 10 digits) (e - fraction.length)

/-- The text after a sign, which may be missing. -/
def unsigned : List Char → List Char
  | '-' :: cs | '+' :: cs => cs
  | cs => cs

def withoutUnderscores (cs : List Char) : List Char := cs.filter (· != '_')

/-- Whether every underscore stands between two digits. `seen` says that a digit was just read. -/
def underscoresBetweenDigits (seen : Bool) : List Char → Bool
  | [] => true
  | '_' :: d :: cs => seen && d.isDigit && underscoresBetweenDigits true cs
  | ['_'] => false
  | c :: cs => underscoresBetweenDigits c.isDigit cs

/-! ## The types of plain values -/

/-- The type of a plain value that may be a number. Underscores do not count, except in a number
that begins with its point. -/
def Tag.ofNumeric (cs : List Char) : Tag :=
  if cs.head? = some '.' then
    if underscoresBetweenDigits false cs && isDecimal (withoutUnderscores cs) then .float else .str
  else if isTimestamp cs then .timestamp
  else
    let cs := withoutUnderscores cs
    if isInt cs then .int else if isDecimal (unsigned cs) then .float else .str

/-- The type of a plain value. -/
def Tag.ofPlain (text : String) : Tag :=
  if ["", "~", "null", "Null", "NULL"].contains text then .null
  else if ["true", "True", "TRUE"].contains text then .bool true
  else if ["false", "False", "FALSE"].contains text then .bool false
  else if [".nan", ".NaN", ".NAN", ".inf", ".Inf", ".INF", "+.inf", "+.Inf", "+.INF", "-.inf",
    "-.Inf", "-.INF"].contains text then .float
  else if text = "<<" then .merge
  else
    match text.toList with
    | [] => .str
    | c :: cs =>
      if c.isDigit || c = '-' || c = '+' || c = '.' then .ofNumeric (c :: cs) else .str

def Scalar.tag : Scalar → Tag
  | plain t => .ofPlain t
  | quoted _ => .str

end Lox.Preferences
