/-!
# Timestamps

A date is a year of four digits, a month and a day; a time may follow it. After the letter `T` the
time needs a zone, after a blank it must not have one. Every reader gives back the text after what
it has read, and fails on a field that is out of range.
-/

namespace Lox.Preferences.Timestamp

/-! ## Fields -/

def digit (c : Char) : Nat := c.toNat - '0'.toNat

/-- A number of one or two digits. -/
def short? : List Char → Option (Nat × List Char)
  | c :: d :: cs =>
    if !c.isDigit then none
    else if d.isDigit then some (10 * digit c + digit d, cs) else some (digit c, d :: cs)
  | [c] => if c.isDigit then some (digit c, []) else none
  | [] => none

/-- A number of exactly two digits. -/
def pair? : List Char → Option (Nat × List Char)
  | c :: d :: cs => if c.isDigit && d.isDigit then some (10 * digit c + digit d, cs) else none
  | _ => none

/-- A number of exactly four digits. -/
def year? (cs : List Char) : Option (Nat × List Char) := do
  let (high, cs) ← pair? cs
  let (low, cs) ← pair? cs
  return (100 * high + low, cs)

/-- The text after a mark. -/
def after? (mark : Char) : List Char → Option (List Char)
  | c :: cs => if c = mark then some cs else none
  | [] => none

/-! ## Dates -/

def isLeap (year : Nat) : Bool := year % 4 = 0 && (year % 100 != 0 || year % 400 = 0)

def daysIn (year month : Nat) : Nat :=
  if month = 2 then if isLeap year then 29 else 28
  else if [4, 6, 9, 11].contains month then 30 else 31

/-- A day that the calendar has. -/
def date? (cs : List Char) : Option (List Char) := do
  let (year, cs) ← year? cs
  let (month, cs) ← short? (← after? '-' cs)
  let (day, cs) ← short? (← after? '-' cs)
  guard (1 ≤ month && month ≤ 12 && 1 ≤ day && day ≤ daysIn year month)
  return cs

/-! ## Times -/

/-- The text after a fraction, which has a point or a comma and at least one digit. -/
def afterFraction : List Char → List Char
  | c :: d :: cs =>
    if (c = '.' || c = ',') && d.isDigit then cs.dropWhile Char.isDigit else c :: d :: cs
  | cs => cs

def time? (cs : List Char) : Option (List Char) := do
  let (hour, cs) ← short? cs
  let (minute, cs) ← short? (← after? ':' cs)
  let (second, cs) ← short? (← after? ':' cs)
  guard (hour < 24 && minute < 60 && second < 60)
  return afterFraction cs

/-- A zone: `Z`, or a distance of at most a day from it. -/
def zone? : List Char → Option (List Char)
  | 'Z' :: cs => some cs
  | sign :: cs => do
    guard (sign = '+' || sign = '-')
    let (hours, cs) ← pair? cs
    let (minutes, cs) ← pair? (← after? ':' cs)
    guard (hours ≤ 24 && minutes ≤ 60)
    return cs
  | [] => none

/-! ## Timestamps -/

/-- What may follow a date. -/
def isRest : List Char → Bool
  | [] => true
  | ' ' :: cs => time? (cs.dropWhile (· = ' ')) = some []
  | 'T' :: cs | 't' :: cs => (time? cs).bind zone? = some []
  | _ => false

end Timestamp

/-- Whether a text is a date, or a date and a time. -/
def isTimestamp (cs : List Char) : Bool := (Timestamp.date? cs).any Timestamp.isRest

end Lox.Preferences
