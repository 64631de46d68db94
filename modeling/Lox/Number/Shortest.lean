import Lox.Number.Basic

/-!
# The text of a number

A finite number is written with the fewest decimal digits that read back as the same double, and of
those the ones nearest to it. The text is always positional, however large or small the number is.
-/

namespace Lox

/-- The decimal `digits * 10 ^ exponent`. -/
structure Decimal where
  digits : Nat
  exponent : Int
deriving DecidableEq, Repr

namespace Decimal

/-- The positional text: no exponent, and a point only when digits follow it. -/
def positional (d : Decimal) : List Char :=
  let ds := Nat.toDigits 10 d.digits
  let places := (-d.exponent).toNat
  if places = 0 then ds ++ List.replicate d.exponent.toNat '0'
  else
    let padded := List.replicate (places + 1 - ds.length) '0' ++ ds
    let whole := padded.length - places
    padded.take whole ++ '.' :: padded.drop whole

end Decimal

namespace Number

/-- Whether a decimal is read as the double with pattern `p`. -/
def readsAs (p : Nat) (d : Decimal) : Bool := ofDecimal d.digits d.exponent == ofPattern p

/-- The two multiples of `10 ^ exponent` around the magnitude of `p`, the nearer one first; at equal
distance the even one comes first. -/
def neighbours (p : Nat) (exponent : Int) : Decimal × Decimal :=
  let num := magnitude p * Nat.pow 10 (-exponent).toNat
  let den := Nat.pow 2 1074 * Nat.pow 10 exponent.toNat
  let near := roundDiv num den
  let far := if near = num / den then near + 1 else near - 1
  (⟨near, exponent⟩, ⟨far, exponent⟩)

/-- Tries ever finer grids `10 ^ exponent`, `10 ^ (exponent - 1)`, … until a neighbour of the
magnitude reads back. -/
def coarsest (p : Nat) : Nat → Int → Decimal
  | 0, exponent => (neighbours p exponent).1
  | steps + 1, exponent =>
    let (near, far) := neighbours p exponent
    if readsAs p near then near
    else if readsAs p far then far
    else coarsest p steps (exponent - 1)

/-- A power of ten that is not below the magnitude of `p`. -/
def upperExponent (p : Nat) : Int :=
  ((magnitude p).log2 - 1073 : Int) * 30103 / 100000 + 1

/-- The decimal with the fewest digits that reads back as the finite pattern `p`. On the grid of
`10 ^ -1074` the magnitude itself is a point, so the search ends there at the latest. -/
def shortest (p : Nat) : Decimal :=
  let start := upperExponent p
  coarsest p (start + 1074).toNat start

/-- The text of a number. Both zeros are written without a sign. -/
def text (n : Number) : String :=
  if n.isNaN then "NaN"
  else if n.isInfinite then (if n.isNegative then "-Infinity" else "Infinity")
  else if n.isZero then "0"
  else
    let digits := (shortest n.pattern).positional
    String.ofList (if n.isNegative then '-' :: digits else digits)

end Number

end Lox
