/-!
# Numbers

A Lox number is an IEEE 754 double. It is kept as its 64 bits, so that two numbers can be told apart
by `DecidableEq`, while `Number.same` is the comparison the language itself makes.

Every finite magnitude is a whole number of units of `2 ^ -1074`, the least positive double. Reading
a decimal is therefore exact arithmetic on natural numbers up to one rounding, `Number.nearest`.
-/

namespace Lox

/-- A double, by its bits. -/
structure Number where
  bits : UInt64
deriving DecidableEq, Repr, Inhabited

namespace Number

/-! ## The parts of a double -/

/-- The bits below the sign, as a number: patterns are ordered as the magnitudes they stand for. -/
def pattern (n : Number) : Nat := n.bits.toNat % Nat.pow 2 63

/-- The sign bit is set. -/
def isNegative (n : Number) : Bool := Nat.pow 2 63 ≤ n.bits.toNat

/-- The pattern of the infinities; larger patterns are not numbers. -/
def infinitePattern : Nat := 2047 * Nat.pow 2 52

def isNaN (n : Number) : Bool := infinitePattern < n.pattern

def isInfinite (n : Number) : Bool := n.pattern = infinitePattern

/-- Either of the two zeros. -/
def isZero (n : Number) : Bool := n.pattern = 0

/-- The non-negative double with the given pattern. -/
def ofPattern (p : Nat) : Number := ⟨UInt64.ofNat p⟩

/-- The magnitude of a finite pattern, in units of `2 ^ -1074`. -/
def magnitude (p : Nat) : Nat :=
  if p < Nat.pow 2 52 then p
  else (Nat.pow 2 52 + p % Nat.pow 2 52) * Nat.pow 2 (p / Nat.pow 2 52 - 1)

/-! ## Rounding -/

/-- The quotient rounded to the nearest whole number, a half to the even one. -/
def roundDiv (num den : Nat) : Nat :=
  let q := num / den
  let r := num % den
  if den < 2 * r ∨ (2 * r = den ∧ q % 2 = 1) then q + 1 else q

/-- The pattern nearest to `num / den` units, ties to even; what lies beyond the largest finite
magnitude becomes infinite. -/
def nearest (num den : Nat) : Nat :=
  let e := (num / den).log2 - 52
  min (e * Nat.pow 2 52 + roundDiv num (den * Nat.pow 2 e)) infinitePattern

/-- The double nearest to `digits * 10 ^ exponent`. -/
def ofDecimal (digits : Nat) (exponent : Int) : Number :=
  ofPattern (nearest (digits * Nat.pow 10 exponent.toNat * Nat.pow 2 1074)
    (Nat.pow 10 (-exponent).toNat))

/-- The number with the sign bit turned over. -/
def negate (n : Number) : Number := ⟨n.bits ^^^ 0x8000000000000000⟩

/-- The double nearest to a whole number. -/
def ofInt (i : Int) : Number :=
  let n := ofDecimal i.natAbs 0
  if i < 0 then n.negate else n

/-! ## Reading -/

/-- The number that a run of decimal digits spells. -/
def ofDigits (ds : List Char) : Nat :=
  ds.foldl (fun n d => 10 * n + (d.toNat - '0'.toNat)) 0

/-- The value of a literal: digits, or digits, a point and digits. -/
def ofLiteral (cs : List Char) : Number :=
  let whole := cs.takeWhile (· != '.')
  let fraction := (cs.dropWhile (· != '.')).drop 1
  ofDecimal (ofDigits (whole ++ fraction)) (-(fraction.length : Int))

/-! ## Arithmetic and comparison -/

def toFloat (n : Number) : Float := Float.ofBits n.bits

def ofFloat (f : Float) : Number := ⟨f.toBits⟩

def add (a b : Number) : Number := ofFloat (a.toFloat + b.toFloat)

def sub (a b : Number) : Number := ofFloat (a.toFloat - b.toFloat)

def mul (a b : Number) : Number := ofFloat (a.toFloat * b.toFloat)

def div (a b : Number) : Number := ofFloat (a.toFloat / b.toFloat)

/-- Numeric equality: a number that is not a number equals nothing, and the two zeros are equal. -/
def same (a b : Number) : Bool :=
  !a.isNaN && !b.isNaN && (a.bits == b.bits || (a.isZero && b.isZero))

def less (a b : Number) : Bool := a.toFloat < b.toFloat

def lessEq (a b : Number) : Bool := a.toFloat ≤ b.toFloat

end Number

end Lox
