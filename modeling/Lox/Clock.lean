import Lox.Number.Basic

/-!
# Clocks

Time is given from outside, as a list of readings.
-/

namespace Lox

/-- A point in time. -/
structure Instant where
  seconds : Int
  nanoseconds : Int
deriving DecidableEq, Repr

/-- The time in seconds. Whole seconds and the fraction are rounded to doubles on their own. -/
def Instant.number (t : Instant) : Number :=
  let seconds := t.seconds + t.nanoseconds.fdiv 1000000000
  let fraction := t.nanoseconds.fmod 1000000000
  (Number.ofInt seconds).add ((Number.ofInt fraction).div (Number.ofInt 1000000000))

/-- The readings still to come. The last one is read for ever. -/
abbrev Clock := List Instant

/-- Reads a clock. A clock without readings stands at zero. -/
def Clock.read : Clock → Instant × Clock
  | [] => (⟨0, 0⟩, [])
  | [t] => (t, [t])
  | t :: rest => (t, rest)

end Lox
