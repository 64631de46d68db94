import Lox.Constant

/-!
# Values

What expressions evaluate to. Functions, classes and instances live in the heap and are values by
their place in it, so two of them are the same value only if they are the same object.
-/

namespace Lox

/-- A place in the heap, or among the native functions. -/
abbrev Id := Nat

inductive Value where
  | nil
  | bool (b : Bool)
  | number (n : Number)
  | string (s : String)
  | native (id : Id)
  | function (id : Id)
  | cls (id : Id)
  | object (id : Id)
deriving DecidableEq, Repr

def Constant.value : Constant → Value
  | .nil => .nil
  | .bool b => .bool b
  | .number n => .number n
  | .string s => .string s

namespace Value

/-- Everything counts as true but `nil` and `false`. -/
def truthy : Value → Bool
  | nil => false
  | bool b => b
  | _ => true

/-- Equality in the language. Numbers compare numerically; objects are equal to themselves only. -/
def same : Value → Value → Bool
  | number a, number b => a.same b
  | number _, _ => false
  | v, w => v == w

end Value

end Lox
