import Lox.Number.Shortest

/-!
# Constants

The values that a literal can stand for.
-/

namespace Lox

inductive Constant where
  | nil
  | bool (b : Bool)
  | number (n : Number)
  | string (s : String)
deriving DecidableEq, Repr

namespace Constant

/-- The text that `print` writes for a constant. -/
def text : Constant → String
  | nil => "nil"
  | bool true => "true"
  | bool false => "false"
  | number n => n.text
  | string s => s

end Constant

end Lox
