import Jess.Number.Layout

/-!
Values that a program can write down.
-/

namespace Jess

inductive Literal
  | number (x : Float)
  | string (s : String)
  | boolean (b : Bool)
  | nil
deriving DecidableEq

namespace Literal

/-- The text of a literal without the quotes of a string. -/
def text : Literal → String
  | number x => Number.text x
  | string s => s
  | boolean b => toString b
  | nil => "nil"

end Literal

end Jess
