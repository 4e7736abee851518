/-!
The types of values, by the names that messages give them.
-/

namespace Jess

inductive ValueType
  | number
  | string
  | boolean
  | nil
  | function
deriving Repr, DecidableEq

def ValueType.name : ValueType → String
  | number => "number"
  | string => "string"
  | boolean => "boolean"
  | nil => "nil"
  | function => "function"

end Jess
