import Jess.Text.Quoted
import Jess.Value

/-!
Values in a listing, each with its type.
-/

namespace Jess.Value

def listed : Value → String
  | number x => "Number(" ++ Number.marked x ++ ")"
  | string s => "Str(" ++ Text.quoted s ++ ")"
  | boolean b => "Bool(" ++ toString b ++ ")"
  | nil => "Nil"
  | callable _ c => "Callable(" ++ c.text ++ ")"

end Jess.Value
