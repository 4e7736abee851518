/-!
Sets of characters given by ranges of code points. A set is the rising list of the
edges at which membership changes, starting outside of the set.
-/

namespace Jess.Text

/-- A set of code points. The first edge enters the set, the next one leaves it. -/
structure Ranges where
  edges : List Nat

namespace Ranges

def contains (set : Ranges) (c : Char) : Bool :=
  set.edges.countP (· ≤ c.toNat) % 2 == 1

end Ranges

end Jess.Text
