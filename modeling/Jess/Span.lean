/-!
Spans of a source text, as byte offsets. Offsets are kept in 32 bits, and a larger one
counts as the largest that fits.
-/

namespace Jess

/-- The bytes from `start` up to and without `stop`. -/
structure Span where
  start : Nat
  stop : Nat
deriving Repr, DecidableEq

namespace Span

def maxOffset : Nat := 4294967295

def ofRange (start stop : Nat) : Span := ⟨min start maxOffset, min stop maxOffset⟩

def point (offset : Nat) : Span := ofRange offset offset

/-- The span of what has no place in a source text. -/
def nowhere : Span := ⟨0, 0⟩

def text (span : Span) : String := toString span.start ++ ".." ++ toString span.stop

theorem ofRange_eq {start stop : Nat} (h : start ≤ maxOffset) (k : stop ≤ maxOffset) :
    ofRange start stop = ⟨start, stop⟩ := by
  simp [ofRange, Nat.min_eq_left h, Nat.min_eq_left k]

end Span

end Jess
