import Jess.Number.Binary

/-!
Decimal numbers, exact, and the two ways between them and the codes of binary numbers:
`Decimal.code` rounds a decimal to the nearest number, and `Decimal.shortest` finds the
decimal with the fewest digits that rounds back to a given code. Each candidate is
accepted because it reads back, so nothing here relies on an estimate being right.
-/

namespace Jess

/-- The number `digits * 10 ^ exponent`. -/
structure Decimal where
  digits : Nat
  exponent : Int
deriving Repr, DecidableEq

namespace Decimal

def code (d : Decimal) : Nat :=
  if 0 ≤ d.exponent then Binary.nearest (d.digits * Nat.pow 10 d.exponent.toNat) 1
  else Binary.nearest d.digits (Nat.pow 10 (-d.exponent).toNat)

/-- The decimal equal to the finite number of a code. A unit is `2 ^ -1074`, so a number
of shift below 1074 has as many decimal places as it lacks doublings. -/
def exact (code : Nat) : Decimal :=
  let significand := Binary.significand code
  let shift := Binary.shift code
  if 1074 ≤ shift then ⟨significand * Nat.pow 2 (shift - 1074), 0⟩
  else
    let places := 1074 - shift
    if significand % Nat.pow 2 places = 0 then ⟨significand / Nat.pow 2 places, 0⟩
    else ⟨significand * Nat.pow 5 places, -places⟩

def trim (d : Decimal) : Decimal :=
  if 0 < d.digits ∧ d.digits % 10 = 0 then trim ⟨d.digits / 10, d.exponent + 1⟩ else d
termination_by d.digits
decreasing_by omega

def width (n : Nat) : Nat := (Nat.toDigits 10 n).length

/-- The neighbours of a decimal among those that end `dropped` places earlier. -/
def neighbours (d : Decimal) (dropped : Nat) : Decimal × Decimal :=
  let below := d.digits / Nat.pow 10 dropped
  (⟨below, d.exponent + dropped⟩, ⟨below + 1, d.exponent + dropped⟩)

/-- Of the two neighbours with `dropped` digits less, one that reads back as `code`. If
both do, the nearer is taken, and the upper one of two that are equally near. -/
def coarser? (code : Nat) (d : Decimal) (dropped : Nat) : Option Decimal :=
  let (low, high) := d.neighbours dropped
  let rest := d.digits % Nat.pow 10 dropped
  if low.code = code then
    if high.code = code ∧ Nat.pow 10 dropped ≤ 2 * rest then some high else some low
  else if high.code = code then some high
  else none

/-- The decimal with the fewest digits that reads back as a finite code, and the nearest
to the number of those. Seventeen digits are always enough, and the exact decimal has
the last word. -/
def shortest (code : Nat) : Decimal :=
  let whole := exact code
  let digits := width whole.digits
  let lengths := (List.range (min 17 (digits - 1))).map (· + 1)
  ((lengths.findSome? fun length => coarser? code whole (digits - length)).getD whole).trim

example : shortest 0x3FB999999999999A = ⟨1, -1⟩ ∧ shortest 1 = ⟨5, -324⟩ := by decide +kernel

theorem code_of_coarser? {code dropped : Nat} {d found : Decimal}
    (h : coarser? code d dropped = some found) : found.code = code := by
  simp only [coarser?] at h
  split at h
  · split at h <;> simp_all
  · split at h <;> simp_all

end Decimal

end Jess
