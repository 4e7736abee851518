/-!
The numbers of the language are the binary floating-point numbers of 64 bits. Below
its sign a number is a code, and codes count the numbers upward from zero. The code
of a finite number splits into a significand and a shift: the number is
`significand * 2 ^ shift` in units of the least positive number, `2 ^ -1074`. Reading
a fraction rounds it to the nearest number, and a fraction halfway between two numbers
goes to the one with the even significand.
-/

namespace Jess.Binary

def signBit : Nat := 9223372036854775808

def binade : Nat := 4503599627370496

/-- The bits of a number below its sign. -/
def code (x : Float) : Nat := x.toBits.toNat % signBit

def isNegative (x : Float) : Bool := signBit ≤ x.toBits.toNat

/-- The number without a sign that has a given code. -/
def ofCode (code : Nat) : Float := Float.ofBits (UInt64.ofNat code)

def infinityCode : Nat := 2047 * binade

/-- How often the unit is doubled to reach one step of the significand. -/
def shift (code : Nat) : Nat := code / binade - 1

/-- The number of steps. It takes up all of the code that the shift does not, so a
carry out of the significand lands in the shift by itself. -/
def significand (code : Nat) : Nat := code - shift code * binade

theorem shift_significand (code : Nat) : shift code * binade + significand code = code := by
  simp only [shift, significand, binade]
  omega

theorem significand_lt (code : Nat) : significand code < 2 * binade := by
  simp only [shift, significand, binade]
  omega

/-- The whole number nearest to a quotient, an even one at a tie. -/
def halfEven (num den : Nat) : Nat :=
  let quotient := num / den
  let rest := num % den
  if 2 * rest < den then quotient
  else if den < 2 * rest then quotient + 1
  else quotient + quotient % 2

/-- The code of the number nearest to `num / den`. A quotient at or past half a step
above the largest finite number is infinite. -/
def nearest (num den : Nat) : Nat :=
  let units := num * Nat.pow 2 1074
  let doublings := Nat.log2 (units / den) - 52
  min infinityCode (doublings * binade + halfEven units (den * Nat.pow 2 doublings))

theorem nearest_le_infinity (num den : Nat) : nearest num den ≤ infinityCode :=
  Nat.min_le_left _ _

end Jess.Binary
