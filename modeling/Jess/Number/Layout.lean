import Jess.Number.Decimal

/-!
The two written forms of a number. The plain form is what programs print: it is always
positional, and a whole number has no point. The marked form tells a number from other
values in a listing of values: a whole number ends in `.0`, and a number that is very
large or very small is written with an exponent.
-/

namespace Jess.Number

def positional (d : Decimal) : String :=
  let text := toString d.digits
  if 0 ≤ d.exponent then text ++ String.ofList (List.replicate d.exponent.toNat '0')
  else
    let places := (-d.exponent).toNat
    let digits := List.replicate (places + 1 - text.length) '0' ++ text.toList
    let whole := digits.length - places
    String.ofList (digits.take whole) ++ "." ++ String.ofList (digits.drop whole)

def withExponent (d : Decimal) : String :=
  let digits := (toString d.digits).toList
  let power := d.exponent + (digits.length - 1 : Nat)
  let fraction := if digits.length ≤ 1 then "" else "." ++ String.ofList (digits.drop 1)
  String.ofList (digits.take 1) ++ fraction ++ "e" ++ toString power

example : positional ⟨12345, -2⟩ = "123.45" := by decide +kernel

example : positional ⟨5, -3⟩ = "0.005" := by decide +kernel

example : withExponent ⟨25, 15⟩ = "2.5e16" := by decide +kernel

example : withExponent ⟨1, -5⟩ = "1e-5" := by decide +kernel

def spell (layout : Decimal → String) (x : Float) : String :=
  let code := Binary.code x
  if Binary.infinityCode < code then "NaN"
  else
    let magnitude := if code = Binary.infinityCode then "inf" else layout (Decimal.shortest code)
    if Binary.isNegative x then "-" ++ magnitude else magnitude

def text (x : Float) : String := spell positional x

/-- Marked numbers below this magnitude, zero apart, are written with an exponent. -/
def smallest : Nat := Binary.nearest 1 10000

def largest : Nat := Binary.nearest 10000000000000000 1

/-- The text that a listing of values shows for a number. -/
def marked (x : Float) : String :=
  let code := Binary.code x
  spell (fun d =>
    if code ≠ 0 ∧ (code < smallest ∨ largest ≤ code) then withExponent d
    else if 0 ≤ d.exponent then positional d ++ ".0"
    else positional d) x

/-- The number that a run of digits with `places` of them after the point stands for. -/
def read (digits places : Nat) : Float := Binary.ofCode (Decimal.code ⟨digits, -places⟩)

end Jess.Number
