import Jess.Text.Extending
import Jess.Text.Unprintable

/-!
Strings in a listing of values. A listed string stands in double quotes; a quote, a
backslash and the common controls inside it follow a backslash, and each other character
that would not show by itself is given by its code point.
-/

namespace Jess.Text

def codePoint (c : Char) : List Char :=
  ['\\', 'u', '{'] ++ Nat.toDigits 16 c.toNat ++ ['}']

def escaped (c : Char) : List Char :=
  if c = '\x00' then ['\\', '0']
  else if c = '\t' then ['\\', 't']
  else if c = '\n' then ['\\', 'n']
  else if c = '\r' then ['\\', 'r']
  else if c = '"' ∨ c = '\\' then ['\\', c]
  else if extending.contains c || unprintable.contains c then codePoint c
  else [c]

def quoted (s : String) : String :=
  String.ofList ('"' :: s.toList.flatMap escaped ++ ['"'])

/-- An accent that would join the quote before it is given by its code point. -/
example : quoted "\u0301'\n\\" = "\"\\u{301}'\\n\\\\\"" := by decide +kernel

end Jess.Text
