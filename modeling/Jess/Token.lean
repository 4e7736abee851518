import Jess.Literal
import Jess.Span
import Jess.Token.Kind

/-!
Tokens: a kind, the text as it was spelled, the value of a number or a string, the line,
and the place in the source.
-/

namespace Jess

structure Token where
  kind : Token.Kind
  lexeme : String
  literal : Option Literal
  line : Nat
  span : Span
deriving DecidableEq

namespace Token

def eof (line offset : Nat) : Token := ⟨.eof, "", none, line, Span.point offset⟩

def unplaced (kind : Kind) (lexeme : String) (line : Nat) : Token :=
  ⟨kind, lexeme, none, line, Span.nowhere⟩

def isEof (token : Token) : Bool := token.kind == .eof

/-- The kind, the spelling, and the literal where there is one. -/
def text (token : Token) : String :=
  let spelled := token.kind.label ++ " " ++ token.lexeme
  match token.literal with
  | none => spelled
  | some literal => spelled ++ " " ++ literal.text

end Token

end Jess
