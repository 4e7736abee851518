import Jess.Diagnostic
import Jess.Tree
import Jess.Value.Type

/-!
Runtime errors. A fault has a cause, and the line of the token that is to blame once that
is known. The first line that a fault gets stays with it.
-/

namespace Jess

namespace Fault

inductive Cause
  | undefinedVariable (name : String)
  | alreadyDefined (name : String)
  | operandsMustBeNumbers (op : BinaryOp)
  | operandMustBeNumber
  | invalidPlusOperands (left right : ValueType)
  | notCallable (type : ValueType)
  | arityMismatch (expected got : Nat)
  | stackOverflow (depth : Nat)
deriving Repr, DecidableEq

def Cause.isOverflow : Cause → Bool
  | stackOverflow _ => true
  | _ => false

def Cause.message : Cause → String
  | undefinedVariable name => "Undefined variable '" ++ name ++ "'."
  | alreadyDefined name => "Variable '" ++ name ++ "' is already defined in this scope."
  | operandsMustBeNumbers _ => "Operands must be numbers."
  | operandMustBeNumber => "Operand must be a number."
  | invalidPlusOperands left right =>
      "Operands must be two numbers or start with a string, got " ++ left.name ++ " and " ++
        right.name ++ "."
  | notCallable type => "Value of type " ++ type.name ++ " is not callable."
  | arityMismatch expected got =>
      "Expected " ++ toString expected ++ " arguments but got " ++ toString got ++ "."
  | stackOverflow depth => "Stack overflow: call depth exceeded " ++ toString depth ++ "."

end Fault

structure Fault where
  cause : Fault.Cause
  line : Option Nat
deriving Repr, DecidableEq

namespace Fault

def ofCause (cause : Cause) : Fault := ⟨cause, none⟩

/-- Blames a fault on a line unless it has one. -/
def blamedOn (f : Fault) (line : Nat) : Fault := { f with line := some (f.line.getD line) }

def message (f : Fault) : String := f.cause.message

def text (f : Fault) : String :=
  match f.line with
  | none => f.message
  | some line => f.message ++ "\n[line " ++ toString line ++ "]"

/-- The report of a fault. One without a line is reported at line zero. -/
def diagnostic (f : Fault) : Diagnostic := .runtime (f.line.getD 0) f.message

end Fault

end Jess
