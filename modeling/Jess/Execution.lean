import Jess.Machine

/-!
Running trees. A program may run for ever, so each run is given a number of steps, and
has no result if they are not enough.
-/

namespace Jess

namespace Answer

def fault? : Answer → Option Fault
  | .failed f => some f
  | _ => none

def valueOr? : Answer → Option (Except Fault Value)
  | .value v => some (.ok v)
  | .failed f => some (.error f)
  | .completed _ => none

def completionOr? : Answer → Option (Except Fault Completion)
  | .completed c => some (.ok c)
  | .failed f => some (.error f)
  | .value _ => none

end Answer

def Machine.ofProgram (program : List Stmt) (i : Interpreter) : Machine :=
  ⟨.finish .normal (.program program), i⟩

namespace Interpreter

def evaluate (steps : Nat) (e : Expr) (i : Interpreter) :
    Option (Except Fault Value × Interpreter) :=
  match Machine.run steps ⟨.evaluate e .stop, i⟩ with
  | none => none
  | some (a, i) => a.valueOr?.map fun result => (result, i)

/-- Calls a value with arguments. A fault of the call itself is blamed on a parenthesis. -/
def call (steps : Nat) (callee : Value) (args : List Value) (paren : Token) (i : Interpreter) :
    Option (Except Fault Value × Interpreter) :=
  match Machine.run steps (Machine.call callee args paren .stop i) with
  | none => none
  | some (a, i) => a.valueOr?.map fun result => (result, i)

def execute (steps : Nat) (s : Stmt) (i : Interpreter) :
    Option (Except Fault Completion × Interpreter) :=
  match Machine.run steps ⟨.execute s .stop, i⟩ with
  | none => none
  | some (a, i) => a.completionOr?.map fun result => (result, i)

/-- Runs statements in a given scope and comes back to the current one. -/
def executeIn (steps : Nat) (body : List Stmt) (env : Nat) (i : Interpreter) :
    Option (Except Fault Completion × Interpreter) :=
  match Machine.run steps (Machine.runBlock body i.env .stop (i.moveTo env)) with
  | none => none
  | some (a, i) => a.completionOr?.map fun result => (result, i)

def interpret (steps : Nat) (program : List Stmt) (i : Interpreter) :
    Option (Option Fault × Interpreter) :=
  match Machine.run steps (Machine.ofProgram program i) with
  | none => none
  | some (a, i) => some (a.fault?, i)

end Interpreter

end Jess
