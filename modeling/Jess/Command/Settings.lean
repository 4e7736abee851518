import Jess.Command.Refusal
import Jess.Interpreter
import Jess.Text.Blank

/-!
The settings of the command: which script to run, if any, and how many calls may be
active at a time.
-/

namespace Jess.Command

structure Settings where
  script : Option String
  callLimit : Nat
deriving Repr, DecidableEq

def decimal? (digits : List Char) : Option Nat :=
  if digits ≠ [] ∧ digits.all Char.isDigit then
    some (digits.foldl (fun total c => total * 10 + (c.toNat - '0'.toNat)) 0)
  else none

def maxLimit : Nat := 18446744073709551615

/-- Reads a call limit: a positive number of at most 64 bits, perhaps with a plus sign,
between any white space. -/
def callLimit? (given : String) : Option Nat :=
  let digits := match Text.trimmed given.toList with
    | '+' :: digits => digits
    | digits => digits
  match decimal? digits with
  | none => none
  | some n => if 0 < n ∧ n ≤ maxLimit then some n else none

namespace Settings

def ofParts (args : List String) (depth : Option String) : Except Refusal Settings :=
  match args with
  | _ :: _ :: _ => .error .usage
  | args =>
      match depth with
      | none => .ok ⟨args.head?, Interpreter.defaultLimit⟩
      | some given =>
          match callLimit? given with
          | none => .error (.invalidCallDepth given)
          | some limit => .ok ⟨args.head?, limit⟩

def interpreter (s : Settings) : Interpreter := Interpreter.new s.callLimit

end Settings

end Jess.Command
