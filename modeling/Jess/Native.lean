import Jess.Fault

/-!
Functions of the host. An action is any function of what the arguments of a call look
like from outside, so it reads no scope and changes none. It prints lines, and then
answers with data, with one of the arguments or with a fault.
-/

namespace Jess

namespace Native

/-- What the host sees of a value: data as it is, and of a callable value all but the scope
that it was declared in. -/
inductive Glimpse
  | data (l : Literal)
  | callable (identity : Nat) (name : String) (arity : Nat) (text : String)

/-- An argument that is missing counts as `nil`. The limit on calls is the interpreter's
own, so no host function raises the fault of it. -/
inductive Answer
  | data (l : Literal)
  | argument (index : Nat)
  | fault (f : Fault) (own : f.cause.isOverflow = false)

structure Reply where
  printed : List String
  answer : Answer

def Action : Type := List Glimpse → Reply

namespace Action

def fail (name : String) : Action := fun _ =>
  ⟨[], .fault (Fault.ofCause (.undefinedVariable name)) rfl⟩

def argument (index : Nat) : Action := fun _ => ⟨[], .argument index⟩

def print (line : String) : Action := fun _ => ⟨[line], .data .nil⟩

def give (l : Literal) : Action := fun _ => ⟨[], .data l⟩

def nothing : Action := give .nil

end Action

end Native

structure Native where
  name : String
  arity : Nat
  action : Native.Action
  description : Option String

end Jess
