import Jess.Native

/-!
Values at run time. A callable value has an identity of its own beside what it does, and
two callable values are equal only if they are the same one.
-/

namespace Jess

structure Function where
  name : Token
  params : List Token
  body : List Stmt

inductive Callable
  | function (f : Function) (closure : Nat)
  | native (n : Native)

inductive Value
  | number (x : Float)
  | string (s : String)
  | boolean (b : Bool)
  | nil
  | callable (identity : Nat) (c : Callable)

namespace Callable

def name : Callable → String
  | function f _ => f.name.lexeme
  | native n => n.name

def arity : Callable → Nat
  | function f _ => f.params.length
  | native n => n.arity

def text (c : Callable) : String :=
  let plain := "<fn " ++ c.name ++ ">"
  match c with
  | function _ _ => plain
  | native n => n.description.getD plain

end Callable

namespace Value

def type : Value → ValueType
  | number _ => .number
  | string _ => .string
  | boolean _ => .boolean
  | nil => .nil
  | callable _ _ => .function

def ofLiteral : Literal → Value
  | .number x => number x
  | .string s => string s
  | .boolean b => boolean b
  | .nil => nil

/-- Only `nil` and `false` count as false. -/
def isTruthy : Value → Bool
  | nil => false
  | boolean b => b
  | _ => true

/-- The equality that programs see. Numbers follow their own rules: NaN differs from
itself, and the two zeros are equal. -/
def equals : Value → Value → Bool
  | number x, number y => x == y
  | string s, string t => s == t
  | boolean b, boolean c => b == c
  | nil, nil => true
  | callable i _, callable j _ => i == j
  | _, _ => false

def text : Value → String
  | number x => Number.text x
  | string s => s
  | boolean b => toString b
  | nil => "nil"
  | callable _ c => c.text

def glimpse : Value → Native.Glimpse
  | number x => .data (.number x)
  | string s => .data (.string s)
  | boolean b => .data (.boolean b)
  | nil => .data .nil
  | callable identity c => .callable identity c.name c.arity c.text

end Value

end Jess
