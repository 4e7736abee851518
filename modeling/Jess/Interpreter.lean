import Jess.Scope
import Jess.Value.Operator

/-!
The state of an interpreter: all scopes, the current one, the number of active calls with
its limit, the identity for the next callable value, and the lines that were printed.
-/

namespace Jess

structure Interpreter where
  store : Store
  env : Nat
  depth : Nat
  limit : Nat
  supply : Nat
  printed : Array String

namespace Interpreter

def defaultLimit : Nat := 10000

def globals : Nat := 0

def new (limit : Nat) : Interpreter :=
  ⟨Store.empty.openScope none, globals, 0, limit, 0, #[]⟩

def binds (i : Interpreter) (name : String) : Bool := i.store.binds i.env name

def define (i : Interpreter) (name : String) (value : Value) : Interpreter :=
  { i with store := i.store.insert i.env name value }

def update (i : Interpreter) (home : Nat) (name : String) (value : Value) : Interpreter :=
  { i with store := i.store.update home name value }

def enter (i : Interpreter) (parent : Nat) : Interpreter :=
  let fresh := i.store.size
  { i with store := i.store.openScope (some parent), env := fresh }

/-- Opens a global scope beside the one of the interpreter. -/
def openGlobal (i : Interpreter) : Nat × Interpreter :=
  let fresh := i.store.size
  (fresh, { i with store := i.store.openScope none })

def moveTo (i : Interpreter) (env : Nat) : Interpreter := { i with env := env }

/-- Goes back to the scope that a call was made from. -/
def endCall (i : Interpreter) (env : Nat) : Interpreter :=
  { i with env := env, depth := i.depth - 1 }

def print (i : Interpreter) (line : String) : Interpreter :=
  { i with printed := i.printed.push line }

def printAll (i : Interpreter) (lines : List String) : Interpreter :=
  { i with printed := i.printed ++ lines }

/-- A callable value that is equal to no other one. -/
def fresh (i : Interpreter) (c : Callable) : Value × Interpreter :=
  (.callable i.supply c, { i with supply := i.supply + 1 })

def output (i : Interpreter) : String := i.printed.foldl (fun text line => text ++ line ++ "\n") ""

def clearOutput (i : Interpreter) : Interpreter := { i with printed := #[] }

/-- Binds parameters to arguments in the current scope, up to one whose name is taken. -/
def bindParams (i : Interpreter) : List (Token × Value) → Interpreter × Option Token
  | [] => (i, none)
  | (param, arg) :: rest =>
      if i.binds param.lexeme then (i, some param)
      else (i.define param.lexeme arg).bindParams rest

theorem bindParams_keeps (i : Interpreter) (pairs : List (Token × Value)) :
    ∃ store, (i.bindParams pairs).1 = { i with store := store } := by
  induction pairs generalizing i with
  | nil => exact ⟨i.store, rfl⟩
  | cons pair rest ih =>
      obtain ⟨param, arg⟩ := pair
      simp only [bindParams]
      split
      · exact ⟨i.store, rfl⟩
      · exact ih (i.define param.lexeme arg)

end Interpreter

end Jess
