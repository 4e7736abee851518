import Jess.Proofs.Moves
import Jess.Proofs.Runs
import Jess.Proofs.Scopes

/-!
# How a store grows

A step leaves the store as it is, binds a name in the current scope, changes a
binding, or opens a scope, which it may fill with parameters. So the scopes of a
store stay with all the names that they bind, and each stays inside of the same
one.
-/

namespace Jess

namespace Store

/-- The second store has the scopes of the first one, with all their names and in their places. -/
structure Grows (store later : Store) : Prop where
  size : store.size ≤ later.size
  parent : ∀ id, id < store.size → later.parent? id = store.parent? id
  binds : ∀ id name, store.binds id name = true → later.binds id name = true

variable {store middle later : Store}

theorem Grows.refl (store : Store) : store.Grows store :=
  ⟨Nat.le_refl _, fun _ _ => rfl, fun _ _ => id⟩

theorem Grows.trans (first : store.Grows middle) (second : middle.Grows later) :
    store.Grows later where
  size := Nat.le_trans first.size second.size
  parent id old :=
    (second.parent id (Nat.lt_of_lt_of_le old first.size)).trans (first.parent id old)
  binds id name bound := second.binds id name (first.binds id name bound)

variable (store) (id : Nat) (name : String) (v : Value)

theorem insert_grows : store.Grows (store.insert id name v) where
  size := Nat.le_of_eq (store.modify_size ..).symm
  parent place _ := store.modify_parent? id _ _ place
  binds place other bound := (store.insert_binds id name v place other).mpr (.inl bound)

theorem update_grows : store.Grows (store.update id name v) where
  size := Nat.le_of_eq (store.modify_size ..).symm
  parent place _ := store.modify_parent? id _ _ place
  binds place other bound := (store.update_binds id name v place other).trans bound

theorem openScope_grows (parent : Option Nat) : store.Grows (store.openScope parent) where
  size := Nat.le_of_lt (Nat.lt_of_lt_of_eq (Nat.lt_succ_self _) (store.openScope_size parent).symm)
  parent _ old := store.openScope_parent? parent old
  binds place other bound := (store.openScope_binds parent place other).trans bound

end Store

namespace Interpreter

variable (i : Interpreter) (pairs : List (Token × Value))

theorem bindParams_grows : i.store.Grows (i.bindParams pairs).1.store := by
  induction pairs generalizing i with
  | nil => exact .refl i.store
  | cons pair rest ih =>
      simp only [bindParams]
      split
      · exact .refl i.store
      · exact (i.store.insert_grows i.env _ _).trans (ih (i.define _ _))

theorem bindParams_binds {place : Nat} (apart : place ≠ i.env) (name : String) :
    (i.bindParams pairs).1.store.binds place name = i.store.binds place name := by
  induction pairs generalizing i with
  | nil => rfl
  | cons pair rest ih =>
      obtain ⟨param, arg⟩ := pair
      simp only [bindParams]
      split
      · rfl
      · have bound := i.store.insert_binds i.env param.lexeme arg place name
        rw [ih (i.define param.lexeme arg) apart]
        exact Bool.eq_iff_iff.mpr (bound.trans (or_iff_left fun here => apart here.1))

end Interpreter

/-- What is run next binds a name in the current scope. -/
inductive Control.Declares : Control → String → Prop
  | missing (name : Token) (k : StmtCont) : Declares (.execute (.declare name none) k) name.lexeme
  | given (v : Value) (name : Token) (k : StmtCont) :
      Declares (.deliver v (.declare name k)) name.lexeme
  | function (name : Token) (params : List Token) (body : List Stmt) (k : StmtCont) :
      Declares (.execute (.function name params body) k) name.lexeme

namespace Machine

/-- The stores that one step may lead to. -/
inductive Edits (control : Control) (i : Interpreter) : Store → Prop
  | same : Edits control i i.store
  | binds {name : String} (declares : control.Declares name) (free : i.binds name = false) (v : Value) :
      Edits control i (i.store.insert i.env name v)
  | changes (home : Nat) (name : String) (v : Value) : Edits control i (i.store.update home name v)
  | opens (parent : Nat) : Edits control i (i.store.openScope (some parent))
  | calls (closure : Nat) (pairs : List (Token × Value)) :
      Edits control i ((i.enter closure).bindParams pairs).1.store

variable {i : Interpreter} {control : Control}

theorem Edits.kept {store : Store} (kept : store = i.store) : Edits control i store := by
  rw [kept]
  exact .same

theorem Edits.grows {store : Store} (edits : Edits control i store) : i.store.Grows store := by
  cases edits with
  | same => exact .refl i.store
  | binds _ _ v => exact i.store.insert_grows i.env _ v
  | changes home name v => exact i.store.update_grows home name v
  | opens parent => exact i.store.openScope_grows (some parent)
  | calls closure pairs =>
      exact (i.store.openScope_grows (some closure)).trans ((i.enter closure).bindParams_grows pairs)

/-- A name is bound in one more of the old scopes only where it is declared. -/
theorem Edits.binds_or {store : Store} (edits : Edits control i store) {place : Nat}
    (old : place < i.store.size) (name : String) :
    store.binds place name = i.store.binds place name ∨
      place = i.env ∧ control.Declares name := by
  cases edits with
  | same => exact .inl rfl
  | @binds bound declares free v =>
      by_cases here : place = i.env ∧ name = bound
      · obtain ⟨rfl, rfl⟩ := here
        exact .inr ⟨rfl, declares⟩
      · have grown := i.store.insert_binds i.env bound v place name
        refine .inl (Bool.eq_iff_iff.mpr (grown.trans (or_iff_left fun new => here ?_)))
        exact ⟨new.1, new.2.2⟩
  | changes home name' v => exact .inl (i.store.update_binds home name' v place name)
  | opens parent => exact .inl (i.store.openScope_binds (some parent) place name)
  | calls closure pairs =>
      have filled := (i.enter closure).bindParams_binds pairs (Nat.ne_of_lt old) name
      exact .inl (filled.trans (i.store.openScope_binds (some closure) place name))

section Functions

variable {k : ValueCont}

theorem deliverOr_store (result : Except Fault.Cause Value) (operator : Token) :
    (deliverOr result operator k i).interpreter.store = i.store := by
  cases result <;> rfl

theorem evaluate_store (e : Expr) : (evaluate e k i).interpreter.store = i.store := by
  cases e with
  | «variable» name =>
      cases found : i.store.get? i.env name.lexeme with
      | some v => rw [evaluate_found found]
      | none =>
          rw [evaluate_unfound found]
          rfl
  | _ => rfl

theorem raise_store (f : Fault) : (raise f k i).interpreter.store = i.store := by
  cases k <;> rfl

theorem callNative_store (n : Native) (args : List Value) :
    (callNative n args k i).interpreter.store = i.store := rfl

theorem callFunction_edits (f : Function) (closure : Nat) (args : List Value) :
    Edits control i (callFunction f closure args k i).interpreter.store := by
  have filled : Edits control i ((i.enter closure).bindParams (f.params.zip args)).1.store :=
    .calls closure _
  cases bound : (i.enter closure).bindParams (f.params.zip args) with
  | mk j clash =>
      rw [bound] at filled
      cases clash with
      | none =>
          rw [callFunction_bound bound]
          exact filled
      | some clash =>
          rw [callFunction_clash bound]
          exact filled

theorem call_edits (callee : Value) (args : List Value) (paren : Token) :
    Edits control i (call callee args paren k i).interpreter.store := by
  obtain ⟨cause, raises⟩ | ⟨n, starts⟩ | ⟨f, closure, starts⟩ := call_cases callee args paren k i
  · rw [raises]
    exact .same
  · rw [starts]
    exact .kept (callNative_store n args)
  · rw [starts]
    exact callFunction_edits f closure args

theorem callNext_edits (callee : Value) (done : List Value) (rest : List Expr) (paren : Token) :
    Edits control i (callNext callee done rest paren k i).interpreter.store := by
  cases rest with
  | nil => exact call_edits callee done.reverse paren
  | cons arg rest => exact .same

end Functions

section Statements

variable {k : StmtCont}

theorem finish_store (c : Completion) : (finish c k i).interpreter.store = i.store := by
  unfold finish
  split <;> try rfl
  all_goals split <;> rfl

theorem abandon_store (f : Fault) : (abandon f k i).interpreter.store = i.store := by
  cases k <;> rfl

theorem declare_edits {name : Token} (declares : control.Declares name.lexeme) (v : Value)
    (supply : Nat) :
    Edits control i (declare name v k { i with supply := supply }).interpreter.store := by
  cases bound : i.binds name.lexeme with
  | true =>
      rw [declare_taken (i := { i with supply := supply }) bound]
      exact .same
  | false =>
      rw [declare_free (i := { i with supply := supply }) bound]
      exact .binds declares bound v

theorem execute_edits (s : Stmt) :
    Edits (.execute s k) i (execute s k i).interpreter.store := by
  cases s with
  | declare name initializer =>
      cases initializer with
      | none => exact declare_edits (.missing name k) .nil i.supply
      | some e => exact .same
  | block body => exact .opens i.env
  | function name params body =>
      exact declare_edits (.function name params body k) _ (i.supply + 1)
  | giveBack keyword value => cases value <;> exact .same
  | _ => exact .same

end Statements

theorem deliver_edits (v : Value) (k : ValueCont) :
    Edits (.deliver v k) i (deliver v k i).interpreter.store := by
  cases k with
  | declare name k => exact declare_edits (.given v name k) v i.supply
  | branch thenBranch elseBranch k =>
      obtain next | ⟨other, _, next⟩ | next := branch_cases v thenBranch elseBranch k
      all_goals
        rw [next]
        exact .same
  | test condition body k =>
      obtain next | next := test_cases v condition body k
      all_goals
        rw [next]
        exact .same
  | unary op operator k => exact .kept (deliverOr_store (op.apply v) operator)
  | right op operator left k => exact .kept (deliverOr_store (op.apply left v) operator)
  | decide op right k =>
      obtain next | next := decide_cases v op right k
      all_goals
        rw [next]
        exact .same
  | assign name k =>
      cases found : i.store.resolve i.env name.lexeme with
      | some home =>
          rw [assign_found found]
          exact .changes home name.lexeme v
      | none =>
          rw [assign_unfound found]
          exact .same
  | callee paren args k => exact callNext_edits v [] args paren
  | argument callee done rest paren k => exact callNext_edits callee (v :: done) rest paren
  | _ => exact .same

theorem step_edits (m : Machine) : Edits m.control m.interpreter m.step.interpreter.store := by
  obtain ⟨control, i⟩ := m
  cases control with
  | evaluate e k => exact .kept (evaluate_store e)
  | execute s k => exact execute_edits s
  | deliver v k => exact deliver_edits v k
  | finish c k => exact .kept (finish_store c)
  | raise f k => exact .kept (raise_store f)
  | abandon f k => exact .kept (abandon_store f)
  | halted a => exact .same

theorem Reaches.grows {m n : Machine} (reaches : Reaches m n) :
    m.interpreter.store.Grows n.interpreter.store := by
  induction reaches with
  | refl => exact .refl _
  | step _ ih => exact (step_edits _).grows.trans ih

end Machine
end Jess
