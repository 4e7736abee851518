import Jess.Interpreter
import Jess.Proofs.Scopes
import Mathlib.Data.Set.Defs
import Mathlib.Logic.Relation

/-!
# What can be reached in a store

From a scope one comes to the scope around it, and to the scopes of the
functions that it binds. A region that none of these ways leads out of stays
such a one when a value is bound inside of it whose function, if it is one, was
declared inside of it. What names stand for inside of the region is told by the
scopes of the region, and changes inside of it leave all other scopes as they are.
-/

namespace Jess

def Value.closure? : Value → Option Nat
  | .callable _ (.function _ closure) => some closure
  | _ => none

namespace Store

/-- The ways that lead on from a scope. -/
inductive Leads (store : Store) (id : Nat) : Nat → Prop
  | parent {scope : Scope} {next : Nat} (found : store.scopes[id]? = some scope)
      (enclosed : scope.parent = some next) : Leads store id next
  | closure {scope : Scope} {name : String} {v : Value} {next : Nat}
      (found : store.scopes[id]? = some scope) (bound : scope.get? name = some v)
      (declared : v.closure? = some next) : Leads store id next

/-- The scopes that some number of these ways lead to. -/
def Reachable (store : Store) : Nat → Nat → Prop := Relation.ReflTransGen store.Leads

end Store

/-- A value that does not lead out of a region. -/
def Value.StaysIn (region : Set Nat) (v : Value) : Prop := ∀ id, v.closure? = some id → id ∈ region

structure Scope.StaysIn (region : Set Nat) (scope : Scope) : Prop where
  parent : ∀ id, scope.parent = some id → id ∈ region
  values : ∀ name v, scope.get? name = some v → v.StaysIn region

namespace Scope

variable {region : Set Nat} {scope : Scope} {v : Value}

theorem StaysIn.insert (stays : scope.StaysIn region) (name : String) (value : v.StaysIn region) :
    (scope.insert name v).StaysIn region where
  parent := stays.parent
  values other w bound := by
    rw [get?_insert] at bound
    split at bound
    · cases bound
      exact value
    · exact stays.values other w bound

theorem StaysIn.update (stays : scope.StaysIn region) (name : String) (value : v.StaysIn region) :
    (scope.update name v).StaysIn region where
  parent := stays.parent
  values other w bound := by
    rw [get?_update] at bound
    split at bound
    · obtain ⟨_, _, rfl⟩ := Option.map_eq_some_iff.mp bound
      exact value
    · exact stays.values other w bound

end Scope

namespace Store

/-- A region that no scope of it leads out of. A scope that is yet to be opened lies in it. -/
structure Closed (store : Store) (region : Set Nat) : Prop where
  scopes : ∀ id ∈ region, ∀ scope, store.scopes[id]? = some scope → scope.StaysIn region
  fresh : ∀ id, store.size ≤ id → id ∈ region

/-- Stores with as many scopes that are the same ones in a region. -/
structure AgreesOn (region : Set Nat) (store other : Store) : Prop where
  size : other.size = store.size
  scopes : ∀ id ∈ region, other.scopes[id]? = store.scopes[id]?

theorem AgreesOn.refl (region : Set Nat) (store : Store) : AgreesOn region store store :=
  ⟨rfl, fun _ _ => rfl⟩

variable {region : Set Nat} {store other : Store}

theorem Closed.reachable (closed : store.Closed region) {start id : Nat} (inside : start ∈ region)
    (reachable : store.Reachable start id) : id ∈ region := by
  induction reachable with
  | refl => exact inside
  | tail _ leads ih =>
      cases leads with
      | parent found enclosed => exact (closed.scopes _ ih _ found).parent _ enclosed
      | closure found bound declared => exact (closed.scopes _ ih _ found).values _ _ bound _ declared

/-- What can be reached from a scope, with what is yet to be opened. -/
def territory (store : Store) (env : Nat) : Set Nat :=
  {id | store.Reachable env id ∨ store.size ≤ id}

theorem territory_closed (store : Store) (env : Nat) : store.Closed (store.territory env) where
  fresh _ above := .inr above
  scopes id inside scope found := by
    obtain reachable | outside := inside
    · exact ⟨fun _ enclosed => .inl (reachable.tail (.parent found enclosed)),
        fun _ _ bound _ declared => .inl (reachable.tail (.closure found bound declared))⟩
    · rw [Array.getElem?_eq_none_iff.mpr outside] at found
      cases found

theorem territory_env (store : Store) (env : Nat) : env ∈ store.territory env := .inl .refl

section Lookup

variable (closed : store.Closed region) {id : Nat} (inside : id ∈ region) (name : String)

include closed inside

theorem Closed.resolve :
    (∀ home, store.resolve id name = some home → home ∈ region) ∧
      ∀ other, AgreesOn region store other → other.resolve id name = store.resolve id name := by
  induction id using Nat.strongRecOn with
  | ind id ih =>
      cases found : store.scopes[id]? with
      | none =>
          refine ⟨fun home same => ?_, fun other agrees => ?_⟩
          · rw [store.resolve_missing name found] at same
            cases same
          · rw [store.resolve_missing name found,
              other.resolve_missing name ((agrees.scopes id inside).trans found)]
      | some scope =>
          have seen : ∀ other, AgreesOn region store other → other.scopes[id]? = some scope :=
            fun other agrees => (agrees.scopes id inside).trans found
          cases bound : scope.binds name with
          | true =>
              rw [store.resolve_here name found bound]
              refine ⟨fun home same => ?_, fun other agrees => ?_⟩
              · cases same
                exact inside
              · exact other.resolve_here name (seen other agrees) bound
          | false =>
              cases enclosed : scope.parent with
              | none =>
                  rw [store.resolve_top name found bound enclosed]
                  exact ⟨nofun, fun other agrees =>
                    other.resolve_top name (seen other agrees) bound enclosed⟩
              | some parent =>
                  have below := store.parent_lt id scope parent found enclosed
                  have around := (closed.scopes id inside scope found).parent parent enclosed
                  obtain ⟨home, same⟩ := ih parent below around
                  rw [store.resolve_up name found bound enclosed]
                  refine ⟨home, fun other agrees => ?_⟩
                  rw [other.resolve_up name (seen other agrees) bound enclosed, same other agrees]

theorem Closed.get? :
    (∀ v, store.get? id name = some v → v.StaysIn region) ∧
      ∀ other, AgreesOn region store other → other.get? id name = store.get? id name := by
  obtain ⟨home, same⟩ := closed.resolve inside name
  unfold Store.get?
  refine ⟨fun v found => ?_, fun other agrees => ?_⟩
  · split at found
    · cases found
    · rename_i place resolved
      split at found
      · cases found
      · rename_i scope held
        exact (closed.scopes place (home place resolved) scope held).values name v found
  · rw [same other agrees]
    split
    · rfl
    · rename_i place resolved
      rw [agrees.scopes place (home place resolved)]

omit closed in
theorem AgreesOn.binds (agrees : AgreesOn region store other) :
    other.binds id name = store.binds id name := by
  unfold Store.binds
  rw [agrees.scopes id inside]

end Lookup

/-- What a change of a store leaves as it was, and what it has to do only with: it keeps a region
closed, changes no other scope, and does the same to every store that agrees on the region. -/
structure Local (region : Set Nat) (store : Store) (change : Store → Store) : Prop where
  closed : (change store).Closed region
  frame : ∀ id, id ∉ region → (change store).scopes[id]? = store.scopes[id]?
  agrees : ∀ other, AgreesOn region store other → AgreesOn region (change store) (change other)

theorem modify_local (closed : store.Closed region) {id : Nat} (inside : id ∈ region)
    (f : Scope → Scope) (keeps : ∀ scope, (f scope).parent = scope.parent)
    (stays : ∀ scope, scope.StaysIn region → (f scope).StaysIn region) :
    Local region store fun s => s.modify id f keeps where
  closed := by
    constructor
    · intro place known scope found
      rw [modify_scope] at found
      split at found
      · obtain ⟨old, held, rfl⟩ := Option.map_eq_some_iff.mp found
        exact stays old (closed.scopes place known old held)
      · exact closed.scopes place known scope found
    · intro place above
      rw [modify_size] at above
      exact closed.fresh place above
  frame place outside := by
    have apart : id ≠ place := fun same => outside (same ▸ inside)
    rw [modify_scope, if_neg apart]
  agrees other agrees := by
    constructor
    · rw [modify_size, modify_size, agrees.size]
    · intro place known
      rw [modify_scope, modify_scope, agrees.scopes place known]

section Bindings

variable (closed : store.Closed region) {id : Nat} (inside : id ∈ region) (name : String)
  {v : Value} (value : v.StaysIn region)

include closed inside value

theorem insert_local : Local region store fun s => s.insert id name v :=
  modify_local closed inside _ _ fun _ stays => stays.insert name value

theorem update_local : Local region store fun s => s.update id name v :=
  modify_local closed inside _ _ fun _ stays => stays.update name value

end Bindings

theorem openScope_local (closed : store.Closed region) {parent : Nat} (inside : parent ∈ region) :
    Local region store fun s => s.openScope (some parent) where
  closed := by
    constructor
    · intro place known scope found
      rw [openScope_scope] at found
      split at found
      · cases found
        refine ⟨fun id enclosed => ?_, fun _ _ bound => by cases bound⟩
        have kept : (some parent).filter (· < store.size) = some id := enclosed
        cases (Option.filter_eq_some_iff.mp kept).1
        exact inside
      · exact closed.scopes place known scope found
    · intro place above
      rw [openScope_size] at above
      exact closed.fresh place (Nat.le_of_succ_le above)
  frame place outside := by
    refine openScope_old _ _ fun same => outside ?_
    exact closed.fresh place (Nat.le_of_eq same.symm)
  agrees other agrees := by
    constructor
    · rw [openScope_size, openScope_size, agrees.size]
    · intro place known
      rw [openScope_scope, openScope_scope, agrees.size, agrees.scopes place known]

end Store

end Jess
