import Jess.Value

/-!
Scopes. A store holds all scopes that a program ever opened, and a scope is known by its
place in the store. A scope is opened inside of an older one, so the chain of enclosing
scopes from any scope ends in a global one. A name stands for the nearest binding on the
chain.
-/

namespace Jess

structure Scope where
  bindings : List (String × Value)
  parent : Option Nat

namespace Scope

def get? (s : Scope) (name : String) : Option Value := s.bindings.lookup name

def binds (s : Scope) (name : String) : Bool := (s.get? name).isSome

def insert (s : Scope) (name : String) (value : Value) : Scope :=
  { s with bindings := (name, value) :: s.bindings }

def update (s : Scope) (name : String) (value : Value) : Scope :=
  { s with bindings := s.bindings.map fun b => if b.1 == name then (b.1, value) else b }

theorem get?_insert (s : Scope) (name other : String) (value : Value) :
    (s.insert name value).get? other = if other = name then some value else s.get? other := by
  simp only [get?, insert, List.lookup_cons]
  by_cases same : other = name
  · simp only [same, BEq.rfl, if_true]
  · simp only [same, beq_eq_false_iff_ne.mpr same, if_false]

theorem get?_update (s : Scope) (name other : String) (value : Value) :
    (s.update name value).get? other =
      if other = name then (s.get? other).map fun _ => value else s.get? other := by
  obtain ⟨bindings, parent⟩ := s
  simp only [get?, update]
  induction bindings with
  | nil => simp
  | cons b rest ih =>
      obtain ⟨key, old⟩ := b
      simp only [List.map_cons]
      by_cases renewed : key = name
      · subst renewed
        by_cases same : other = key
        · simp [same]
        · simpa [List.lookup_cons, same, beq_eq_false_iff_ne.mpr same] using ih
      · by_cases same : other = key
        · subst same
          simp [renewed]
        · simpa [List.lookup_cons, renewed, beq_eq_false_iff_ne.mpr same] using ih

end Scope

structure Store where
  scopes : Array Scope
  parent_lt : ∀ (id : Nat) (scope : Scope) (parent : Nat),
    scopes[id]? = some scope → scope.parent = some parent → parent < id

namespace Store

def empty : Store := ⟨#[], by simp⟩

/-- The number of scopes, which is also the place of the next one. -/
def size (store : Store) : Nat := store.scopes.size

/-- Opens a scope inside of another one, or a global scope. -/
def openScope (store : Store) (parent : Option Nat) : Store where
  scopes := store.scopes.push ⟨[], parent.filter (· < store.scopes.size)⟩
  parent_lt := by
    intro id scope place found enclosed
    rw [Array.getElem?_push] at found
    split at found
    · rename_i same
      cases Option.some.inj found
      obtain ⟨_, inside⟩ := Option.filter_eq_some_iff.mp enclosed
      simpa [same] using inside
    · exact store.parent_lt id scope place found enclosed

/-- Replaces a scope by one with the same parent. -/
def modify (store : Store) (id : Nat) (f : Scope → Scope)
    (keeps : ∀ scope, (f scope).parent = scope.parent) : Store where
  scopes := store.scopes.modify id f
  parent_lt := by
    intro place scope parent found enclosed
    rw [Array.getElem?_modify] at found
    split at found
    · obtain ⟨old, held, rfl⟩ := Option.map_eq_some_iff.mp found
      exact store.parent_lt place old parent held (keeps old ▸ enclosed)
    · exact store.parent_lt place scope parent found enclosed

def binds (store : Store) (id : Nat) (name : String) : Bool :=
  match store.scopes[id]? with
  | none => false
  | some scope => scope.binds name

/-- The nearest scope on the chain that binds a name. -/
def resolve (store : Store) (id : Nat) (name : String) : Option Nat :=
  match _found : store.scopes[id]? with
  | none => none
  | some scope =>
      if scope.binds name then some id
      else match _enclosed : scope.parent with
        | none => none
        | some parent => store.resolve parent name
termination_by id
decreasing_by exact store.parent_lt id scope parent _found _enclosed

def get? (store : Store) (id : Nat) (name : String) : Option Value :=
  match store.resolve id name with
  | none => none
  | some home =>
      match store.scopes[home]? with
      | none => none
      | some scope => scope.get? name

def insert (store : Store) (id : Nat) (name : String) (value : Value) : Store :=
  store.modify id (·.insert name value) fun _ => rfl

def update (store : Store) (id : Nat) (name : String) (value : Value) : Store :=
  store.modify id (·.update name value) fun _ => rfl

def define? (store : Store) (id : Nat) (name : String) (value : Value) : Option Store :=
  if store.binds id name then none else some (store.insert id name value)

def assign? (store : Store) (id : Nat) (name : String) (value : Value) : Option Store :=
  (store.resolve id name).map fun home => store.update home name value

end Store

end Jess
