import Jess.Scope

/-!
# Laws of stores

What a store answers after a change is told from what it answered before: which
scope a name is found in, one step along the chain at a time, and which scopes
are there once a scope was changed or opened.
-/

namespace Jess

section Resolve

variable (store : Store) (name : String) {id : Nat} {scope : Scope}

theorem Store.resolve_missing (missing : store.scopes[id]? = none) :
    store.resolve id name = none := by
  rw [Store.resolve]
  split
  · rfl
  · rename_i found
    rw [missing] at found
    cases found

theorem Store.resolve_here (found : store.scopes[id]? = some scope)
    (bound : scope.binds name = true) : store.resolve id name = some id := by
  rw [Store.resolve]
  split
  · rename_i missing
    rw [found] at missing
    cases missing
  · rename_i other found'
    rw [found] at found'
    cases found'
    rw [if_pos bound]

theorem Store.resolve_top (found : store.scopes[id]? = some scope)
    (unbound : scope.binds name = false) (top : scope.parent = none) :
    store.resolve id name = none := by
  rw [Store.resolve]
  split
  · rfl
  · rename_i other found'
    rw [found] at found'
    cases found'
    rw [if_neg (by simp [unbound])]
    split
    · rfl
    · rename_i parent enclosed
      rw [top] at enclosed
      cases enclosed

theorem Store.resolve_up (found : store.scopes[id]? = some scope)
    (unbound : scope.binds name = false) {parent : Nat} (enclosed : scope.parent = some parent) :
    store.resolve id name = store.resolve parent name := by
  rw [Store.resolve]
  split
  · rename_i missing
    rw [found] at missing
    cases missing
  · rename_i other found'
    rw [found] at found'
    cases found'
    rw [if_neg (by simp [unbound])]
    split
    · rename_i top
      rw [enclosed] at top
      cases top
    · rename_i other enclosed'
      rw [enclosed] at enclosed'
      cases enclosed'
      rfl

end Resolve

section Changes

variable (store : Store)

theorem Store.modify_size (id : Nat) (f : Scope → Scope)
    (keeps : ∀ scope, (f scope).parent = scope.parent) :
    (store.modify id f keeps).size = store.size := by
  simp only [Store.modify, Store.size, Array.size_modify]

theorem Store.modify_scope (id : Nat) (f : Scope → Scope)
    (keeps : ∀ scope, (f scope).parent = scope.parent) (place : Nat) :
    (store.modify id f keeps).scopes[place]? =
      if id = place then store.scopes[place]?.map f else store.scopes[place]? := by
  simp only [Store.modify, Array.getElem?_modify]

theorem Store.openScope_size (parent : Option Nat) :
    (store.openScope parent).size = store.size + 1 := by
  simp [Store.openScope, Store.size]

theorem Store.openScope_scope (parent : Option Nat) (n : Nat) :
    (store.openScope parent).scopes[n]? =
      if n = store.size then some ⟨[], parent.filter (· < store.size)⟩ else store.scopes[n]? := by
  simp only [Store.openScope, Store.size]
  exact Array.getElem?_push

theorem Store.openScope_fresh (parent : Option Nat) :
    (store.openScope parent).scopes[store.size]? =
      some ⟨[], parent.filter (· < store.size)⟩ := by
  rw [Store.openScope_scope, if_pos rfl]

theorem Store.openScope_old (parent : Option Nat) {n : Nat} (old : n ≠ store.size) :
    (store.openScope parent).scopes[n]? = store.scopes[n]? := by
  rw [Store.openScope_scope, if_neg old]

def Store.parent? (id : Nat) : Option Nat := store.scopes[id]?.bind Scope.parent

theorem Store.modify_parent? (id : Nat) (f : Scope → Scope)
    (keeps : ∀ scope, (f scope).parent = scope.parent) (place : Nat) :
    (store.modify id f keeps).parent? place = store.parent? place := by
  unfold Store.parent?
  rw [Store.modify_scope]
  split
  · cases store.scopes[place]? with
    | none => rfl
    | some scope => exact keeps scope
  · rfl

theorem Store.insert_scope (id : Nat) (name : String) (v : Value) (place : Nat) :
    (store.insert id name v).scopes[place]? =
      if id = place then store.scopes[place]?.map (·.insert name v) else store.scopes[place]? :=
  store.modify_scope id _ _ place

theorem Store.update_scope (id : Nat) (name : String) (v : Value) (place : Nat) :
    (store.update id name v).scopes[place]? =
      if id = place then store.scopes[place]?.map (·.update name v) else store.scopes[place]? :=
  store.modify_scope id _ _ place

theorem Store.insert_binds (id : Nat) (name : String) (v : Value) (place : Nat) (other : String) :
    (store.insert id name v).binds place other = true ↔
      store.binds place other = true ∨ place = id ∧ place < store.size ∧ other = name := by
  unfold Store.binds
  rw [Store.insert_scope]
  cases found : store.scopes[place]? with
  | none =>
      have outside : store.size ≤ place := Array.getElem?_eq_none_iff.mp found
      simp [Nat.not_lt.mpr outside]
  | some scope =>
      have inside : place < store.size := (Array.getElem?_eq_some_iff.mp found).1
      by_cases here : id = place
      · subst here
        simp only [if_true, Option.map_some, Scope.binds, Scope.get?_insert]
        by_cases same : other = name
        · simp [same, inside]
        · simp [same]
      · simp [here, Ne.symm here]

theorem Store.update_binds (id : Nat) (name : String) (v : Value) (place : Nat) (other : String) :
    (store.update id name v).binds place other = store.binds place other := by
  unfold Store.binds
  rw [Store.update_scope]
  cases store.scopes[place]? with
  | none => simp
  | some scope =>
      by_cases here : id = place
      · simp only [here, if_true, Option.map_some, Scope.binds, Scope.get?_update]
        split
        · rw [Option.isSome_map]
        · rfl
      · simp only [here, if_false]

theorem Store.openScope_binds (parent : Option Nat) (place : Nat) (name : String) :
    (store.openScope parent).binds place name = store.binds place name := by
  unfold Store.binds
  rw [Store.openScope_scope]
  by_cases fresh : place = store.size
  · have missing : store.scopes[place]? = none :=
      Array.getElem?_eq_none_iff.mpr (Nat.le_of_eq fresh.symm)
    rw [if_pos fresh, missing]
    rfl
  · rw [if_neg fresh]

theorem Store.openScope_parent? (parent : Option Nat) {place : Nat} (old : place < store.size) :
    (store.openScope parent).parent? place = store.parent? place := by
  unfold Store.parent?
  rw [Store.openScope_old store parent (Nat.ne_of_lt old)]

theorem Store.openScope_parent {outer : Nat} (inside : outer < store.size) :
    (store.openScope (some outer)).parent? store.size = some outer := by
  unfold Store.parent?
  rw [store.openScope_fresh, Option.bind_some]
  change Option.filter (· < store.size) (some outer) = some outer
  exact Option.filter_eq_some_iff.mpr ⟨rfl, decide_eq_true inside⟩

theorem Store.exists_scope_of_binds {id : Nat} {name : String}
    (bound : store.binds id name = true) :
    ∃ scope, store.scopes[id]? = some scope ∧ scope.binds name = true := by
  unfold Store.binds at bound
  split at bound
  · cases bound
  · rename_i scope found
    exact ⟨scope, found, bound⟩

theorem Store.binds_beyond {id : Nat} (beyond : store.size ≤ id) (name : String) :
    store.binds id name = false := by
  refine Bool.eq_false_iff.mpr fun bound => ?_
  obtain ⟨scope, found, _⟩ := store.exists_scope_of_binds bound
  exact absurd (Array.getElem?_eq_some_iff.mp found).1 (Nat.not_lt.mpr beyond)

theorem Store.openScope_binds_fresh (parent : Option Nat) (name : String) :
    (store.openScope parent).binds store.size name = false :=
  (store.openScope_binds parent store.size name).trans (store.binds_beyond (Nat.le_refl _) name)

end Changes

end Jess
