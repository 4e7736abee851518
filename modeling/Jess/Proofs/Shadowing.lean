import Jess.Proofs.Growth

/-!
# Names that are shadowed

A name is looked for along the chain of scopes each time that it is used, and
scopes only gain names. So what a name stands for from a scope stays, unless
the name is declared in a scope of the chain that comes before the one where it
was found, and then it stands for the binding in such a scope.
-/

namespace Jess

namespace Store

inductive Resolves (store : Store) (name : String) : Nat → Nat → Prop
  | here {id : Nat} (bound : store.binds id name = true) : Resolves store name id id
  | up {id outer home : Nat} (unbound : store.binds id name = false)
      (enclosed : store.parent? id = some outer) (later : Resolves store name outer home) :
      Resolves store name id home

/-- A scope of the chain from `id` that comes before the scope `home`. -/
inductive Nearer (store : Store) (home : Nat) : Nat → Nat → Prop
  | here {id : Nat} (before : id ≠ home) : Nearer store home id id
  | up {id outer place : Nat} (before : id ≠ home) (enclosed : store.parent? id = some outer)
      (later : Nearer store home outer place) : Nearer store home id place

section Lookup

variable (store : Store) (name : String) {id : Nat}

theorem parent?_lt {outer : Nat} (enclosed : store.parent? id = some outer) :
    outer < id ∧ id < store.size := by
  obtain ⟨scope, found, parent⟩ := Option.bind_eq_some_iff.mp enclosed
  exact ⟨store.parent_lt id scope outer found parent, (Array.getElem?_eq_some_iff.mp found).1⟩

theorem resolve_bound (bound : store.binds id name = true) : store.resolve id name = some id := by
  obtain ⟨scope, found, binds⟩ := store.exists_scope_of_binds bound
  exact store.resolve_here name found binds

theorem resolve_unbound (unbound : store.binds id name = false) :
    store.resolve id name = (store.parent? id).bind fun outer => store.resolve outer name := by
  unfold Store.parent?
  cases found : store.scopes[id]? with
  | none => exact store.resolve_missing name found
  | some scope =>
      have free : scope.binds name = false := by
        unfold Store.binds at unbound
        rwa [found] at unbound
      cases enclosed : scope.parent with
      | none => simp only [store.resolve_top name found free enclosed, Option.bind_some, enclosed,
          Option.bind_none]
      | some outer =>
          simp only [store.resolve_up name found free enclosed, Option.bind_some, enclosed]

theorem resolve_eq_some_iff {home : Nat} :
    store.resolve id name = some home ↔ store.Resolves name id home := by
  constructor
  · intro found
    induction id using Nat.strongRecOn with
    | ind id ih =>
        cases bound : store.binds id name with
        | true =>
            rw [store.resolve_bound name bound] at found
            cases found
            exact .here bound
        | false =>
            rw [store.resolve_unbound name bound] at found
            obtain ⟨outer, enclosed, found⟩ := Option.bind_eq_some_iff.mp found
            exact .up bound enclosed (ih outer (store.parent?_lt enclosed).1 found)
  · intro resolves
    induction resolves with
    | here bound => exact store.resolve_bound name bound
    | up unbound enclosed _ ih =>
        rw [store.resolve_unbound name unbound, enclosed]
        exact ih

end Lookup

section Grows

variable {store later : Store} {name : String} {id home place : Nat}

theorem Resolves.inside (resolves : store.Resolves name id home) :
    id < store.size ∧ store.binds home name = true := by
  induction resolves with
  | here bound =>
      obtain ⟨scope, found, _⟩ := store.exists_scope_of_binds bound
      exact ⟨(Array.getElem?_eq_some_iff.mp found).1, bound⟩
  | up _ enclosed _ ih => exact ⟨(store.parent?_lt enclosed).2, ih.2⟩

theorem Nearer.ne (nearer : store.Nearer home id place) : place ≠ home := by
  induction nearer with
  | here before => exact before
  | up _ _ _ ih => exact ih

theorem Nearer.le (nearer : store.Nearer home id place) : place ≤ id := by
  induction nearer with
  | here _ => exact Nat.le_refl _
  | up _ enclosed _ ih => exact Nat.le_trans ih (Nat.le_of_lt (store.parent?_lt enclosed).1)

theorem Resolves.free (resolves : store.Resolves name id home) (nearer : store.Nearer home id place) :
    store.binds place name = false := by
  induction resolves with
  | here _ =>
      cases nearer with
      | here before => exact absurd rfl before
      | up before _ _ => exact absurd rfl before
  | up unbound enclosed _ ih =>
      cases nearer with
      | here _ => exact unbound
      | up _ enclosed' nearer =>
          rw [enclosed] at enclosed'
          cases enclosed'
          exact ih nearer

/-- In a store that has grown a name is found in the same scope, or in one before it. -/
theorem Resolves.grows (resolves : store.Resolves name id home) (grows : store.Grows later) :
    (later.Resolves name id home ∧
        ∀ place, store.Nearer home id place → later.binds place name = false) ∨
      ∃ nearer, later.Resolves name id nearer ∧ store.Nearer home id nearer := by
  induction resolves with
  | here bound =>
      refine .inl ⟨.here (grows.binds _ name bound), fun place nearer => ?_⟩
      cases nearer with
      | here before => exact absurd rfl before
      | up before _ _ => exact absurd rfl before
  | @up id outer home unbound enclosed resolves ih =>
      have apart : id ≠ home := by
        rintro rfl
        exact Bool.false_ne_true (unbound.symm.trans resolves.inside.2)
      cases bound : later.binds id name with
      | true => exact .inr ⟨id, .here bound, .here apart⟩
      | false =>
          have stays : later.parent? id = some outer :=
            (grows.parent id (store.parent?_lt enclosed).2).trans enclosed
          obtain ⟨same, free⟩ | ⟨nearer, found, before⟩ := ih
          · refine .inl ⟨.up bound stays same, fun place nearer => ?_⟩
            cases nearer with
            | here _ => exact bound
            | up _ enclosed' nearer =>
                rw [enclosed] at enclosed'
                cases enclosed'
                exact free place nearer
          · exact .inr ⟨nearer, .up bound stays found, .up apart enclosed before⟩

end Grows

end Store

namespace Machine

variable {m n : Machine} {name : String}

theorem declare_binds {i : Interpreter} (inside : i.env < i.store.size) (name : Token) (v : Value)
    (k : StmtCont) : (declare name v k i).interpreter.store.binds i.env name.lexeme = true := by
  cases bound : i.binds name.lexeme with
  | true =>
      rw [declare_taken bound]
      exact bound
  | false =>
      rw [declare_free bound]
      exact (i.store.insert_binds i.env name.lexeme v i.env name.lexeme).mpr (.inr ⟨rfl, inside, rfl⟩)

theorem step_declares (inside : m.interpreter.env < m.interpreter.store.size)
    (declares : m.control.Declares name) :
    m.step.interpreter.store.binds m.interpreter.env name = true := by
  obtain ⟨control, i⟩ := m
  cases declares with
  | missing name k => exact declare_binds inside name .nil k
  | given v name k => exact declare_binds inside name v k
  | function name params body k =>
      exact declare_binds (i := { i with supply := i.supply + 1 }) inside name _ k

theorem Reaches.declared (reaches : Reaches m n) {place : Nat}
    (old : place < m.interpreter.store.size) (bound : n.interpreter.store.binds place name = true) :
    m.interpreter.store.binds place name = true ∨
      ∃ p, Reaches m p ∧ Passes p n ∧ p.control.Declares name ∧ p.interpreter.env = place := by
  induction reaches with
  | refl => exact .inl bound
  | @step m n later ih =>
      have edits := step_edits m
      obtain before | ⟨p, reached, passes, declares, here⟩ :=
        ih (Nat.lt_of_lt_of_le old edits.grows.size) bound
      · obtain same | ⟨here, declares⟩ := edits.binds_or old name
        · exact .inl (same.symm.trans before)
        · exact .inr ⟨m, .refl, later, declares, here.symm⟩
      · exact .inr ⟨p, .step reached, passes, declares, here⟩

/-- Between two machines a name is declared in a scope of the chain from `id` that comes before the
scope `home`. -/
def Shadows (m n : Machine) (name : String) (id home : Nat) : Prop :=
  ∃ p, Reaches m p ∧ Passes p n ∧ p.control.Declares name ∧
    m.interpreter.store.Nearer home id p.interpreter.env

/-- What a name stands for from a scope changes exactly where it is shadowed. -/
theorem Reaches.resolve (reaches : Reaches m n) {id home : Nat}
    (found : m.interpreter.store.resolve id name = some home) :
    ∃ now, n.interpreter.store.resolve id name = some now ∧
      (now = home ∨ m.interpreter.store.Nearer home id now) ∧
      (now ≠ home ↔ Shadows m n name id home) := by
  have resolves := (m.interpreter.store.resolve_eq_some_iff name).mp found
  have old {place : Nat} (nearer : m.interpreter.store.Nearer home id place) :
      place < m.interpreter.store.size := Nat.lt_of_le_of_lt nearer.le resolves.inside.1
  obtain ⟨same, free⟩ | ⟨now, later, nearer⟩ := resolves.grows reaches.grows
  · refine ⟨home, (n.interpreter.store.resolve_eq_some_iff name).mpr same, .inl rfl, ?_⟩
    refine ⟨fun changed => absurd rfl changed, ?_⟩
    rintro ⟨p, reached, passes, declares, nearer⟩
    have inside := Nat.lt_of_lt_of_le (old nearer) reached.grows.size
    have bound := passes.grows.binds _ name (step_declares inside declares)
    exact absurd ((free _ nearer).symm.trans bound) Bool.false_ne_true
  · refine ⟨now, (n.interpreter.store.resolve_eq_some_iff name).mpr later, .inr nearer, ?_⟩
    refine ⟨fun _ => ?_, fun _ => nearer.ne⟩
    obtain before | ⟨p, reached, passes, declares, here⟩ :=
      reaches.declared (old nearer) later.inside.2
    · exact absurd ((resolves.free nearer).symm.trans before) Bool.false_ne_true
    · exact ⟨p, reached, passes, declares, here ▸ nearer⟩

end Machine

end Jess
