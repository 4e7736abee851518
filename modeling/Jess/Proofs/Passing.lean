import Jess.Proofs.Activations
import Jess.Proofs.Environments

/-!
# Values are passed on as they are

A name stands for the value that was bound to it, a parameter for the argument,
and what is read, given back or assigned comes to where it goes without a
change. A function that was entered sees the names around its declaration with
the values that they have there.
-/

namespace Jess

namespace Store

variable {store later : Store} {id : Nat} {name : String} {v : Value}

theorem get?_along (store : Store) (id : Nat) (name : String) :
    store.get? id name =
      (store.held? id name).or ((store.parent? id).bind fun outer => store.get? outer name) := by
  have here := store.binds_eq_held? id name
  rw [get?_eq_held?]
  cases held : store.held? id name with
  | some v =>
      rw [held] at here
      rw [store.resolve_bound name here, Option.bind_some, held, Option.some_or]
  | none =>
      rw [held] at here
      simp only [store.resolve_unbound name here, Option.none_or, Option.bind_assoc,
        get?_eq_held?]

theorem get?_of_held (held : store.held? id name = some v) : store.get? id name = some v := by
  rw [get?_along, held, Option.some_or]

theorem lt_size_of_held (held : store.held? id name = some v) : id < store.size := by
  obtain ⟨scope, found, _⟩ := Option.bind_eq_some_iff.mp held
  exact (Array.getElem?_eq_some_iff.mp found).1

theorem get?_congr (parents : ∀ place ≤ id, later.parent? place = store.parent? place)
    (held : ∀ place ≤ id, later.held? place name = store.held? place name) :
    later.get? id name = store.get? id name := by
  induction id using Nat.strongRecOn with
  | ind id ih =>
      rw [get?_along, get?_along store, parents id (Nat.le_refl id), held id (Nat.le_refl id)]
      cases enclosed : store.parent? id with
      | none => rfl
      | some outer =>
          have below := (store.parent?_lt enclosed).1
          have around := ih outer below
            (fun place bound => parents place (Nat.le_trans bound (Nat.le_of_lt below)))
            fun place bound => held place (Nat.le_trans bound (Nat.le_of_lt below))
          simp only [Option.bind_some, around]

theorem get?_insert (inside : id < store.size) (name : String) (v : Value) :
    (store.insert id name v).get? id name = some v := by
  apply get?_of_held
  rw [insert_held? store inside, if_pos ⟨rfl, rfl⟩]

theorem get?_update {home : Nat} (resolved : store.resolve id name = some home) (v : Value) :
    (store.update home name v).get? id name = some v := by
  have resolves := (store.resolve_eq_some_iff name).mp resolved
  clear resolved
  induction resolves with
  | @here id bound =>
      apply get?_of_held
      rw [update_held?, if_pos ⟨rfl, rfl⟩]
      rw [binds_eq_held?] at bound
      obtain ⟨old, held⟩ := Option.isSome_iff_exists.mp bound
      rw [held, Option.map_some]
  | @up id outer home unbound enclosed _ ih =>
      have free : store.held? id name = none := by
        rw [binds_eq_held?] at unbound
        exact Option.isNone_iff_eq_none.mp (Option.isSome_eq_false_iff.mp unbound)
      have parent : (store.update home name v).parent? id = some outer :=
        (store.modify_parent? home _ _ id).trans enclosed
      rw [get?_along, update_held?, free, Option.map_none, ite_self, Option.none_or, parent,
        Option.bind_some, ih]

end Store

namespace Interpreter

variable {i j : Interpreter} {pairs : List (Token × Value)}

theorem bindParams_held_before (bound : i.bindParams pairs = (j, none)) {name : String} {v : Value}
    (held : i.store.held? i.env name = some v) : j.store.held? i.env name = some v := by
  induction pairs generalizing i with
  | nil =>
      cases bound
      exact held
  | cons pair rest ih =>
      obtain ⟨param, arg⟩ := pair
      simp only [bindParams] at bound
      split at bound
      · cases bound
      · rename_i free
        refine ih (i := i.define param.lexeme arg) bound ?_
        have other : name ≠ param.lexeme := by
          rintro rfl
          rw [binds, Store.binds_eq_held?, held] at free
          exact free rfl
        have inside := Store.lt_size_of_held held
        exact (Store.insert_held? i.store inside _ _ _ _).trans
          ((if_neg fun both => other both.2).trans held)

theorem bindParams_held (inside : i.env < i.store.size) (bound : i.bindParams pairs = (j, none)) :
    ∀ pair ∈ pairs, j.store.held? i.env pair.1.lexeme = some pair.2 := by
  induction pairs generalizing i with
  | nil => exact List.forall_mem_nil _
  | cons pair rest ih =>
      obtain ⟨param, arg⟩ := pair
      simp only [bindParams] at bound
      split at bound
      · cases bound
      · have here : (i.define param.lexeme arg).store.held? i.env param.lexeme = some arg :=
          (Store.insert_held? i.store inside _ _ _ _).trans (if_pos ⟨rfl, rfl⟩)
        have still : i.env < (i.define param.lexeme arg).store.size :=
          Nat.lt_of_lt_of_le inside (i.store.insert_grows i.env _ _).size
        exact List.forall_mem_cons.mpr ⟨bindParams_held_before (i := i.define _ _) bound here,
          ih (i := i.define _ _) still bound⟩

theorem bindParams_held_apart (inside : i.env < i.store.size) (pairs : List (Token × Value))
    {place : Nat} {name : String}
    (apart : place = i.env → ∀ pair ∈ pairs, pair.1.lexeme ≠ name) :
    (i.bindParams pairs).1.store.held? place name = i.store.held? place name := by
  induction pairs generalizing i with
  | nil => rfl
  | cons pair rest ih =>
      obtain ⟨param, arg⟩ := pair
      simp only [bindParams]
      split
      · rfl
      · have still : i.env < (i.define param.lexeme arg).store.size :=
          Nat.lt_of_lt_of_le inside (i.store.insert_grows i.env _ _).size
        rw [ih (i := i.define _ _) still fun here => (List.forall_mem_cons.mp (apart here)).2]
        refine (Store.insert_held? i.store inside _ _ _ _).trans (if_neg ?_)
        rintro ⟨here, same⟩
        exact (List.forall_mem_cons.mp (apart here)).1 same.symm

/-- In a scope that was opened for a call the parameters stand for the arguments, and other names
for what they stand for where the function was declared. -/
theorem enter_get? {closure : Nat} {params : List Token} {args : List Value}
    (bound : (i.enter closure).bindParams (params.zip args) = (j, none)) :
    (∀ pair ∈ params.zip args, j.store.get? j.env pair.1.lexeme = some pair.2) ∧
      ∀ name, closure < i.store.size → (∀ param ∈ params, param.lexeme ≠ name) →
        j.store.get? j.env name = i.store.get? closure name := by
  have inside : (i.enter closure).env < (i.enter closure).store.size :=
    Nat.lt_of_lt_of_eq (Nat.lt_succ_self _) (i.store.openScope_size (some closure)).symm
  have grows := (i.enter closure).bindParams_grows (params.zip args)
  have apart := @bindParams_held_apart _ inside (params.zip args)
  obtain ⟨store, keeps⟩ := (i.enter closure).bindParams_keeps (params.zip args)
  rw [bound] at grows keeps apart
  have here : j.env = i.store.size := congrArg Interpreter.env keeps
  rw [here]
  refine ⟨fun pair known => Store.get?_of_held (bindParams_held inside bound pair known), ?_⟩
  intro name old free
  have others : ∀ pair ∈ params.zip args, pair.1.lexeme ≠ name :=
    fun pair known => free pair.1 (List.of_mem_zip known).1
  have unheld : j.store.held? i.store.size name = none := by
    rw [apart fun _ => others, enter, Store.openScope_held?]
    exact Option.bind_eq_none_iff.mpr fun scope found =>
      absurd (Array.getElem?_eq_some_iff.mp found).1 (Nat.lt_irrefl _)
  have parent : j.store.parent? i.store.size = some closure :=
    (grows.parent _ inside).trans (Store.openScope_parent i.store old)
  rw [Store.get?_along, unheld, parent, Option.none_or, Option.bind_some]
  apply Store.get?_congr
  · intro place below
    have before : place < i.store.size := Nat.lt_of_le_of_lt below old
    exact (grows.parent place (Nat.lt_trans before inside)).trans
      (Store.openScope_parent? i.store _ before)
  · intro place below
    have before : place ≠ i.store.size := Nat.ne_of_lt (Nat.lt_of_le_of_lt below old)
    exact (apart fun same => absurd same before).trans (Store.openScope_held? i.store _ _ _)

end Interpreter

namespace Machine

/-- What a step does with the value that it handles: it comes to where it goes as it is. -/
structure Copies (m : Machine) : Prop where
  /-- What is read is what the name stands for. -/
  read : ∀ name k v, m.control = .evaluate (.variable name) k →
    m.interpreter.store.get? m.interpreter.env name.lexeme = some v → m.step.control = .deliver v k
  /-- A name that is declared stands for what was delivered. -/
  declared : ∀ name k v, m.control = .deliver v (.declare name k) →
    m.interpreter.env < m.interpreter.store.size → m.interpreter.binds name.lexeme = false →
    m.step.interpreter.store.get? m.interpreter.env name.lexeme = some v
  /-- So does a name that is assigned to, and the value is delivered once more. -/
  assigned : ∀ name k v home, m.control = .deliver v (.assign name k) →
    m.interpreter.store.resolve m.interpreter.env name.lexeme = some home →
    m.step.control = .deliver v k ∧
      m.step.interpreter.store.get? m.interpreter.env name.lexeme = some v
  /-- In a function that is entered the parameters stand for the arguments. -/
  given : ∀ identity f closure args k, m.Calls (.callable identity (.function f closure)) args →
    m.step.control = .finish .normal k → ∀ pair ∈ f.params.zip args,
      m.step.interpreter.store.get? m.step.interpreter.env pair.1.lexeme = some pair.2
  /-- All other names stand for what they stand for around its declaration. -/
  captured : ∀ identity f closure args k, m.Calls (.callable identity (.function f closure)) args →
    m.step.control = .finish .normal k → ∀ name, closure < m.interpreter.store.size →
      (∀ param ∈ f.params, param.lexeme ≠ name) →
      m.step.interpreter.store.get? m.step.interpreter.env name =
        m.interpreter.store.get? closure name
  /-- A value that is given back is passed on, up to what waits for the call. -/
  givenBack : ∀ k v, m.control = .deliver v (.giveBack k) → m.step.control = .finish (.returned v) k
  passed : ∀ k v, m.control = .finish (.returned v) k → (∃ rest, k = .program rest) ∨
    (∃ k, m.step.control = .finish (.returned v) k) ∨ (∃ k, m.step.control = .deliver v k) ∨
    m.step.control = .halted (.completed (.returned v))

theorem Calls.step {m : Machine} {callee : Value} {args : List Value}
    (calls : m.Calls callee args) :
    ∃ paren k, m.step = call callee args paren k m.interpreter := by
  cases calls with
  | bare _ paren k i => exact ⟨paren, k, rfl⟩
  | given _ last done paren k i => exact ⟨paren, k, rfl⟩

theorem Calls.enters {m : Machine} {identity closure : Nat} {f : Function} {args : List Value}
    {k : StmtCont} (calls : m.Calls (.callable identity (.function f closure)) args)
    (entered : m.step.control = .finish .normal k) :
    ∃ j, (m.interpreter.enter closure).bindParams (f.params.zip args) = (j, none) ∧
      m.step.interpreter = { j with depth := j.depth + 1 } := by
  obtain ⟨paren, waiting, step⟩ := calls.step
  rw [step] at entered ⊢
  obtain ⟨cause, raises⟩ | starts := call_callable_cases identity (.function f closure) args paren
    waiting m.interpreter
  · rw [raises] at entered
    cases entered
  · simp only at starts
    rw [starts] at entered ⊢
    cases bound : (m.interpreter.enter closure).bindParams (f.params.zip args) with
    | mk j clash =>
        cases clash with
        | none =>
            rw [callFunction_bound bound]
            exact ⟨j, rfl, rfl⟩
        | some clash =>
            rw [callFunction_clash bound] at entered
            cases entered

theorem copies (m : Machine) : m.Copies := by
  obtain ⟨control, i⟩ := m
  constructor
  · rintro name k v rfl found
    exact congrArg Machine.control (evaluate_found found k)
  · rintro name k v rfl inside free
    have step : (⟨.deliver v (.declare name k), i⟩ : Machine).step = declare name v k i := rfl
    rw [step, declare_free free]
    exact Store.get?_insert inside name.lexeme v
  · rintro name k v home rfl resolved
    have step : (⟨.deliver v (.assign name k), i⟩ : Machine).step =
      deliver v (.assign name k) i := rfl
    rw [step, assign_found resolved]
    exact ⟨rfl, Store.get?_update resolved v⟩
  · intro identity f closure args k calls entered
    obtain ⟨j, bound, step⟩ := calls.enters entered
    rw [step]
    exact (Interpreter.enter_get? bound).1
  · intro identity f closure args k calls entered
    obtain ⟨j, bound, step⟩ := calls.enters entered
    rw [step]
    exact (Interpreter.enter_get? bound).2
  · rintro k v rfl
    rfl
  · rintro k v rfl
    cases k with
    | stop => exact .inr (.inr (.inr rfl))
    | program rest => exact .inl ⟨rest, rfl⟩
    | sequence rest k => exact .inr (.inl ⟨k, rfl⟩)
    | again condition body k => exact .inr (.inl ⟨k, rfl⟩)
    | leaveBlock env k => exact .inr (.inl ⟨k, rfl⟩)
    | leaveCall env k => exact .inr (.inr (.inl ⟨k, rfl⟩))

end Machine

end Jess
