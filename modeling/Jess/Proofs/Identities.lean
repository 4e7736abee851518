import Jess.Proofs.Equality
import Jess.Proofs.Holdings
import Jess.Proofs.Passing
import Jess.Proofs.Sources

/-!
# Callable values and their identities

A callable value of a run was there at its start, or one step of the run made
it, and then it is equal to no value that the run held before that step. Two
callable values of a run are equal just if they are one value, however far apart
they are held. This is so for all that is run in an interpreter that has come
out of runs and of changes from outside.
-/

namespace Jess

def Store.Keeps (store : Store) (v : Value) : Prop := ∃ id name, store.held? id name = some v

theorem Store.holds_iff {store : Store} {P : Value → Prop} :
    store.Holds P ↔ ∀ v, store.Keeps v → P v := by
  constructor
  · rintro holds v ⟨id, name, held⟩
    obtain ⟨scope, found, bound⟩ := Option.bind_eq_some_iff.mp held
    exact holds id scope name v found bound
  · intro all id scope name v found bound
    exact all v ⟨id, name, Option.bind_eq_some_iff.mpr ⟨scope, found, bound⟩⟩

theorem Value.identity?_eq_none {v : Value} (plain : v.callable? = none) : v.identity? = none := by
  cases v with
  | callable identity c => cases plain
  | _ => rfl

namespace Machine

/-- The machine holds the value: it is delivered or given back, or it waits, or a name stands for
it. -/
def Has (m : Machine) (v : Value) : Prop := v ∈ m.control.values ∨ m.interpreter.store.Keeps v

section Steps

variable {m n start : Machine} {v : Value}

theorem carries_iff {P : Value → Prop} {supply : Nat} :
    m.Carries P supply ↔ (∀ v, m.Has v → P v) ∧ m.interpreter.supply = supply := by
  constructor
  · rintro ⟨control, stored, same⟩
    refine ⟨?_, same⟩
    rintro v (held | kept)
    · exact control v held
    · exact Store.holds_iff.mp stored v kept
  · rintro ⟨all, same⟩
    have stored : m.interpreter.store.Holds P := Store.holds_iff.mpr fun v kept => all v (.inr kept)
    exact ⟨fun v held => all v (.inl held), stored, same⟩

theorem step_has {identity : Nat} (has : m.step.Has v) (callable : v.identity? = some identity) :
    m.Has v ∨ m.made? = some v := by
  have carries : m.Carries (fun v => v.callable? = none ∨ m.Has v ∨ m.made? = some v)
      m.interpreter.supply := carries_iff.mpr ⟨fun v has => .inr (.inl has), rfl⟩
  have next := step_carries (fun v plain => .inl plain) carries fun v made => .inr (.inr made)
  obtain plain | known := (carries_iff.mp next).1 v has
  · cases (Value.identity?_eq_none plain).symm.trans callable
  · exact known

theorem step_supply (m : Machine) :
    m.step.interpreter.supply = m.interpreter.supply + m.made?.toList.length := by
  have carries : m.Carries (fun _ => True) m.interpreter.supply :=
    carries_iff.mpr ⟨fun _ _ => trivial, rfl⟩
  exact (step_carries (fun _ _ => trivial) carries fun _ _ => trivial).supply

theorem Reaches.supply_le (reaches : Reaches m n) :
    m.interpreter.supply ≤ n.interpreter.supply := by
  induction reaches with
  | refl => exact Nat.le_refl _
  | @step m _ _ ih => exact Nat.le_trans (step_supply m ▸ Nat.le_add_right ..) ih

theorem identity_of_made (made : m.made? = some v) :
    v.identity? = some m.interpreter.supply ∧
      m.step.interpreter.supply = m.interpreter.supply + 1 := by
  have supply := step_supply m
  rw [made] at supply
  refine ⟨?_, supply⟩
  unfold made? at made
  split at made
  · cases made
    rfl
  · cases made

theorem eq_of_made {u : Value} (first : Reaches start m) (second : Reaches start n)
    (made : m.made? = some u) (made' : n.made? = some v) (same : u.identity? = v.identity?) :
    m = n := by
  -- The supply has gone on behind each of them.
  have apart {m n : Machine} {u : Value} (made : m.made? = some u) (later : Reaches m.step n) :
      m.interpreter.supply ≠ n.interpreter.supply := by
    have grown := later.supply_le
    rw [(identity_of_made made).2] at grown
    exact Nat.ne_of_lt grown
  rw [(identity_of_made made).1, (identity_of_made made').1] at same
  have supplies := Option.some.inj same
  obtain before | before := first.total second
  · cases before with
    | refl => rfl
    | step later => exact absurd supplies (apart made later)
  · cases before with
    | refl => rfl
    | step later => exact absurd supplies.symm (apart made' later)

end Steps

/-- A callable value of a run was there at the start, or a step on the way made it. -/
def Stems (start m : Machine) (v : Value) : Prop :=
  start.Has v ∨ ∃ n, Reaches start n ∧ n.made? = some v ∧ Reaches n.step m

end Machine

/-- Callable values with identities below the supply, no two of which have the same. -/
structure Identifies (supply : Nat) (P : Value → Prop) : Prop where
  below : ∀ v identity, P v → v.identity? = some identity → identity < supply
  unique : ∀ u v identity, P u → P v → u.identity? = some identity →
    v.identity? = some identity → u = v

namespace Machine

section Runs

variable {start m n : Machine} {u v : Value}

theorem Reaches.stems (reaches : Reaches start m) {identity : Nat}
    (callable : v.identity? = some identity) (has : m.Has v) : Stems start m v := by
  refine reaches.invariant (P := fun m => m.Has v → Stems start m v) .inl ?_ has
  intro n reached stems has
  obtain before | made := step_has has callable
  · obtain first | ⟨p, reached, made, later⟩ := stems before
    · exact .inl first
    · exact .inr ⟨p, reached, made, later.next⟩
  · exact .inr ⟨n, reached, made, .refl⟩

variable (begins : Identifies start.interpreter.supply start.Has)

include begins

theorem Reaches.identity_lt (reaches : Reaches start m) {identity : Nat}
    (callable : v.identity? = some identity) (has : m.Has v) : identity < m.interpreter.supply := by
  obtain first | ⟨n, _, made, later⟩ := reaches.stems callable has
  · exact Nat.lt_of_lt_of_le (begins.below v identity first callable) reaches.supply_le
  · obtain ⟨taken, grown⟩ := identity_of_made made
    obtain rfl := Option.some.inj (callable.symm.trans taken)
    exact Nat.lt_of_lt_of_le (grown ▸ Nat.lt_succ_self _) later.supply_le

/-- Callable values of a run with the same identity are one value, whenever they are held. -/
theorem Reaches.eq_of_identity (first : Reaches start m) (second : Reaches start n) {identity : Nat}
    (one : u.identity? = some identity) (other : v.identity? = some identity) (has : m.Has u)
    (has' : n.Has v) : u = v := by
  -- A value of the start has an identity below that of each value that is made.
  have apart {p : Machine} {w x : Value} (before : start.Has w) (reached : Reaches start p)
      (made : p.made? = some x) (same : w.identity? = some identity)
      (same' : x.identity? = some identity) : False := by
    have bound := begins.below w identity before same
    obtain rfl := Option.some.inj (same'.symm.trans (identity_of_made made).1)
    exact Nat.lt_irrefl _ (Nat.lt_of_lt_of_le bound reached.supply_le)
  obtain before | ⟨p, reached, made, _⟩ := first.stems one has
  · obtain before' | ⟨q, reached', made', _⟩ := second.stems other has'
    · exact begins.unique u v identity before before' one other
    · exact (apart before reached' made' one other).elim
  · obtain before' | ⟨q, reached', made', _⟩ := second.stems other has'
    · exact (apart before' reached made other one).elim
    · obtain rfl := eq_of_made reached reached' made made' (one.trans other.symm)
      exact Option.some.inj (made.symm.trans made')

theorem Reaches.identifies (reaches : Reaches start m) : Identifies m.interpreter.supply m.Has where
  below _ _ has callable := reaches.identity_lt begins callable has
  unique _ _ _ has has' one other := reaches.eq_of_identity begins reaches one other has has'

end Runs

/-- The machine runs something in an interpreter, with callable values that names stand for. -/
structure RunsIn (i : Interpreter) (start : Machine) : Prop where
  interpreter : start.interpreter = i
  control : ∀ v ∈ start.control.values, v.identity? = none ∨ i.store.Keeps v

end Machine

/-- The interpreters that there can be: new ones, such in which something was run, and such that
were changed from outside, where a callable value may be added that takes an identity of its own. -/
inductive Interpreter.Arises : Interpreter → Prop
  | new (limit : Nat) : Arises (.new limit)
  | changed {i j : Interpreter} (arises : Arises i)
      (kept : ∀ v, j.store.Keeps v → v.identity? = none ∨ i.store.Keeps v)
      (supply : i.supply ≤ j.supply) : Arises j
  | hosted {i : Interpreter} (arises : Arises i) (name : String) (c : Callable) :
      Arises ((i.fresh c).2.define name (i.fresh c).1)
  | ran {i : Interpreter} {start m : Machine} (arises : Arises i) (begins : start.RunsIn i)
      (reaches : Machine.Reaches start m) : Arises m.interpreter

namespace Identifies

variable {supply more : Nat} {P Q : Value → Prop}

theorem mono (identifies : Identifies supply P) (grown : supply ≤ more)
    (fewer : ∀ v identity, v.identity? = some identity → Q v → P v) : Identifies more Q where
  below v identity held callable :=
    Nat.lt_of_lt_of_le (identifies.below v identity (fewer v identity callable held) callable) grown
  unique u v identity held held' one other :=
    identifies.unique u v identity (fewer u identity one held) (fewer v identity other held') one
      other

theorem fresh (identifies : Identifies supply P) (c : Callable) :
    Identifies (supply + 1) fun v => P v ∨ v = .callable supply c where
  below v identity held callable := by
    obtain held | rfl := held
    · exact Nat.lt_succ_of_lt (identifies.below v identity held callable)
    · cases callable
      exact Nat.lt_succ_self _
  unique u v identity held held' one other := by
    obtain held | rfl := held
    · obtain held' | rfl := held'
      · exact identifies.unique u v identity held held' one other
      · cases other
        exact absurd (identifies.below u _ held one) (Nat.lt_irrefl _)
    · obtain held' | rfl := held'
      · cases one
        exact absurd (identifies.below v _ held' other) (Nat.lt_irrefl _)
      · rfl

end Identifies

theorem Machine.RunsIn.identifies {i : Interpreter} {start : Machine} (begins : start.RunsIn i)
    (known : Identifies i.supply i.store.Keeps) :
    Identifies start.interpreter.supply start.Has := by
  obtain ⟨rfl, values⟩ := begins
  refine known.mono (Nat.le_refl _) fun v identity callable has => ?_
  obtain held | kept := has
  · obtain plain | kept := values v held
    · cases plain.symm.trans callable
    · exact kept
  · exact kept

theorem Interpreter.Arises.identifies {i : Interpreter} (arises : i.Arises) :
    Identifies i.supply i.store.Keeps := by
  induction arises with
  | new limit =>
      have none := Store.holds_iff.mp (Interpreter.new_holds limit fun _ => False)
      exact ⟨fun v _ kept _ => (none v kept).elim, fun u _ _ kept _ _ _ => (none u kept).elim⟩
  | changed _ kept supply ih =>
      refine ih.mono supply fun v identity callable held => ?_
      obtain plain | held := kept v held
      · cases plain.symm.trans callable
      · exact held
  | @hosted i _ name c ih =>
      have holds : i.store.Holds fun v => i.store.Keeps v ∨ v = .callable i.supply c :=
        Store.holds_iff.mpr fun v => .inl
      have added := Store.holds_iff.mp (holds.insert i.env name (.inr rfl))
      exact (ih.fresh c).mono (Nat.le_refl _) fun v _ _ kept => added v kept
  | ran _ begins reaches ih =>
      exact (reaches.identifies (begins.identifies ih)).mono (Nat.le_refl _) fun v _ _ => .inr

theorem Machine.runsIn_of_nil {c : Control} (nothing : c.values = []) (i : Interpreter) :
    (⟨c, i⟩ : Machine).RunsIn i := by
  refine ⟨rfl, fun v member => ?_⟩
  rw [nothing] at member
  cases member

namespace Machine

/-- What a run comes to know of values up to one of its machines. -/
structure Distinguishes (start m : Machine) : Prop where
  /-- The operators of equality deliver a boolean, and never a fault. -/
  eq : ∀ operator left right k, m.control = .deliver right (.right .eq operator left k) →
    m.step = ⟨.deliver (.boolean (left.equals right)) k, m.interpreter⟩
  notEq : ∀ operator left right k, m.control = .deliver right (.right .notEq operator left k) →
    m.step = ⟨.deliver (.boolean (!left.equals right)) k, m.interpreter⟩
  /-- A function declaration makes a value, which its name stands for. -/
  declares : ∀ name params body k, m.control = .execute (.function name params body) k →
    ∃ v, m.made? = some v ∧ v.type = .function ∧ (m.interpreter.env < m.interpreter.store.size →
      m.interpreter.binds name.lexeme = false →
        m.step.interpreter.store.get? m.interpreter.env name.lexeme = some v)
  copies : m.Copies
  /-- Where a callable value comes from. -/
  stems : ∀ v, m.Has v → v.type = .function → Stems start m v
  /-- Callable values of a run, held then or now, are equal just if they are one value. -/
  same : ∀ n u v, Reaches start n → m.Has u → n.Has v → u.type = .function →
    (u.equals v = true ↔ u = v)
  /-- A value that is made is equal to none that the run held before. -/
  fresh : ∀ v, m.made? = some v → ∀ n u, Reaches start n → Reaches n m → n.Has u →
    u.equals v = false ∧ v.equals u = false
  /-- Nor is it equal to one that another step makes, whatever the declaration. -/
  apart : ∀ u v n, m.made? = some u → Reaches start n → n.made? = some v →
    (u.equals v = true ↔ m = n)

theorem Reaches.distinguishes {start m : Machine}
    (begins : Identifies start.interpreter.supply start.Has) (reaches : Reaches start m) :
    Distinguishes start m where
  eq operator left right k control := by
    obtain ⟨_, i⟩ := m
    cases control
    rfl
  notEq operator left right k control := by
    obtain ⟨_, i⟩ := m
    cases control
    rfl
  declares name params body k control := by
    obtain ⟨_, i⟩ := m
    cases control
    refine ⟨_, rfl, rfl, fun inside free => ?_⟩
    have step : (⟨.execute (.function name params body) k, i⟩ : Machine).step =
      declare name (i.fresh (.function ⟨name, params, body⟩ i.env)).1 k
        { i with supply := i.supply + 1 } := rfl
    rw [step, declare_free (i := { i with supply := i.supply + 1 }) free]
    exact Store.get?_insert inside name.lexeme _
  copies := copies m
  stems v has function := by
    obtain ⟨identity, callable⟩ := Value.exists_identity function
    exact reaches.stems callable has
  same n u v reached has has' function := by
    constructor
    · intro equal
      obtain ⟨identity, one⟩ := Value.exists_identity function
      obtain ⟨identity', other⟩ :=
        Value.exists_identity ((Value.type_eq_of_equals equal).symm.trans function)
      obtain rfl := (Value.equals_iff_identity one other).mp equal
      exact reaches.eq_of_identity begins reached one other has has'
    · rintro rfl
      obtain ⟨identity, one⟩ := Value.exists_identity function
      exact (Value.equals_iff_identity one one).mpr rfl
  fresh v made n u reached before has := by
    have differs : u.equals v = false := by
      refine Bool.eq_false_iff.mpr fun equal => ?_
      -- An identity that is taken now is not below the supply of before.
      have taken := (identity_of_made made).1
      obtain ⟨identity, callable⟩ := Value.exists_identity
        ((Value.type_eq_of_equals equal).trans (Value.type_of_identity taken))
      obtain rfl := (Value.equals_iff_identity callable taken).mp equal
      exact Nat.lt_irrefl _
        (Nat.lt_of_lt_of_le (reached.identity_lt begins callable has) before.supply_le)
    exact ⟨differs, (Value.equals_comm v u).trans differs⟩
  apart u v n made reached made' := by
    have taken := (identity_of_made made).1
    have taken' := (identity_of_made made').1
    refine (Value.equals_iff_identity taken taken').trans ⟨fun same => ?_, fun same => same ▸ rfl⟩
    exact eq_of_made reaches reached made made' (by rw [taken, taken', same])

/-- Equality of values is a partial equivalence, and in all runs it tells callable values apart by
the steps that made them. -/
theorem values_told_apart {i : Interpreter} (arises : i.Arises) {start : Machine}
    (begins : start.RunsIn i) :
    Value.Comparable ∧ ∀ m, Reaches start m → Distinguishes start m :=
  ⟨Value.comparable, fun _ reaches => reaches.distinguishes (begins.identifies arises.identifies)⟩

/-- A function that declares a function and gives it back is called twice, and the first value is
copied once more. -/
def makers : String :=
  "func make() { func made() {} return made; } " ++
    "var a = make(); var b = make(); var c = a; print a == b; print a == c;"

def startOfMakers : Machine := ofProgram (Source.statements makers) (.new 4)

theorem values_told_apart_makers :
    (Interpreter.new 4).Arises ∧ startOfMakers.RunsIn (.new 4) ∧
      (step^[50] startOfMakers).interpreter.printed = #["false", "true"] ∧
      ∃ u v, (step^[8] startOfMakers).made? = some u ∧ (step^[22] startOfMakers).made? = some v ∧
        u.text = v.text ∧ u.equals v = false := by
  have arises := Interpreter.Arises.new 4
  have begins : startOfMakers.RunsIn (.new 4) := runsIn_of_nil rfl _
  have tells := (values_told_apart arises begins).2 _ (reaches_iterate startOfMakers 8)
  have first : (step^[8] startOfMakers).made?.map Value.text = some "<fn made>" := by
    decide +kernel
  have second : (step^[22] startOfMakers).made?.map Value.text = some "<fn made>" := by
    decide +kernel
  obtain ⟨u, made, text⟩ := Option.map_eq_some_iff.mp first
  obtain ⟨v, made', text'⟩ := Option.map_eq_some_iff.mp second
  have apart := tells.apart u v _ made (reaches_iterate startOfMakers 22) made'
  refine ⟨arises, begins, by decide +kernel, u, v, made, made', text.trans text'.symm, ?_⟩
  refine Bool.eq_false_iff.mpr fun equal => ?_
  have supplies := congrArg (fun m => m.interpreter.supply) (apart.mp equal)
  revert supplies
  decide +kernel

end Machine

end Jess
