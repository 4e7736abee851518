import Jess.Proofs.Activations
import Jess.Proofs.Names
import Jess.Proofs.Shadowing
import Jess.Proofs.Sources

/-!
# Names that a function leaves free

Each scope that is opened belongs to the call that opened it, or to the program
itself. The scopes of a call lie inside of each other up to the scope that its
function was declared in, and they bind parameters and names that the body
declares. So a name that a function does not bind stands in its calls, and in
the functions declared in them, for what it stands for where the function was
declared.
-/

namespace Jess

/-- A function binds its parameters and what its body declares, except in the functions there. -/
def Function.Binds (f : Function) (name : String) : Prop :=
  (∃ param ∈ f.params, param.lexeme = name) ∨ ∃ s, s.Within f.body ∧ Stmt.declared? s = some name

theorem Stmt.Within.of_print {e : Expr} {s : Stmt} (inside : s.Within [.print e]) :
    s = .print e := by
  induction inside with
  | listed member => exact List.mem_singleton.mp member
  | part _ member ih =>
      rw [ih] at member
      cases member

theorem Function.print_binds_nothing (declared : Token) (e : Expr) (name : String) :
    ¬Function.Binds ⟨declared, [], [.print e]⟩ name := by
  rintro (⟨param, member, _⟩ | ⟨s, inside, binds⟩)
  · cases member
  · rw [inside.of_print] at binds
    cases binds

/-- A function value was declared in one of so many scopes. -/
def Value.IsRooted (size : Nat) (v : Value) : Prop :=
  ∀ f closure, v.callable? = some (.function f closure) → closure < size

/-- The current scope is there, and so are those that the functions of all scopes were declared in. -/
structure Interpreter.IsIntact (i : Interpreter) : Prop where
  env : i.env < i.store.size
  rooted : i.store.Holds (Value.IsRooted i.store.size)

theorem Interpreter.new_isIntact (limit : Nat) : (Interpreter.new limit).IsIntact where
  env := Nat.zero_lt_one
  rooted := Interpreter.new_holds limit _

namespace Store

/-- The scopes of a call are inside of each other up to the one that its function was declared in,
and bind names of that function only. No scope has two owners. -/
structure Owned (store : Store) (owns : Option Activation → Nat → Prop) : Prop where
  old : ∀ {r id}, owns r id → id < store.size
  one : ∀ {r r' id}, owns r id → owns r' id → r = r'
  inside : ∀ {a id}, owns (some a) id →
    ∃ outer, store.parent? id = some outer ∧ (outer = a.closure ∨ owns (some a) outer)
  names : ∀ {a id name}, owns (some a) id → store.binds id name = true → a.function.Binds name

variable {store : Store} {owns : Option Activation → Nat → Prop}

/-- A name that a function leaves free stands in its calls for what it stands for outside. -/
theorem Owned.resolve (owned : store.Owned owns) {a : Activation} {name : String}
    (free : ¬a.function.Binds name) {id : Nat} (mine : owns (some a) id) :
    store.resolve id name = store.resolve a.closure name := by
  induction id using Nat.strongRecOn with
  | ind id ih =>
      have unbound : store.binds id name = false :=
        Bool.eq_false_iff.mpr fun bound => free (owned.names mine bound)
      obtain ⟨outer, enclosed, around⟩ := owned.inside mine
      rw [store.resolve_unbound name unbound, enclosed, Option.bind_some]
      obtain rfl | mine := around
      · rfl
      · exact ih outer (store.parent?_lt enclosed).1 mine

end Store

theorem Interpreter.bindParams_binds_here (i : Interpreter) (pairs : List (Token × Value))
    (name : String) (bound : (i.bindParams pairs).1.store.binds i.env name = true) :
    i.store.binds i.env name = true ∨ ∃ pair ∈ pairs, pair.1.lexeme = name := by
  induction pairs generalizing i with
  | nil => exact .inl bound
  | cons pair rest ih =>
      simp only [bindParams] at bound
      split at bound
      · exact .inl bound
      · obtain before | ⟨other, listed, same⟩ := ih (i.define _ _) bound
        · obtain before | ⟨_, _, same⟩ := (i.store.insert_binds ..).mp before
          · exact .inl before
          · exact .inr ⟨pair, List.mem_cons_self .., same.symm⟩
        · exact .inr ⟨other, List.mem_cons_of_mem _ listed, same⟩

namespace Machine

def accountOfScopes (program : List Stmt) (owns : Option Activation → Nat → Prop)
    (start m : Machine) : Account where
  program := program
  seen _ := True
  begun a := a.IsBegun start m
  owns := owns
  holds := Value.IsRooted m.interpreter.store.size

inductive Opens (m : Machine) (r : Option Activation) : Option Activation → Prop
  | block {body : List Stmt} {k : StmtCont} (runs : m.control = .execute (.block body) k) : Opens m r r
  | call {a : Activation} (begins : a.Begins m) : Opens m r (some a)

section Step

variable {h : Account} {program : List Stmt} {owns : Option Activation → Nat → Prop}
  {start m : Machine} {r : Option Activation}

theorem Traced.declares {a : Activation} (traced : m.Traced h (some a)) {name : String}
    (declares : m.control.Declares name) : a.function.Binds name := by
  obtain ⟨control, i⟩ := m
  have runs := traced.control
  cases declares with
  | missing name k =>
      cases runs with
      | execute inside _ => exact .inr ⟨_, inside, rfl⟩
  | given v name k =>
      cases runs with
      | deliver _ later =>
          cases later with
          | declare _ inside _ => exact .inr ⟨_, inside, rfl⟩
  | function name params body k =>
      cases runs with
      | execute inside _ => exact .inr ⟨_, inside, rfl⟩

structure Fits (owns : Option Activation → Nat → Prop) (m : Machine) (r : Option Activation) :
    Prop where
  fresh : m.interpreter.store.size < m.step.interpreter.store.size
  inside : ∀ a, r = some a → ∃ outer, m.step.interpreter.store.parent? m.interpreter.store.size =
    some outer ∧ (outer = a.closure ∨ owns (some a) outer)
  names : ∀ a name, r = some a →
    m.step.interpreter.store.binds m.interpreter.store.size name = true → a.function.Binds name

theorem block_fits (owned : m.interpreter.store.Owned owns) (mine : owns r m.interpreter.env)
    {body : List Stmt} {k : StmtCont} (runs : m.control = .execute (.block body) k) :
    Fits owns m r := by
  obtain ⟨control, i⟩ := m
  cases runs
  have size := i.store.openScope_size (some i.env)
  refine ⟨Nat.lt_of_lt_of_eq (Nat.lt_succ_self _) size.symm, ?_, ?_⟩
  · rintro a rfl
    exact ⟨i.env, i.store.openScope_parent (owned.old mine), .inr mine⟩
  · intro a name _ bound
    have free := i.store.openScope_binds_fresh (some i.env) name
    exact absurd (free.symm.trans bound) Bool.false_ne_true

theorem call_fits (traced : m.Traced (accountOfScopes program owns start m) r) {a : Activation}
    (begins : a.Begins m) : Fits owns m (some a) := by
  obtain ⟨identity, args, calls⟩ := begins.calls
  have root : a.closure < m.interpreter.store.size := traced.callee_held calls _ _ rfl
  obtain ⟨_, values, j, bound, step⟩ := begins.entry
  have grows := (m.interpreter.enter a.closure).bindParams_grows (a.function.params.zip values)
  have binds := (m.interpreter.enter a.closure).bindParams_binds_here (a.function.params.zip values)
  rw [bound] at grows binds
  have size := m.interpreter.store.openScope_size (some a.closure)
  refine ⟨begins.opens, ?_, ?_⟩
  · intro b same
    cases same
    rw [step]
    refine ⟨a.closure, ?_, .inl rfl⟩
    rw [grows.parent _ (Nat.lt_of_lt_of_eq (Nat.lt_succ_self _) size.symm)]
    exact m.interpreter.store.openScope_parent root
  · intro b name same bound
    cases same
    rw [step] at bound
    obtain before | ⟨pair, listed, same⟩ := binds name bound
    · have free := m.interpreter.store.openScope_binds_fresh (some a.closure) name
      exact absurd (free.symm.trans before) Bool.false_ne_true
    · exact .inl ⟨pair.1, (List.of_mem_zip listed).1, same⟩

variable (reaches : Reaches start m) (owned : m.interpreter.store.Owned owns)
  (traced : m.Traced (accountOfScopes program owns start m) r)

include owned traced

theorem opens_unique {first second : Option Activation} (opens : Opens m r first)
    (opens' : Opens m r second) : first = second ∧ Fits owns m first := by
  cases opens with
  | block runs =>
      cases opens' with
      | block _ => exact ⟨rfl, block_fits owned traced.owned runs⟩
      | call begins =>
          obtain ⟨⟨_, _, calls⟩, _, _⟩ := begins
          cases calls <;> cases runs
  | call begins =>
      cases opens' with
      | block runs =>
          obtain ⟨⟨_, _, calls⟩, _, _⟩ := begins
          cases calls <;> cases runs
      | call begins' => exact ⟨congrArg some (begins.unique begins'), call_fits traced begins⟩

theorem owned_step : m.step.interpreter.store.Owned fun r' id =>
    owns r' id ∨ id = m.interpreter.store.size ∧ Opens m r r' := by
  have grows := (step_edits m).grows
  have apart {r' : Option Activation} {id : Nat} (mine : owns r' id) :
      id ≠ m.interpreter.store.size := Nat.ne_of_lt (owned.old mine)
  refine ⟨?_, ?_, ?_, ?_⟩
  · rintro r' id (mine | ⟨rfl, opens⟩)
    · exact Nat.lt_of_lt_of_le (owned.old mine) grows.size
    · exact (opens_unique owned traced opens opens).2.fresh
  · rintro r' r'' id (mine | ⟨rfl, opens⟩) (mine' | ⟨same, opens'⟩)
    · exact owned.one mine mine'
    · exact absurd same (apart mine)
    · exact absurd rfl (apart mine')
    · exact (opens_unique owned traced opens opens').1
  · rintro a id (mine | ⟨rfl, opens⟩)
    · obtain ⟨outer, enclosed, around⟩ := owned.inside mine
      exact ⟨outer, (grows.parent id (owned.old mine)).trans enclosed, around.imp_right .inl⟩
    · obtain ⟨outer, enclosed, around⟩ := (opens_unique owned traced opens opens).2.inside a rfl
      exact ⟨outer, enclosed, around.imp_right .inl⟩
  · rintro a id name (mine | ⟨rfl, opens⟩) bound
    · obtain same | ⟨rfl, declares⟩ := (step_edits m).binds_or (owned.old mine) name
      · exact owned.names mine (same.symm.trans bound)
      · cases owned.one traced.owned mine
        exact traced.declares declares
    · exact (opens_unique owned traced opens opens).2.names a name rfl bound

include reaches

theorem traced_step : ∃ r', m.step.Traced (accountOfScopes program
    (fun r' id => owns r' id ∨ id = m.interpreter.store.size ∧ Opens m r r') start m.step) r' := by
  let later : Option Activation → Nat → Prop :=
    fun r' id => owns r' id ∨ id = m.interpreter.store.size ∧ Opens m r r'
  have known : (accountOfScopes program owns start m).Carries (accountOfScopes program later start m)
      m.activeCalls := ⟨rfl, fun _ => id, fun _ _ => id, fun _ _ => .inl, fun _ => id⟩
  have covers : (accountOfScopes program later start m).Covers r m := by
    refine ⟨trivial, ?_, ?_, ?_, ?_⟩
    · intro v plain f closure same
      rw [plain] at same
      cases same
    · intro name params body k _ f closure same
      cases same
      exact owned.old traced.owned
    · exact fun body k runs => .inr ⟨rfl, .block runs⟩
    · exact fun a begins => ⟨.inl begins, .inr ⟨rfl, .call begins⟩⟩
  obtain ⟨r', next⟩ := (traced.mono known).step covers
  refine ⟨r', next.mono ⟨rfl, fun _ => id, ?_, fun _ _ => id, ?_⟩⟩
  · exact fun a active begun => begun.next reaches active
  · exact fun v rooted f closure same =>
      Nat.lt_of_lt_of_le (rooted f closure same) (step_edits m).grows.size

end Step

/-- A machine whose scopes have owners, and that can be traced back to its run. -/
structure Charted (program : List Stmt) (start : Machine) (owns : Option Activation → Nat → Prop)
    (m : Machine) : Prop where
  reaches : Reaches start m
  owned : m.interpreter.store.Owned owns
  traced : ∃ r, m.Traced (accountOfScopes program owns start m) r

section Runs

variable {program : List Stmt} {owns : Option Activation → Nat → Prop} {start m n : Machine}

theorem Charted.run (charted : Charted program start owns m) (reaches : Reaches m n) :
    ∃ later, (∀ r id, owns r id → later r id) ∧ Charted program start later n := by
  refine reaches.invariant (P := fun p => ∃ later : Option Activation → Nat → Prop,
    (∀ r id, owns r id → later r id) ∧ Charted program start later p)
    ⟨owns, fun _ _ => id, charted⟩ ?_
  rintro p _ ⟨owns', kept, reached, owned, r, traced⟩
  refine ⟨_, fun r id mine => .inl (kept r id mine), reached.next, owned_step owned traced, ?_⟩
  exact traced_step reached owned traced

theorem charted_start {i : Interpreter} (intact : i.IsIntact) :
    Charted program (ofProgram program i) (fun r id => r = none ∧ id < i.store.size)
      (ofProgram program i) where
  reaches := .refl
  owned := ⟨fun mine => mine.2, fun mine mine' => mine.1.trans mine'.1.symm,
    fun mine => absurd mine.1 nofun, fun mine => absurd mine.1 nofun⟩
  traced := ⟨none, .finish (.program fun _ => id), ⟨rfl, intact.env⟩, intact.rooted⟩

theorem Charted.intact (charted : Charted program start owns m) : m.interpreter.IsIntact := by
  obtain ⟨r, traced⟩ := charted.traced
  exact ⟨charted.owned.old traced.owned, traced.stored⟩

theorem Charted.current (charted : Charted program start owns m) {a : Activation}
    (runs : a.Runs start m) : owns (some a) m.interpreter.env := by
  obtain ⟨r, traced⟩ := charted.traced
  cases r with
  | none =>
      have outside : m.activeCalls = 0 := traced.region.2
      exact absurd (outside.symm.trans runs.innermost) (Nat.succ_ne_zero _).symm
  | some b =>
      have same := (b.runs_of_traced (fun _ => id) traced).unique runs
      exact same ▸ traced.owned

end Runs

/-- The next step reads or assigns a name that stands for the binding in a scope. -/
inductive Uses : Machine → String → Nat → Prop
  | reads {name : Token} {home : Nat} {i : Interpreter}
      (found : i.store.resolve i.env name.lexeme = some home) (k : ValueCont) :
      Uses ⟨.evaluate (.variable name) k, i⟩ name.lexeme home
  | assigns {name : Token} {home : Nat} {i : Interpreter}
      (found : i.store.resolve i.env name.lexeme = some home) (v : Value) (k : ValueCont) :
      Uses ⟨.deliver v (.assign name k), i⟩ name.lexeme home

theorem Uses.resolve {m : Machine} {name : String} {home : Nat} (uses : m.Uses name home) :
    m.interpreter.store.resolve m.interpreter.env name = some home := by
  cases uses <;> assumption

end Machine

open Machine

/-- The machine runs the body of a call, or of a function that was declared in such a body, and none
of these functions binds the name. -/
inductive Activation.Serves (start : Machine) (name : String) (a : Activation) : Machine → Prop
  | body {m : Machine} (runs : a.Runs start m) (free : ¬a.function.Binds name) :
      Serves start name a m
  | inner {m n : Machine} {b : Activation} (outer : Serves start name a m) (later : Reaches m n)
      (runs : b.Runs start n) (free : ¬b.function.Binds name)
      (closure : b.closure = m.interpreter.env) :
      Serves start name a n

namespace Machine

/-- How names are kept along a run. What a name stands for from a scope changes only where it is
shadowed, a name that a function leaves free stands in its calls for what it stands for from the
scope of the declaration, and so two calls use different bindings only if it was shadowed between. -/
structure KeepsNames (start : Machine) : Prop where
  intact : ∀ m, Reaches start m → m.interpreter.IsIntact
  kept : ∀ m n name id home, Reaches start m → Reaches m n →
    m.interpreter.store.resolve id name = some home →
    ∃ now, n.interpreter.store.resolve id name = some now ∧
      (now = home ∨ m.interpreter.store.Nearer home id now) ∧
      (now ≠ home ↔ Shadows m n name id home)
  called : ∀ (a : Activation) name m n, a.Serves start name m → Reaches m n →
    n.interpreter.store.resolve m.interpreter.env name = n.interpreter.store.resolve a.closure name
  used : ∀ (a b : Activation) name m n home now, a.Serves start name m → b.Serves start name n →
    a.closure = b.closure → Reaches m n → m.Uses name home → n.Uses name now →
    (now ≠ home ↔ Shadows m n name a.closure home)

section Serves

variable {program : List Stmt} {i : Interpreter} (intact : i.IsIntact) {a : Activation}
  {name : String} {m : Machine}

include intact

theorem resolve_of_serves (serves : a.Serves (ofProgram program i) name m) :
    ∀ n, Reaches m n → n.interpreter.store.resolve m.interpreter.env name =
      n.interpreter.store.resolve a.closure name := by
  -- At every later machine the scope that a call was in still belongs to that call.
  have own {b : Activation} {p : Machine} (runs : b.Runs (ofProgram program i) p)
      (free : ¬b.function.Binds name) (n : Machine) (reaches : Reaches p n) :
      n.interpreter.store.resolve p.interpreter.env name =
        n.interpreter.store.resolve b.closure name := by
    obtain ⟨owns, _, charted⟩ := (charted_start intact).run runs.lasts.reaches
    obtain ⟨later, kept, charted'⟩ := charted.run reaches
    exact charted'.owned.resolve free (kept _ _ (charted.current runs))
  induction serves with
  | body runs free => exact own runs free
  | inner _ later runs free closure ih =>
      intro n reaches
      rw [own runs free n reaches, closure]
      exact ih n (later.trans reaches)

end Serves

theorem keeps_names {i : Interpreter} (intact : i.IsIntact) (program : List Stmt) :
    KeepsNames (ofProgram program i) where
  intact m reaches := by
    obtain ⟨owns, _, charted⟩ := (charted_start intact).run reaches
    exact charted.intact
  kept m n name id home _ reaches found := reaches.resolve found
  called a name m n serves reaches := resolve_of_serves intact serves n reaches
  used a b name m n home now serves serves' same reaches uses uses' := by
    have first := uses.resolve
    have second := uses'.resolve
    rw [resolve_of_serves intact serves m .refl] at first
    rw [resolve_of_serves intact serves' n .refl, ← same] at second
    obtain ⟨place, found, _, changes⟩ := reaches.resolve first
    rw [second] at found
    cases found
    exact changes

def reads (name : String) (m : Machine) : Bool :=
  match m.control with
  | .evaluate (.variable use) _ => use.lexeme = name
  | _ => false

theorem uses_of_reads {m : Machine} {name : String} {home : Nat} (reading : m.reads name = true)
    (found : m.interpreter.store.resolve m.interpreter.env name = some home) : m.Uses name home := by
  obtain ⟨control, i⟩ := m
  unfold reads at reading
  split at reading
  · rename_i use k same
    cases same
    obtain rfl := of_decide_eq_true reading
    exact .reads found k
  · cases reading

def declaresPrinting (name : String) (m : Machine) : Bool :=
  match m.control with
  | .execute (.function _ [] [.print (.variable use)]) _ => use.lexeme = name
  | _ => false

theorem control_of_declaresPrinting {m : Machine} {name : String}
    (declares : m.declaresPrinting name = true) :
    ∃ function use k, m.control = .execute (.function function [] [.print (.variable use)]) k ∧
      use.lexeme = name := by
  unfold declaresPrinting at declares
  split at declares
  · rename_i function use k control
    exact ⟨function, use, k, control, of_decide_eq_true declares⟩
  · cases declares

/-- A block declares a function, and later on a name that the function leaves free. -/
def shadowing : String :=
  "var a = 1; { func show() { print a; } show(); var a = 2; show(); }"

def startOfShadowing : Machine := ofProgram (Source.statements shadowing) (.new 2)

theorem keeps_names_shadowing :
    (Interpreter.new 2).IsIntact ∧
      let m := step^[15] startOfShadowing
      m.interpreter.store.resolve 1 "a" = some 0 ∧ Shadows m (step^[16] m) "a" 1 0 := by
  have found : (step^[15] startOfShadowing).interpreter.store.resolve 1 "a" = some 0 := by
    decide +kernel
  have later :
      (step^[16] (step^[15] startOfShadowing)).interpreter.store.resolve 1 "a" = some 1 := by
    decide +kernel
  have keeps : KeepsNames startOfShadowing := keeps_names (Interpreter.new_isIntact 2) _
  obtain ⟨now, found', _, changes⟩ := keeps.kept _ _ "a" 1 0 (reaches_iterate startOfShadowing 15)
    (reaches_iterate _ 16) found
  rw [later] at found'
  cases found'
  exact ⟨Interpreter.new_isIntact 2, found, changes.mp (by decide)⟩

/-- The binding that a function used before is not always the one that it uses later on: `a` is
neither a parameter of the function nor declared in it, and two calls read two variables. -/
theorem free_name_rebound :
    Source.IsClean shadowing ∧
      ∃ c m n name params body k use,
        Reaches startOfShadowing c ∧ Reaches c m ∧ Reaches m n ∧
        c.control = .execute (.function name params body) k ∧
        (Expr.variable use).Within body ∧ use.lexeme = "a" ∧
        ¬Function.Binds ⟨name, params, body⟩ "a" ∧
        m.interpreter.store.resolve c.interpreter.env "a" = some 0 ∧ m.Uses "a" 0 ∧
        n.interpreter.store.resolve c.interpreter.env "a" = some 1 ∧ n.Uses "a" 1 := by
  let c := step^[7] startOfShadowing
  let m := step^[8] c
  let n := step^[16] m
  obtain ⟨name, use, k, control, named⟩ :
      ∃ name use k, c.control = .execute (.function name [] [.print (.variable use)]) k ∧
        use.lexeme = "a" := control_of_declaresPrinting (by decide +kernel)
  have occurs : (Expr.variable use).Within [.print (.variable use)] :=
    .operand (.listed (List.mem_singleton_self _)) (List.mem_singleton_self _)
  refine ⟨⟨by decide +kernel, by decide +kernel⟩, c, m, n, name, [], _, k, use,
    reaches_iterate _ 7, reaches_iterate c 8, reaches_iterate m 16, control, occurs, named,
    Function.print_binds_nothing name _ _,
    by decide +kernel, uses_of_reads (by decide +kernel) (by decide +kernel),
    by decide +kernel, uses_of_reads (by decide +kernel) (by decide +kernel)⟩

end Machine

end Jess
