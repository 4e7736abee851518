import Jess.Proofs.PairedRuns
import Jess.Proofs.Restoration

/-!
# Loops with clauses

What a loop with clauses does is told here clause by clause: a new scope holds
what the initializer declares, the condition is tested in it before each turn,
and a turn runs the body and then the increment in it. The tree that stands for
such a loop has blocks in other places, so some of its scopes are missing and
some are there in addition. It comes to the same outcome all the same.
-/

namespace Jess

/-- An expression comes to a result in some number of steps. -/
def Interpreter.Evaluates (i : Interpreter) (e : Expr) (result : Except Fault Value)
    (j : Interpreter) : Prop :=
  ∃ steps, i.evaluate steps e = some (result, j)

def Interpreter.Executes (i : Interpreter) (s : Stmt) (result : Except Fault Completion)
    (j : Interpreter) : Prop :=
  ∃ steps, i.execute steps s = some (result, j)

structure ForLoop where
  initializer : Option Stmt
  condition : Option Expr
  increment : Option Expr
  body : Stmt

namespace ForLoop

variable (loop : ForLoop)

/-- The initializer runs, if there is one. -/
inductive Starts (i : Interpreter) : Except Fault Completion → Interpreter → Prop
  | absent (nothing : loop.initializer = none) : Starts i (.ok .normal) i
  | present {s : Stmt} {result : Except Fault Completion} {j : Interpreter}
      (given : loop.initializer = some s) (ran : i.Executes s result j) : Starts i result j

/-- The condition holds or does not. A missing one holds. -/
inductive Tests (i : Interpreter) : Except Fault Bool → Interpreter → Prop
  | absent (nothing : loop.condition = none) : Tests i (.ok true) i
  | present {e : Expr} {result : Except Fault Value} {j : Interpreter}
      (given : loop.condition = some e) (ran : i.Evaluates e result j) :
      Tests i (result.map Value.isTruthy) j

/-- The body runs, and the increment after it if it comes to its end. -/
inductive Turns (i : Interpreter) : Except Fault Completion → Interpreter → Prop
  | early {result : Except Fault Completion} {j : Interpreter}
      (ran : i.Executes loop.body result j) (ends : result ≠ .ok .normal) : Turns i result j
  | bare {j : Interpreter} (ran : i.Executes loop.body (.ok .normal) j)
      (nothing : loop.increment = none) : Turns i (.ok .normal) j
  | advanced {e : Expr} {result : Except Fault Value} {j k : Interpreter}
      (ran : i.Executes loop.body (.ok .normal) j) (given : loop.increment = some e)
      (advanced : j.Evaluates e result k) : Turns i (result.map fun _ => .normal) k

/-- Turns are taken while the condition holds, and none after one that ends the loop. -/
inductive Rounds : Interpreter → Except Fault Completion → Interpreter → Prop
  | untold {i j : Interpreter} {f : Fault} (tested : loop.Tests i (.error f) j) :
      Rounds i (.error f) j
  | ended {i j : Interpreter} (tested : loop.Tests i (.ok false) j) : Rounds i (.ok .normal) j
  | last {i j k : Interpreter} {result : Except Fault Completion}
      (tested : loop.Tests i (.ok true) j) (turned : loop.Turns j result k)
      (ends : result ≠ .ok .normal) : Rounds i result k
  | more {i j k l : Interpreter} {result : Except Fault Completion}
      (tested : loop.Tests i (.ok true) j) (turned : loop.Turns j (.ok .normal) k)
      (later : Rounds k result l) : Rounds i result l

/-- The loop runs in a new scope, which it leaves however it ends. -/
inductive Runs (i : Interpreter) : Except Fault Completion → Interpreter → Prop
  | early {result : Except Fault Completion} {j : Interpreter}
      (started : loop.Starts (i.enter i.env) result j) (ends : result ≠ .ok .normal) :
      Runs i result (j.moveTo i.env)
  | started {result : Except Fault Completion} {j k : Interpreter}
      (started : loop.Starts (i.enter i.env) (.ok .normal) j) (rounds : loop.Rounds j result k) :
      Runs i result (k.moveTo i.env)

def tree : Stmt := Parser.desugarFor loop.initializer loop.condition loop.increment loop.body

def test : Expr := loop.condition.getD (.literal (.boolean true))

def round : Stmt :=
  match loop.increment with
  | none => loop.body
  | some e => .block [loop.body, .expression e]

theorem tree_of_none (nothing : loop.initializer = none) :
    loop.tree = .loop loop.test loop.round := by
  simp only [tree, Parser.desugarFor, nothing]
  rfl

theorem tree_of_some {s : Stmt} (given : loop.initializer = some s) :
    loop.tree = .block [s, .loop loop.test loop.round] := by
  simp only [tree, Parser.desugarFor, given]
  rfl

end ForLoop

def ValueCont.take (k : ValueCont) : Except Fault Value → Control
  | .ok v => .deliver v k
  | .error f => .raise f k

def StmtCont.take (k : StmtCont) : Except Fault Completion → Control
  | .ok c => .finish c k
  | .error f => .abandon f k

/-- Results that are alike, or the same fault. -/
inductive Results {α β : Type} (R : α → β → Prop) : Except Fault α → Except Fault β → Prop
  | ok {a : α} {b : β} (alike : R a b) : Results R (.ok a) (.ok b)
  | error (f : Fault) : Results R (.error f) (.error f)

namespace Machine

def Halts (m : Machine) : Prop := ∃ a i, Reaches m ⟨.halted a, i⟩

theorem Halts.rest {m n : Machine} (halts : m.Halts) (way : Reaches m n) : n.Halts := by
  obtain ⟨a, i, reaches⟩ := halts
  exact ⟨a, i, way.rest reaches⟩

section Mirrors

variable {α β : Type} (p : Pairing) (R : Pairing → α → β → Prop) (take : Except Fault β → Control)

/-- A machine takes up a result that is like a given one, in a state that is paired. -/
def Follows (result : Except Fault α) (i : Interpreter) (n : Machine) : Prop :=
  ∃ q result' j, p.Extends q ∧ Results (R q) result result' ∧ Interpreter.Paired q i j ∧
    Reaches n ⟨take result', j⟩

/-- A machine takes up what is told otherwise, and if it halts, something is told. -/
structure Mirrors (told : Except Fault α → Interpreter → Prop) (n : Machine) : Prop where
  follows : ∀ {result i}, told result i → Follows p R take result i n
  tells : n.Halts → ∃ result i, told result i

variable {p R take}

theorem Follows.extend {q : Pairing} {result : Except Fault α} {i : Interpreter} {n : Machine}
    (follows : Follows q R take result i n) (extends_ : p.Extends q) :
    Follows p R take result i n := by
  obtain ⟨q', result', j, later, results, paired, way⟩ := follows
  exact ⟨q', result', j, extends_.trans later, results, paired, way⟩

theorem Follows.after {result : Except Fault α} {i : Interpreter} {m n : Machine}
    (follows : Follows p R take result i n) (way : Reaches m n) : Follows p R take result i m := by
  obtain ⟨q, result', j, later, results, paired, rest⟩ := follows
  exact ⟨q, result', j, later, results, paired, way.trans rest⟩

theorem Mirrors.after {told : Except Fault α → Interpreter → Prop} {m n : Machine}
    (mirrors : Mirrors p R take told n) (way : Reaches m n) : Mirrors p R take told m where
  follows known := (mirrors.follows known).after way
  tells halts := mirrors.tells (halts.rest way)

end Mirrors

section Parts

variable {i j : Interpreter}

theorem evaluates_of_reaches {e : Expr} {result : Except Fault Value}
    (reaches : Reaches ⟨.evaluate e .stop, i⟩ ⟨ValueCont.stop.take result, j⟩) :
    i.Evaluates e result j := by
  have halts : ∃ a, Reaches ⟨.evaluate e .stop, i⟩ ⟨.halted a, j⟩ ∧ a.valueOr? = some result := by
    cases result with
    | ok v => exact ⟨.value v, reaches.trans (.step .refl), rfl⟩
    | error f => exact ⟨.failed f, reaches.trans (.step .refl), rfl⟩
  obtain ⟨a, halts, came⟩ := halts
  obtain ⟨enough, runs⟩ := run_of_reaches halts
  exact ⟨enough, evaluate_eq_some_iff.mpr ⟨a, runs enough (Nat.le_refl _), came⟩⟩

theorem executes_of_reaches {s : Stmt} {result : Except Fault Completion}
    (reaches : Reaches ⟨.execute s .stop, i⟩ ⟨StmtCont.stop.take result, j⟩) :
    i.Executes s result j := by
  have halts : ∃ a, Reaches ⟨.execute s .stop, i⟩ ⟨.halted a, j⟩ ∧
      a.completionOr? = some result := by
    cases result with
    | ok c => exact ⟨.completed c, reaches.trans (.step .refl), rfl⟩
    | error f => exact ⟨.failed f, reaches.trans (.step .refl), rfl⟩
  obtain ⟨a, halts, came⟩ := halts
  obtain ⟨enough, runs⟩ := run_of_reaches halts
  exact ⟨enough, execute_eq_some_iff.mpr ⟨a, runs enough (Nat.le_refl _), came⟩⟩

theorem evaluates_halts {e : Expr} {result : Except Fault Value} (ran : i.Evaluates e result j) :
    ∃ a, Reaches ⟨.evaluate e .stop, i⟩ ⟨.halted a, j⟩ ∧ a.valueOr? = some result := by
  obtain ⟨steps, ran⟩ := ran
  obtain ⟨a, ran, came⟩ := evaluate_eq_some_iff.mp ran
  exact ⟨a, reaches_of_run ran, came⟩

theorem executes_halts {s : Stmt} {result : Except Fault Completion}
    (ran : i.Executes s result j) :
    ∃ a, Reaches ⟨.execute s .stop, i⟩ ⟨.halted a, j⟩ ∧ a.completionOr? = some result := by
  obtain ⟨steps, ran⟩ := ran
  obtain ⟨a, ran, came⟩ := execute_eq_some_iff.mp ran
  exact ⟨a, reaches_of_run ran, came⟩

theorem evaluates_unique {e : Expr} {result result' : Except Fault Value} {j' : Interpreter}
    (ran : i.Evaluates e result j) (ran' : i.Evaluates e result' j') :
    result = result' ∧ j = j' := by
  obtain ⟨a, halts, came⟩ := evaluates_halts ran
  obtain ⟨a', halts', came'⟩ := evaluates_halts ran'
  obtain ⟨rfl, rfl⟩ := halts.unique halts'
  exact ⟨Option.some.inj (came.symm.trans came'), rfl⟩

theorem executes_unique {s : Stmt} {result result' : Except Fault Completion} {j' : Interpreter}
    (ran : i.Executes s result j) (ran' : i.Executes s result' j') :
    result = result' ∧ j = j' := by
  obtain ⟨a, halts, came⟩ := executes_halts ran
  obtain ⟨a', halts', came'⟩ := executes_halts ran'
  obtain ⟨rfl, rfl⟩ := halts.unique halts'
  exact ⟨Option.some.inj (came.symm.trans came'), rfl⟩

variable {p : Pairing} {m n : Machine}

theorem come_value {l : ValueCont} (comes : Come p (.value .stop) (.value l) m n) :
    ∃ result i, Reaches m ⟨ValueCont.stop.take result, i⟩ ∧
      Follows p Value.Paired l.take result i n := by
  obtain ⟨q, ⟨control, i⟩, ⟨control', j⟩, grows, way, way', met, paired⟩ := comes
  cases met with
  | deliver values => exact ⟨.ok _, i, way, q, .ok _, j, grows.extends_, .ok values, paired, way'⟩
  | raise f => exact ⟨.error f, i, way, q, .error f, j, grows.extends_, .error f, paired, way'⟩

theorem come_stmt {l : StmtCont} (comes : Come p (.stmt .stop) (.stmt l) m n) :
    ∃ result i, Reaches m ⟨StmtCont.stop.take result, i⟩ ∧
      Follows p Completion.Paired l.take result i n := by
  obtain ⟨q, ⟨control, i⟩, ⟨control', j⟩, grows, way, way', met, paired⟩ := comes
  cases met with
  | finish ends => exact ⟨.ok _, i, way, q, .ok _, j, grows.extends_, .ok ends, paired, way'⟩
  | abandon f => exact ⟨.error f, i, way, q, .error f, j, grows.extends_, .error f, paired, way'⟩

variable (paired : Interpreter.Paired p i j)

include paired

theorem evaluate_mirrors (e : Expr) (l : ValueCont) :
    Mirrors p Value.Paired l.take (i.Evaluates e) ⟨.evaluate e l, j⟩ := by
  have abreast : Abreast p (.value .stop) (.value l) i.store.size i.env
      ⟨.evaluate e .stop, i⟩ ⟨.evaluate e l, j⟩ :=
    ⟨⟨.evaluate e .base, paired⟩, .evaluate e .base, Nat.le_refl _,
      fun loose => (paired.store.known (.inr loose)).1⟩
  constructor
  · intro result i' ran
    obtain ⟨a, halts, _⟩ := evaluates_halts ran
    obtain ⟨other, k, way, follows⟩ := come_value (come_of_first halts .value abreast)
    obtain ⟨rfl, rfl⟩ := evaluates_unique ran (evaluates_of_reaches way)
    exact follows
  · rintro ⟨a, j', halts⟩
    obtain ⟨result, k, way, _⟩ := come_value (come_of_second halts .value abreast)
    exact ⟨result, k, evaluates_of_reaches way⟩

theorem execute_mirrors {first : Nat} {s : Stmt} (runs : s.MayRun first i.env)
    (old : first ≤ i.store.size) (near : ∀ {x y}, p.loose x y → x < first) (l : StmtCont) :
    Mirrors p Completion.Paired l.take (i.Executes s) ⟨.execute s l, j⟩ := by
  have abreast : Abreast p (.stmt .stop) (.stmt l) first i.env
      ⟨.execute s .stop, i⟩ ⟨.execute s l, j⟩ :=
    ⟨⟨.execute s .base, paired⟩, .execute runs .base, old, near⟩
  constructor
  · intro result i' ran
    obtain ⟨a, halts, _⟩ := executes_halts ran
    obtain ⟨other, k, way, follows⟩ := come_stmt (come_of_first halts .stmt abreast)
    obtain ⟨rfl, rfl⟩ := executes_unique ran (executes_of_reaches way)
    exact follows
  · rintro ⟨a, j', halts⟩
    obtain ⟨result, k, way, _⟩ := come_stmt (come_of_second halts .stmt abreast)
    exact ⟨result, k, executes_of_reaches way⟩

theorem plain_mirrors {s : Stmt} (plain : s.IsPlain) (l : StmtCont) :
    Mirrors p Completion.Paired l.take (i.Executes s) ⟨.execute s l, j⟩ :=
  execute_mirrors paired (.inr plain) (Nat.le_refl _)
    (fun loose => (paired.store.known (.inr loose)).1) l

end Parts

end Machine

theorem Interpreter.Executes.env {i j : Interpreter} {s : Stmt} {result : Except Fault Completion}
    (ran : i.Executes s result j) : j.env = i.env := by
  obtain ⟨steps, ran⟩ := ran
  exact congrArg Standing.env ((Machine.standing_restored steps i).2.2.1 s result j ran)

theorem Interpreter.Evaluates.env {i j : Interpreter} {e : Expr} {result : Except Fault Value}
    (ran : i.Evaluates e result j) : j.env = i.env := by
  obtain ⟨steps, ran⟩ := ran
  exact congrArg Standing.env ((Machine.standing_restored steps i).1 e result j ran)

namespace Results

variable {p : Pairing} {result result' : Except Fault Completion}

theorem normal_of (results : Results (Completion.Paired p) (.ok .normal) result') :
    result' = .ok .normal := by
  cases results with
  | ok alike =>
      cases alike
      rfl

theorem ends_of (results : Results (Completion.Paired p) result result')
    (ends : result ≠ .ok .normal) : result' ≠ .ok .normal := by
  rintro rfl
  cases results with
  | ok alike =>
      cases alike
      exact ends rfl

end Results

end Jess
