import Jess.Proofs.Moves
import Jess.Proofs.Runs

/-!
# Scope and calls are restored

What waits for a part of a program says which scope and which number of active
calls a run comes back to once it has left all that waits. Entering a block or a
call moves the run and puts the way back in front of what waits, and leaving
either one takes that way, be it at the end, at a `return` or with a fault. So
no step changes where a run comes back to, and what nothing waits for comes back
to where it started.
-/

namespace Jess

/-- Where a run stands: the current scope and the number of active calls. -/
structure Standing where
  env : Nat
  depth : Nat

def Interpreter.standing (i : Interpreter) : Standing := ⟨i.env, i.depth⟩

mutual

def ValueCont.home (stands : Standing) : ValueCont → Standing
  | .stop => stands
  | .discard k => k.home stands
  | .print k => k.home stands
  | .declare _ k => k.home stands
  | .branch _ _ k => k.home stands
  | .test _ _ k => k.home stands
  | .giveBack k => k.home stands
  | .unary _ _ k => k.home stands
  | .left _ _ _ k => k.home stands
  | .right _ _ _ k => k.home stands
  | .decide _ _ k => k.home stands
  | .assign _ k => k.home stands
  | .callee _ _ k => k.home stands
  | .argument _ _ _ _ k => k.home stands

def StmtCont.home (stands : Standing) : StmtCont → Standing
  | .stop => stands
  | .program _ => stands
  | .sequence _ k => k.home stands
  | .again _ _ k => k.home stands
  | .leaveBlock env k => k.home ⟨env, stands.depth⟩
  | .leaveCall env k => k.home ⟨env, stands.depth - 1⟩

end

def Control.home (stands : Standing) : Control → Standing
  | .evaluate _ k => k.home stands
  | .execute _ k => k.home stands
  | .deliver _ k => k.home stands
  | .finish _ k => k.home stands
  | .raise _ k => k.home stands
  | .abandon _ k => k.home stands
  | .halted _ => stands

namespace Machine

def home (m : Machine) : Standing := m.control.home m.interpreter.standing

section Values

variable (k : ValueCont) (i : Interpreter)

theorem deliverOr_home (result : Except Fault.Cause Value) (operator : Token) :
    (deliverOr result operator k i).home = k.home i.standing := by
  cases result <;> rfl

theorem evaluate_home (e : Expr) : (evaluate e k i).home = k.home i.standing := by
  cases e with
  | «variable» name =>
      cases found : i.store.get? i.env name.lexeme with
      | some v =>
          rw [evaluate_found found]
          rfl
      | none =>
          rw [evaluate_unfound found]
          rfl
  | _ => rfl

theorem callNative_home (n : Native) (args : List Value) :
    (callNative n args k i).home = k.home i.standing := by
  obtain ⟨v, _, taken⟩ | ⟨f, _, taken⟩ :=
      take_cases (n.action (args.map Value.glimpse)).answer args k <;>
    simp only [callNative, taken] <;> rfl

theorem callFunction_home (f : Function) (closure : Nat) (args : List Value) :
    (callFunction f closure args k i).home = k.home i.standing := by
  obtain ⟨store, keeps⟩ := (i.enter closure).bindParams_keeps (f.params.zip args)
  cases bound : (i.enter closure).bindParams (f.params.zip args) with
  | mk j clash =>
      rw [bound] at keeps
      simp only at keeps
      subst keeps
      cases clash with
      | none =>
          rw [callFunction_bound bound]
          rfl
      | some clash =>
          rw [callFunction_clash bound]
          rfl

theorem call_home (callee : Value) (args : List Value) (paren : Token) :
    (call callee args paren k i).home = k.home i.standing := by
  obtain ⟨cause, raises⟩ | ⟨n, starts⟩ | ⟨f, closure, starts⟩ := call_cases callee args paren k i
  · rw [raises]
    rfl
  · rw [starts]
    exact callNative_home k i n args
  · rw [starts]
    exact callFunction_home k i f closure args

theorem callNext_home (callee : Value) (done : List Value) (rest : List Expr) (paren : Token) :
    (callNext callee done rest paren k i).home = k.home i.standing := by
  cases rest with
  | nil => exact call_home k i callee done.reverse paren
  | cons arg rest => rfl

theorem raise_home (f : Fault) : (raise f k i).home = k.home i.standing := by
  cases k <;> rfl

end Values

section Statements

variable (k : StmtCont) (i : Interpreter)

theorem declare_home (name : Token) (v : Value) : (declare name v k i).home = k.home i.standing := by
  cases bound : i.binds name.lexeme with
  | true =>
      rw [declare_taken bound]
      rfl
  | false =>
      rw [declare_free bound]
      rfl

theorem execute_home (s : Stmt) : (execute s k i).home = k.home i.standing := by
  cases s with
  | declare name initializer =>
      cases initializer with
      | none => exact declare_home k i name .nil
      | some e => rfl
  | function name params body => exact declare_home k { i with supply := i.supply + 1 } name _
  | giveBack keyword value => cases value <;> rfl
  | _ => rfl

theorem finish_home (c : Completion) : (finish c k i).home = k.home i.standing := by
  unfold finish
  split <;> try rfl
  all_goals split <;> rfl

theorem abandon_home (f : Fault) : (abandon f k i).home = k.home i.standing := by
  cases k <;> rfl

end Statements

theorem deliver_home (v : Value) (k : ValueCont) (i : Interpreter) :
    (deliver v k i).home = k.home i.standing := by
  cases k with
  | declare name k => exact declare_home k i name v
  | branch thenBranch elseBranch k =>
      obtain next | ⟨other, _, next⟩ | next := branch_cases v thenBranch elseBranch k
      all_goals
        rw [next]
        rfl
  | test condition body k =>
      obtain next | next := test_cases v condition body k
      all_goals
        rw [next]
        rfl
  | unary op operator k => exact deliverOr_home k i (op.apply v) operator
  | right op operator left k => exact deliverOr_home k i (op.apply left v) operator
  | decide op right k =>
      obtain next | next := decide_cases v op right k
      all_goals
        rw [next]
        rfl
  | assign name k =>
      cases found : i.store.resolve i.env name.lexeme with
      | some home =>
          rw [assign_found found]
          rfl
      | none =>
          rw [assign_unfound found]
          rfl
  | callee paren args k => exact callNext_home k i v [] args paren
  | argument callee done rest paren k => exact callNext_home k i callee (v :: done) rest paren
  | _ => rfl

/-- No step changes where a run comes back to. -/
theorem step_home (m : Machine) : m.step.home = m.home := by
  obtain ⟨control, i⟩ := m
  cases control with
  | evaluate e k => exact evaluate_home k i e
  | execute s k => exact execute_home k i s
  | deliver v k => exact deliver_home v k i
  | finish c k => exact finish_home k i c
  | raise f k => exact raise_home k i f
  | abandon f k => exact abandon_home k i f
  | halted a => rfl

theorem Reaches.home {m n : Machine} (reaches : Reaches m n) : n.home = m.home := by
  induction reaches with
  | refl => rfl
  | step _ ih => exact ih.trans (step_home _)

theorem standing_of_run {α : Type} {steps : Nat} {m : Machine} {result : α} {j : Interpreter}
    {pick : Answer → Option α}
    (ran : (match run steps m with
      | none => none
      | some (a, i) => (pick a).map fun result => (result, i)) = some (result, j)) :
    j.standing = m.home := by
  cases came : run steps m with
  | none =>
      rw [came] at ran
      cases ran
  | some answer =>
      obtain ⟨a, l⟩ := answer
      rw [came] at ran
      obtain ⟨picked, _, same⟩ := Option.map_eq_some_iff.mp ran
      cases same
      exact (reaches_of_run came).home

/-- The scope and the number of active calls are restored whenever a part of a program ends: an
expression, a call of a value, a statement, statements in a scope of their own choice, or a whole
program, from any state and with any result. -/
theorem standing_restored (steps : Nat) (i : Interpreter) :
    (∀ e result j, i.evaluate steps e = some (result, j) → j.standing = i.standing) ∧
    (∀ callee args paren result j, i.call steps callee args paren = some (result, j) →
      j.standing = i.standing) ∧
    (∀ s result j, i.execute steps s = some (result, j) → j.standing = i.standing) ∧
    (∀ body env result j, i.executeIn steps body env = some (result, j) →
      j.standing = i.standing) ∧
    ∀ program result j, i.interpret steps program = some (result, j) → j.standing = i.standing := by
  refine ⟨?_, ?_, ?_, ?_, ?_⟩
  · intro e result j ran
    exact standing_of_run ran
  · intro callee args paren result j ran
    exact (standing_of_run ran).trans (call_home .stop i callee args paren)
  · intro s result j ran
    exact standing_of_run ran
  · intro body env result j ran
    exact standing_of_run ran
  · intro program result j ran
    obtain ⟨a, runs, _⟩ := runs_of_interpret ran
    exact runs.home

private def keyword : Token := .unplaced (.keyword .kwReturn) "return" 1

private def failing : Token := .unplaced .identifier "failing" 1

/-- Statements that give back from two blocks and a loop around them. -/
def leavesEarly : List Stmt :=
  [.loop (.literal (.boolean true)) (.block [.block [.giveBack keyword none]])]

/-- Statements that call a function in a block, which fails in a block of its own. -/
def failsInside : List Stmt :=
  [.function failing [] [.block [.expression (.unary .negate failing (.literal .nil))]],
    .block [.expression (.call (.variable failing) failing [])]]

theorem standing_restored_early :
    ∃ i : Interpreter, i.env = 1 ∧
      (∃ c j, i.executeIn 20 leavesEarly 0 = some (.ok c, j) ∧ j.standing = i.standing) ∧
      ∃ f j, i.executeIn 40 failsInside 0 = some (.error f, j) ∧ j.standing = i.standing := by
  let i := (Interpreter.new 1).enter 0
  have returns : (i.executeIn 20 leavesEarly 0).map (fun r => r.1.isOk) = some true := by
    decide +kernel
  have fails : (i.executeIn 40 failsInside 0).map (fun r => r.1.isOk) = some false := by
    decide +kernel
  obtain ⟨⟨result, j⟩, ran, ended⟩ := Option.map_eq_some_iff.mp returns
  obtain ⟨⟨result', j'⟩, ran', failed⟩ := Option.map_eq_some_iff.mp fails
  have restored := (standing_restored 20 i).2.2.2.1 leavesEarly 0 result j ran
  have restored' := (standing_restored 40 i).2.2.2.1 failsInside 0 result' j' ran'
  cases result with
  | error f => cases ended
  | ok c =>
      cases result' with
      | ok c => cases failed
      | error f => exact ⟨i, rfl, ⟨c, j, ran, restored⟩, f, j', ran', restored'⟩

end Machine
end Jess
