import Jess.Execution

/-!
# Runs of a machine

A machine reaches another one by taking steps. It halts exactly where it
reaches a halted machine, and then every larger number of steps gives the same
result.
-/

namespace Jess.Machine

/-- Some number of steps leads from one machine to the other. -/
inductive Reaches : Machine → Machine → Prop
  | refl {m : Machine} : Reaches m m
  | step {m n : Machine} (later : Reaches m.step n) : Reaches m n

theorem Reaches.trans {l m n : Machine} (first : Reaches l m) (second : Reaches m n) :
    Reaches l n := by
  induction first with
  | refl => exact second
  | step _ ih => exact .step (ih second)

def Passes (m n : Machine) : Prop := Reaches m.step n

theorem Passes.reaches {m n : Machine} (passes : Passes m n) : Reaches m n := .step passes

theorem step_halted (a : Answer) (i : Interpreter) :
    (⟨.halted a, i⟩ : Machine).step = ⟨.halted a, i⟩ := rfl

theorem reaches_halted {a : Answer} {i : Interpreter} {m : Machine}
    (reaches : Reaches ⟨.halted a, i⟩ m) : m = ⟨.halted a, i⟩ := by
  generalize same : (⟨.halted a, i⟩ : Machine) = start at reaches
  induction reaches with
  | refl => rfl
  | step _ ih =>
      subst same
      exact ih rfl

theorem Reaches.unique {m : Machine} {a b : Answer} {i j : Interpreter}
    (first : Reaches m ⟨.halted a, i⟩) (second : Reaches m ⟨.halted b, j⟩) : a = b ∧ i = j := by
  generalize same : (⟨.halted a, i⟩ : Machine) = stop at first
  induction first with
  | refl =>
      subst same
      have stays := reaches_halted second
      simp only [mk.injEq, Control.halted.injEq] at stays
      exact ⟨stays.1.symm, stays.2.symm⟩
  | step later ih =>
      cases second with
      | refl => exact ih (by rw [step_halted]; exact .refl) same
      | step later' => exact ih later' same

def IsHalted (m : Machine) : Prop := ∃ a, m.control = .halted a

theorem run_succ {m : Machine} (running : ¬m.IsHalted) (steps : Nat) :
    run (steps + 1) m = run steps m.step := by
  rw [run]
  split
  · rename_i a halted
    exact absurd ⟨a, halted⟩ running
  · rfl

theorem run_halted {m : Machine} {a : Answer} (halted : m.control = .halted a) (steps : Nat) :
    run (steps + 1) m = some (a, m.interpreter) := by
  rw [run]
  split
  · rename_i b halted'
    rw [halted] at halted'
    cases halted'
    rfl
  · rename_i running
    exact absurd halted (running a)

theorem reaches_of_run {steps : Nat} {m : Machine} {a : Answer} {i : Interpreter}
    (ran : run steps m = some (a, i)) : Reaches m ⟨.halted a, i⟩ := by
  induction steps generalizing m with
  | zero => cases ran
  | succ steps ih =>
      by_cases halted : m.IsHalted
      · obtain ⟨b, halted⟩ := halted
        rw [run_halted halted] at ran
        cases ran
        obtain ⟨control, interpreter⟩ := m
        cases halted
        exact .refl
      · rw [run_succ halted] at ran
        exact .step (ih ran)

/-- Enough steps halt a machine that reaches its answer, and so do more. -/
theorem run_of_reaches {m : Machine} {a : Answer} {i : Interpreter}
    (reaches : Reaches m ⟨.halted a, i⟩) :
    ∃ enough, ∀ steps, enough ≤ steps → run steps m = some (a, i) := by
  generalize same : (⟨.halted a, i⟩ : Machine) = stop at reaches
  induction reaches with
  | refl =>
      subst same
      refine ⟨1, fun steps bound => ?_⟩
      obtain ⟨steps, rfl⟩ : ∃ s, steps = s + 1 := ⟨steps - 1, by omega⟩
      exact run_halted rfl steps
  | @step m stop later ih =>
      obtain ⟨enough, runs⟩ := ih same
      refine ⟨enough + 1, fun steps bound => ?_⟩
      obtain ⟨steps, rfl⟩ : ∃ s, steps = s + 1 := ⟨steps - 1, by omega⟩
      by_cases halted : m.IsHalted
      · obtain ⟨b, halted⟩ := halted
        obtain ⟨control, interpreter⟩ := m
        cases halted
        have stays := runs (steps + 1) (by omega)
        rwa [step_halted] at stays
      · rw [run_succ halted]
        exact runs steps (by omega)

theorem run_of_le {m : Machine} {steps more : Nat} {result : Answer × Interpreter}
    (ran : run steps m = some result) (bound : steps ≤ more) : run more m = some result := by
  obtain ⟨a, i⟩ := result
  induction steps generalizing m more with
  | zero => cases ran
  | succ steps ih =>
      obtain ⟨more, rfl⟩ : ∃ n, more = n + 1 := ⟨more - 1, by omega⟩
      by_cases halted : m.IsHalted
      · obtain ⟨b, halted⟩ := halted
        rw [run_halted halted] at ran ⊢
        exact ran
      · rw [run_succ halted] at ran ⊢
        exact ih (by omega) ran

theorem run_on_the_way {m n : Machine} (reaches : Reaches m n) :
    ∀ {steps : Nat} {result : Answer × Interpreter}, run steps m = some result →
      ∃ fewer, fewer ≤ steps ∧ run fewer n = some result := by
  induction reaches with
  | refl =>
      intro steps result ran
      exact ⟨steps, Nat.le_refl _, ran⟩
  | @step m n later ih =>
      intro steps result ran
      cases steps with
      | zero => cases ran
      | succ steps =>
          by_cases halted : m.IsHalted
          · obtain ⟨a, halted⟩ := halted
            obtain ⟨control, i⟩ := m
            cases halted
            exact ih ran
          · rw [run_succ halted] at ran
            obtain ⟨fewer, bound, ran⟩ := ih ran
            exact ⟨fewer, by omega, ran⟩

theorem Reaches.rest {m n : Machine} {a : Answer} {i : Interpreter} (way : Reaches m n)
    (reaches : Reaches m ⟨.halted a, i⟩) : Reaches n ⟨.halted a, i⟩ := by
  obtain ⟨enough, runs⟩ := run_of_reaches reaches
  obtain ⟨fewer, _, ran⟩ := run_on_the_way way (runs enough (Nat.le_refl _))
  exact reaches_of_run ran

theorem run_passes {m n : Machine} (running : ¬m.IsHalted) (passes : Passes m n) {steps : Nat}
    {result : Answer × Interpreter} (ran : run steps m = some result) :
    ∃ fewer, fewer < steps ∧ run fewer n = some result := by
  cases steps with
  | zero => cases ran
  | succ steps =>
      rw [run_succ running] at ran
      obtain ⟨fewer, bound, ran⟩ := run_on_the_way passes ran
      exact ⟨fewer, by omega, ran⟩

theorem evaluate_eq_some_iff {steps : Nat} {e : Expr} {i j : Interpreter}
    {result : Except Fault Value} :
    i.evaluate steps e = some (result, j) ↔
      ∃ a, run steps ⟨.evaluate e .stop, i⟩ = some (a, j) ∧ a.valueOr? = some result := by
  unfold Interpreter.evaluate
  cases run steps ⟨.evaluate e .stop, i⟩ with
  | none => simp
  | some came =>
      obtain ⟨a, l⟩ := came
      simp only [Option.map_eq_some_iff, Option.some.injEq, Prod.mk.injEq]
      constructor
      · rintro ⟨_, held, rfl, rfl⟩
        exact ⟨a, ⟨rfl, rfl⟩, held⟩
      · rintro ⟨_, ⟨rfl, rfl⟩, held⟩
        exact ⟨result, held, rfl, rfl⟩

theorem execute_eq_some_iff {steps : Nat} {s : Stmt} {i j : Interpreter}
    {result : Except Fault Completion} :
    i.execute steps s = some (result, j) ↔
      ∃ a, run steps ⟨.execute s .stop, i⟩ = some (a, j) ∧ a.completionOr? = some result := by
  unfold Interpreter.execute
  cases run steps ⟨.execute s .stop, i⟩ with
  | none => simp
  | some came =>
      obtain ⟨a, l⟩ := came
      simp only [Option.map_eq_some_iff, Option.some.injEq, Prod.mk.injEq]
      constructor
      · rintro ⟨_, held, rfl, rfl⟩
        exact ⟨a, ⟨rfl, rfl⟩, held⟩
      · rintro ⟨_, ⟨rfl, rfl⟩, held⟩
        exact ⟨result, held, rfl, rfl⟩

abbrev Runs (program : List Stmt) (i : Interpreter) (a : Answer) (j : Interpreter) : Prop :=
  Reaches (ofProgram program i) ⟨.halted a, j⟩

theorem interpret_of_runs {program : List Stmt} {i j : Interpreter} {a : Answer}
    (runs : Runs program i a j) :
    ∃ enough, ∀ steps, enough ≤ steps → i.interpret steps program = some (a.fault?, j) := by
  obtain ⟨enough, halts⟩ := run_of_reaches runs
  refine ⟨enough, fun steps bound => ?_⟩
  simp only [Interpreter.interpret, halts steps bound]

theorem runs_of_interpret {program : List Stmt} {i j : Interpreter} {steps : Nat}
    {fault : Option Fault} (ran : i.interpret steps program = some (fault, j)) :
    ∃ a, Runs program i a j ∧ a.fault? = fault := by
  unfold Interpreter.interpret at ran
  split at ran
  · cases ran
  · rename_i a j' halts
    cases ran
    exact ⟨a, reaches_of_run halts, rfl⟩

end Jess.Machine
