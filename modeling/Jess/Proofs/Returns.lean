import Jess.Proofs.Activations
import Jess.Proofs.ProgramRoundTrip

/-!
# Where a `return` ends

A source without mistakes has a `return` in the bodies of its functions only.
What waits inside of a call passes a `return` on until the call is left, with
the value that was returned. So no `return` comes to the top of a program, and
the value of each one goes to what waits for the call that has it in its body.
-/

namespace Jess

theorem Stmt.writable_of_mem {body : List Stmt} {inFunction : Bool} {s : Stmt} (member : s ∈ body)
    (writable : Stmt.WritableAll body inFunction) : s.Writable inFunction := by
  induction body with
  | nil => cases member
  | cons first rest ih =>
      cases member with
      | head => exact writable.1
      | tail _ member => exact ih member writable.2

theorem Stmt.Within.writable {body : List Stmt} {inFunction : Bool} {s : Stmt}
    (inside : s.Within body) (writable : Stmt.WritableAll body inFunction) :
    s.Writable inFunction := by
  induction inside with
  | listed member => exact writable_of_mem member writable
  | @part outer s _ member ih =>
      cases outer with
      | block body => exact writable_of_mem member ih
      | ifThen condition branch => exact List.mem_singleton.mp member ▸ ih.2.2
      | ifElse condition branch other =>
          obtain rfl | rfl := List.mem_pair.mp member
          · exact ih.2.1.2
          · exact ih.2.2.2
      | loop condition body => exact List.mem_singleton.mp member ▸ ih.2.2
      | _ => cases member

theorem Source.IsClean.gives_nothing_back {source : String} (clean : IsClean source)
    {keyword : Token} {value : Option Expr} :
    ¬(Stmt.giveBack keyword value).Within (statements source) := by
  intro inside
  have writable : (Stmt.giveBack keyword value).Writable false :=
    inside.writable clean.areSound.writable
  cases value with
  | none => exact Bool.false_ne_true writable
  | some e => exact Bool.false_ne_true writable.1

theorem Waiting.Traced.gives_back {h : Account} {a : Activation} (v : Value) :
    ∀ {k : StmtCont}, Traced h (some a) (.stmt k) → ∀ i : Interpreter,
      Machine.Reaches ⟨.finish (.returned v) k, i⟩ ⟨.deliver v a.waiting, i.endCall a.home⟩
  | .sequence _ _, .sequence _ later, i => .step (later.gives_back v i)
  | .again _ _ _, .again _ later, i => .step (later.gives_back v i)
  | .leaveBlock outer _, .leaveBlock _ later, i => .step (later.gives_back v (i.moveTo outer))
  | .leaveCall _ _, .leaveCall _ _ _, _ => .step .refl

namespace Machine

def accountOfCalls (program : List Stmt) (start m : Machine) : Account where
  program := program
  seen _ := True
  begun a := a.IsBegun start m
  owns _ _ := True
  holds _ := True

section Calls

variable {program : List Stmt} {start m : Machine}

theorem Reaches.traced_to_calls (reaches : Reaches start m)
    (begins : start.control.Traced (accountOfCalls program start start) none) :
    ∃ r, m.Traced (accountOfCalls program start m) r := by
  have traced : start.Traced (accountOfCalls program start start) none :=
    ⟨begins, trivial, fun _ _ _ _ _ _ => trivial⟩
  refine reaches.traced traced ?_ ?_
  · intro n r _ _
    exact ⟨trivial, fun _ _ => trivial, fun _ _ _ _ _ => trivial, fun _ _ _ => trivial,
      fun a begins => ⟨.inl begins, trivial⟩⟩
  · intro n reached
    exact ⟨rfl, fun _ => id, fun a active begun => begun.next reached active, fun _ _ => id,
      fun _ => id⟩

theorem Traced.runs {a : Activation} (traced : m.Traced (accountOfCalls program start m) (some a)) :
    a.Runs start m :=
  a.runs_of_traced (fun _ => id) traced

end Calls

/-- What a run does with a `return`: none comes to the top of the program, and what a call gives
back, by a `return` in its body, goes to what waits for its value. -/
structure Consumes (start m : Machine) : Prop where
  top : ∀ c rest, m.control = .finish c (.program rest) → c = .normal
  given : ∀ keyword value k, m.control = .execute (.giveBack keyword value) k →
    ∃ a : Activation, a.Runs start m ∧ (Stmt.giveBack keyword value).Within a.function.body ∧
      ∀ v i, Reaches ⟨.finish (.returned v) k, i⟩ ⟨.deliver v a.waiting, i.endCall a.home⟩
  consumed : ∀ v k, m.control = .finish (.returned v) k →
    ∃ a : Activation, a.Runs start m ∧
      (∃ keyword value, (Stmt.giveBack keyword value).Within a.function.body) ∧
      Reaches m ⟨.deliver v a.waiting, m.interpreter.endCall a.home⟩

section Programs

variable {program : List Stmt}
  (plain : ∀ keyword value, ¬(Stmt.giveBack keyword value).Within program)

include plain

theorem Traced.consumes {start m : Machine} {r : Option Activation}
    (traced : m.Traced (accountOfCalls program start m) r) : Consumes start m := by
  have outside : ¬(accountOfCalls program start m).GivesBack none :=
    fun ⟨keyword, value, inside⟩ => plain keyword value inside
  obtain ⟨control, i⟩ := m
  refine ⟨?_, ?_, ?_⟩
  · rintro c rest rfl
    cases traced.control with
    | finish later => rfl
    | giveBack _ gives later =>
        cases later with
        | program _ => exact (outside gives).elim
  · rintro keyword value k rfl
    cases traced.control with
    | execute inside later =>
        cases r with
        | none => exact (plain keyword value inside).elim
        | some a => exact ⟨a, traced.runs, inside, fun v i => later.gives_back v i⟩
  · rintro v k rfl
    cases traced.control with
    | giveBack _ gives later =>
        cases r with
        | none => exact (outside gives).elim
        | some a => exact ⟨a, traced.runs, gives, later.gives_back v i⟩

theorem execute_normal {s : Stmt} (listed : s ∈ program) {i j : Interpreter} {steps : Nat}
    {c : Completion} (ran : i.execute steps s = some (.ok c, j)) : c = .normal := by
  obtain ⟨a, halts, ended⟩ := execute_eq_some_iff.mp ran
  cases a with
  | completed d =>
      cases ended
      have begins : Control.Traced (accountOfCalls program ⟨.execute s .stop, i⟩
          ⟨.execute s .stop, i⟩) none (.execute s .stop) := .execute (.listed listed) .stop
      obtain ⟨r, traced⟩ := (reaches_of_run halts).traced_to_calls begins
      cases c with
      | normal => rfl
      | returned v =>
          cases traced.control with
          | halted _ gives =>
              obtain ⟨keyword, value, inside⟩ := gives v rfl
              exact (plain keyword value inside).elim
  | _ => cases ended

end Programs

/-- The static check of `return` is sound for runs: a source without mistakes has no statement that
ends with a `return`, and all that its functions return goes to what called them. -/
theorem returns_consumed {source : String} (clean : Source.IsClean source) :
    (∀ s ∈ Source.statements source, ∀ (i j : Interpreter) (steps : Nat) (c : Completion),
      i.execute steps s = some (.ok c, j) → c = .normal) ∧
    ∀ i m, Reaches (ofProgram (Source.statements source) i) m →
      Consumes (ofProgram (Source.statements source) i) m := by
  have plain : ∀ keyword value, ¬(Stmt.giveBack keyword value).Within (Source.statements source) :=
    fun _ _ => clean.gives_nothing_back
  refine ⟨fun s listed i j steps c ran => execute_normal plain listed ran, fun i m reaches => ?_⟩
  obtain ⟨r, traced⟩ := reaches.traced_to_calls (.finish (.program fun _ => id))
  exact traced.consumes plain

/-- A function that returns from inside of a loop, a branch and a block. -/
def nestedReturn : String :=
  "func f(n) { while (true) { if (n) { return n; } } } print f(1);"

theorem returns_consumed_nested :
    Source.IsClean nestedReturn ∧
      let start := ofProgram (Source.statements nestedReturn) (.new 1)
      ∃ m v k, Reaches start m ∧ m.control = .finish (.returned v) k ∧
        ∃ a : Activation, a.Runs start m ∧
          Reaches m ⟨.deliver v a.waiting, m.interpreter.endCall a.home⟩ := by
  let start := ofProgram (Source.statements nestedReturn) (.new 1)
  have clean : Source.IsClean nestedReturn := ⟨by decide +kernel, by decide +kernel⟩
  have reaches : Reaches start (step^[23] start) := reaches_iterate start 23
  have returns : (match (step^[23] start).control with
      | .finish (.returned _) _ => true
      | _ => false) = true := by decide +kernel
  split at returns
  · rename_i v k control
    obtain ⟨a, runs, _, given⟩ :=
      ((returns_consumed clean).2 (.new 1) _ reaches).consumed v k control
    exact ⟨clean, _, v, k, reaches, control, a, runs, given⟩
  · cases returns

end Machine

end Jess
