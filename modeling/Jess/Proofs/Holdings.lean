import Jess.Proofs.Encapsulation
import Jess.Proofs.Traces

/-!
# What a machine holds

A machine holds the values that it delivers or gives back, those that wait, and
those that names stand for. A step adds no callable value to them but the one
that a function declaration makes, and that one takes its identity from the
supply.
-/

namespace Jess

mutual

def ValueCont.values : ValueCont → List Value
  | .stop => []
  | .discard k => k.values
  | .print k => k.values
  | .declare _ k => k.values
  | .branch _ _ k => k.values
  | .test _ _ k => k.values
  | .giveBack k => k.values
  | .unary _ _ k => k.values
  | .left _ _ _ k => k.values
  | .right _ _ left k => left :: k.values
  | .decide _ _ k => k.values
  | .assign _ k => k.values
  | .callee _ _ k => k.values
  | .argument callee done _ _ k => callee :: (done ++ k.values)

def StmtCont.values : StmtCont → List Value
  | .stop => []
  | .program _ => []
  | .sequence _ k => k.values
  | .again _ _ k => k.values
  | .leaveBlock _ k => k.values
  | .leaveCall _ k => k.values

end

def Control.values : Control → List Value
  | .evaluate _ k => k.values
  | .execute _ k => k.values
  | .deliver v k => v :: k.values
  | .finish c k => c.value?.toList ++ k.values
  | .raise _ k => k.values
  | .abandon _ k => k.values
  | .halted a => a.result?.toList

namespace Machine

/-- The value that the next step makes. -/
def made? (m : Machine) : Option Value :=
  match m.control with
  | .execute (.function name params body) _ =>
      some (m.interpreter.fresh (.function ⟨name, params, body⟩ m.interpreter.env)).1
  | _ => none

/-- A machine that holds values of one sort only, with the supply that it has. -/
structure Carries (P : Value → Prop) (supply : Nat) (m : Machine) : Prop where
  control : ∀ v ∈ m.control.values, P v
  stored : m.interpreter.store.Holds P
  supply : m.interpreter.supply = supply

section Steps

variable {P : Value → Prop} (data : ∀ v, v.callable? = none → P v) {i : Interpreter}
  (stored : i.store.Holds P)

section Values

variable {k : ValueCont} (later : ∀ v ∈ k.values, P v)

include stored later

theorem raiseAt_carries (cause : Fault.Cause) (line : Nat) :
    (raiseAt cause line k i).Carries P i.supply := ⟨later, stored, rfl⟩

theorem deliver_value_carries {v : Value} (value : P v) :
    (⟨.deliver v k, i⟩ : Machine).Carries P i.supply :=
  ⟨List.forall_mem_cons.mpr ⟨value, later⟩, stored, rfl⟩

include data

theorem deliverOr_carries {result : Except Fault.Cause Value}
    (plain : ∀ v, result = .ok v → v.callable? = none) (operator : Token) :
    (deliverOr result operator k i).Carries P i.supply := by
  cases result with
  | ok v => exact deliver_value_carries stored later (data v (plain v rfl))
  | error cause => exact raiseAt_carries stored later cause operator.line

theorem evaluate_carries (e : Expr) : (evaluate e k i).Carries P i.supply := by
  cases e with
  | literal l => exact deliver_value_carries stored later (data _ (Value.ofLiteral_data l))
  | «variable» name =>
      cases found : i.store.get? i.env name.lexeme with
      | some v =>
          rw [evaluate_found found]
          exact deliver_value_carries stored later (stored.get? found)
      | none =>
          rw [evaluate_unfound found]
          exact raiseAt_carries stored later _ name.line
  | _ => exact ⟨later, stored, rfl⟩

theorem callNative_carries (n : Native) {args : List Value} (given : ∀ v ∈ args, P v) :
    (callNative n args k i).Carries P i.supply := by
  refine ⟨?_, stored, rfl⟩
  obtain ⟨v, plain | argument, taken⟩ | ⟨f, _, taken⟩ :=
    take_cases (n.action (args.map Value.glimpse)).answer args k
  · simp only [callNative, taken]
    exact List.forall_mem_cons.mpr ⟨data v plain, later⟩
  · simp only [callNative, taken]
    exact List.forall_mem_cons.mpr ⟨given v argument, later⟩
  · simp only [callNative, taken]
    exact later

omit data in
theorem callFunction_carries (f : Function) (closure : Nat) {args : List Value}
    (given : ∀ v ∈ args, P v) : (callFunction f closure args k i).Carries P i.supply := by
  have values : ∀ pair ∈ f.params.zip args, P pair.2 :=
    fun pair known => given pair.2 (List.of_mem_zip known).2
  have filled := Interpreter.bindParams_holds (i := i.enter closure) (stored.openScope _) _ values
  obtain ⟨store, keeps⟩ := (i.enter closure).bindParams_keeps (f.params.zip args)
  cases bound : (i.enter closure).bindParams (f.params.zip args) with
  | mk j clash =>
      rw [bound] at keeps filled
      simp only at keeps
      subst keeps
      cases clash with
      | none =>
          rw [callFunction_bound bound]
          exact ⟨later, filled, rfl⟩
      | some clash =>
          rw [callFunction_clash bound]
          exact ⟨later, filled, rfl⟩

theorem call_carries (callee : Value) {args : List Value} (given : ∀ v ∈ args, P v)
    (paren : Token) : (call callee args paren k i).Carries P i.supply := by
  obtain ⟨cause, raises⟩ | ⟨n, starts⟩ | ⟨f, closure, starts⟩ := call_cases callee args paren k i
  · rw [raises]
    exact raiseAt_carries stored later cause paren.line
  · rw [starts]
    exact callNative_carries data stored later n given
  · rw [starts]
    exact callFunction_carries stored later f closure given

theorem callNext_carries {callee : Value} {done : List Value} (function : P callee)
    (given : ∀ v ∈ done, P v) (rest : List Expr) (paren : Token) :
    (callNext callee done rest paren k i).Carries P i.supply := by
  cases rest with
  | nil =>
      exact call_carries data stored later callee
        (fun v member => given v (List.mem_reverse.mp member)) paren
  | cons arg rest =>
      refine ⟨List.forall_mem_cons.mpr ⟨function, ?_⟩, stored, rfl⟩
      exact List.forall_mem_append.mpr ⟨given, later⟩

end Values

section Statements

variable {k : StmtCont} (later : ∀ v ∈ k.values, P v)

include stored later

theorem declare_carries (name : Token) {v : Value} (value : P v) :
    (declare name v k i).Carries P i.supply := by
  cases bound : i.binds name.lexeme with
  | true =>
      rw [declare_taken bound]
      exact ⟨later, stored, rfl⟩
  | false =>
      rw [declare_free bound]
      exact ⟨later, stored.insert i.env name.lexeme value, rfl⟩

include data

theorem execute_carries (s : Stmt)
    (made : ∀ v, (⟨.execute s k, i⟩ : Machine).made? = some v → P v) :
    (execute s k i).Carries P (i.supply + (⟨.execute s k, i⟩ : Machine).made?.toList.length) := by
  have nil : P .nil := data _ rfl
  cases s with
  | declare name initializer =>
      cases initializer with
      | none => exact declare_carries stored later name nil
      | some e => exact ⟨later, stored, rfl⟩
  | block body => exact ⟨later, stored.openScope _, rfl⟩
  | function name params body =>
      exact declare_carries (i := { i with supply := i.supply + 1 }) stored later name
        (made _ rfl)
  | giveBack keyword value =>
      cases value with
      | none => exact ⟨List.forall_mem_cons.mpr ⟨nil, later⟩, stored, rfl⟩
      | some e => exact ⟨later, stored, rfl⟩
  | _ => exact ⟨later, stored, rfl⟩

end Statements

include data stored

theorem deliver_carries {v : Value} (value : P v) {k : ValueCont} (later : ∀ v ∈ k.values, P v) :
    (deliver v k i).Carries P i.supply := by
  cases k with
  | stop => exact ⟨List.forall_mem_singleton.mpr value, stored, rfl⟩
  | declare name k => exact declare_carries stored later name value
  | branch thenBranch elseBranch k =>
      obtain next | ⟨other, _, next⟩ | next := branch_cases v thenBranch elseBranch k
      all_goals
        rw [next]
        exact ⟨later, stored, rfl⟩
  | test condition body k =>
      obtain next | next := test_cases v condition body k
      all_goals
        rw [next]
        exact ⟨later, stored, rfl⟩
  | giveBack k => exact ⟨List.forall_mem_cons.mpr ⟨value, later⟩, stored, rfl⟩
  | unary op operator k =>
      exact deliverOr_carries (k := k) data stored later (fun _ => UnaryOp.apply_data) operator
  | left op operator right k => exact ⟨List.forall_mem_cons.mpr ⟨value, later⟩, stored, rfl⟩
  | right op operator left k =>
      exact deliverOr_carries data stored (List.forall_mem_cons.mp later).2
        (fun _ => BinaryOp.apply_data) operator
  | decide op right k =>
      obtain next | next := decide_cases v op right k
      · rw [next]
        exact deliver_value_carries (k := k) stored later value
      · rw [next]
        exact ⟨later, stored, rfl⟩
  | assign name k =>
      cases found : i.store.resolve i.env name.lexeme with
      | some home =>
          rw [assign_found found]
          exact ⟨List.forall_mem_cons.mpr ⟨value, later⟩,
            stored.update home name.lexeme value, rfl⟩
      | none =>
          rw [assign_unfound found]
          exact raiseAt_carries (k := k) stored later _ name.line
  | callee paren args k =>
      exact callNext_carries (k := k) data stored later value (List.forall_mem_nil _) args paren
  | argument callee done rest paren k =>
      obtain ⟨function, others⟩ := List.forall_mem_cons.mp later
      obtain ⟨given, later⟩ := List.forall_mem_append.mp others
      exact callNext_carries data stored later function
        (List.forall_mem_cons.mpr ⟨value, given⟩) rest paren
  | _ => exact ⟨later, stored, rfl⟩

theorem finish_carries {c : Completion} {k : StmtCont}
    (held : ∀ v ∈ (Control.finish c k).values, P v) :
    (finish c k i).Carries P i.supply := by
  have nil : P .nil := data _ rfl
  obtain ⟨value, later⟩ := List.forall_mem_append.mp held
  cases k with
  | stop => exact ⟨value, stored, rfl⟩
  | program rest => cases rest <;> exact ⟨List.forall_mem_nil _, stored, rfl⟩
  | sequence rest k =>
      cases c with
      | normal => cases rest <;> exact ⟨later, stored, rfl⟩
      | returned v => exact ⟨held, stored, rfl⟩
  | again condition body k => cases c <;> exact ⟨held, stored, rfl⟩
  | leaveBlock env k => exact ⟨held, stored, rfl⟩
  | leaveCall env k =>
      cases c with
      | normal => exact ⟨List.forall_mem_cons.mpr ⟨nil, later⟩, stored, rfl⟩
      | returned v => exact ⟨held, stored, rfl⟩

omit data in
theorem raise_carries {k : ValueCont} (later : ∀ v ∈ k.values, P v) (f : Fault) :
    (raise f k i).Carries P i.supply := by
  cases k with
  | right op operator left k => exact ⟨(List.forall_mem_cons.mp later).2, stored, rfl⟩
  | argument callee done rest paren k =>
      have others := (List.forall_mem_cons.mp later).2
      exact ⟨(List.forall_mem_append.mp others).2, stored, rfl⟩
  | stop => exact ⟨List.forall_mem_nil _, stored, rfl⟩
  | _ => exact ⟨later, stored, rfl⟩

omit data in
theorem abandon_carries {k : StmtCont} (later : ∀ v ∈ k.values, P v) (f : Fault) :
    (abandon f k i).Carries P i.supply := by
  cases k <;> exact ⟨later, stored, rfl⟩

omit stored in
/-- A step adds no callable value but the one that it makes, which takes one from the supply. -/
theorem step_carries {m : Machine} {supply : Nat} (carries : m.Carries P supply)
    (made : ∀ v, m.made? = some v → P v) :
    m.step.Carries P (supply + m.made?.toList.length) := by
  obtain ⟨control, i⟩ := m
  obtain ⟨held, stored, rfl⟩ := carries
  cases control with
  | evaluate e k => exact evaluate_carries data stored held e
  | execute s k => exact execute_carries data stored held s made
  | deliver v k =>
      obtain ⟨value, later⟩ := List.forall_mem_cons.mp held
      exact deliver_carries data stored value later
  | finish c k => exact finish_carries data stored held
  | raise f k => exact raise_carries stored held f
  | abandon f k => exact abandon_carries stored held f
  | halted a => exact ⟨held, stored, rfl⟩

end Steps

end Machine

end Jess
