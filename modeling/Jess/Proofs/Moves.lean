import Jess.Machine

/-!
# Steps that look at the state

Most steps are told by what is run and what waits. Some look at the interpreter
first: whether a name is bound, what it stands for, and whether there is room
for a call. Each of their outcomes is a law of its own here. Some choose by a
value, and what they may choose is all that most laws have to know. Literals
and operators give values that cannot be called.
-/

namespace Jess

section Data

variable {v : Value}

def Value.callable? : Value → Option Callable
  | .callable _ c => some c
  | _ => none

theorem Value.ofLiteral_data (l : Literal) : (Value.ofLiteral l).callable? = none := by
  cases l <;> rfl

theorem Value.onNumbers_data {op : BinaryOp} {f : Float → Float → Value} {left right : Value}
    (data : ∀ x y, (f x y).callable? = none) (came : Value.onNumbers op f left right = .ok v) :
    v.callable? = none := by
  unfold Value.onNumbers at came
  split at came <;> cases came
  exact data _ _

theorem BinaryOp.apply_data {op : BinaryOp} {left right : Value}
    (came : op.apply left right = .ok v) : v.callable? = none := by
  cases op with
  | add =>
      simp only [apply, Value.plus] at came
      split at came <;> cases came <;> rfl
  | eq =>
      cases came
      rfl
  | notEq =>
      cases came
      rfl
  | _ => exact Value.onNumbers_data (fun _ _ => rfl) came

theorem UnaryOp.apply_data {op : UnaryOp} {operand : Value} (came : op.apply operand = .ok v) :
    v.callable? = none := by
  unfold UnaryOp.apply at came
  split at came <;> cases came <;> rfl

end Data

namespace Machine

variable {i : Interpreter}

section Calls

variable {c : Callable} {args : List Value}

/-- A host function gives data or one of its arguments, or it raises a fault of its own. -/
theorem take_cases (answer : Native.Answer) (args : List Value) (k : ValueCont) :
    (∃ v, (v.callable? = none ∨ v ∈ args) ∧ take answer args k = .deliver v k) ∨
      ∃ f, f.cause.isOverflow = false ∧ take answer args k = .raise f k := by
  cases answer with
  | data l => exact .inl ⟨.ofLiteral l, .inl (Value.ofLiteral_data l), rfl⟩
  | argument index =>
      refine .inl ⟨args.getD index .nil, ?_, rfl⟩
      rw [List.getD_eq_getElem?_getD]
      cases found : args[index]? with
      | none => exact .inl rfl
      | some v => exact .inr (List.mem_of_getElem? found)
  | fault f own => exact .inr ⟨f, own, rfl⟩

theorem call_mismatched (mismatch : c.arity ≠ args.length) (identity : Nat) (paren : Token)
    (k : ValueCont) :
    call (.callable identity c) args paren k i =
      raiseAt (.arityMismatch c.arity args.length) paren.line k i := by
  simp only [call]
  rw [if_pos mismatch]

variable (suits : c.arity = args.length)

include suits

theorem call_full (full : i.limit ≤ i.depth) (identity : Nat) (paren : Token) (k : ValueCont) :
    call (.callable identity c) args paren k i =
      raiseAt (.stackOverflow i.limit) paren.line k i := by
  simp only [call, suits, ne_eq, not_true_eq_false, if_false]
  rw [if_pos full]

theorem call_allowed (room : i.depth < i.limit) (identity : Nat) (paren : Token) (k : ValueCont) :
    call (.callable identity c) args paren k i =
      match c with
      | .native n => callNative n args k i
      | .function f closure => callFunction f closure args k i := by
  simp only [call, suits, ne_eq, not_true_eq_false, if_false]
  rw [if_neg (Nat.not_le.mpr room)]
  cases c <;> rfl

omit suits in
theorem call_cases (callee : Value) (args : List Value) (paren : Token) (k : ValueCont)
    (i : Interpreter) :
    (∃ cause, call callee args paren k i = raiseAt cause paren.line k i) ∨
      (∃ n, call callee args paren k i = callNative n args k i) ∨
      ∃ f closure, call callee args paren k i = callFunction f closure args k i := by
  cases callee with
  | callable identity c =>
      by_cases suits : c.arity = args.length
      · by_cases room : i.depth < i.limit
        · rw [call_allowed suits room]
          cases c with
          | native n => exact .inr (.inl ⟨n, rfl⟩)
          | function f closure => exact .inr (.inr ⟨f, closure, rfl⟩)
        · exact .inl ⟨_, call_full suits (Nat.not_lt.mp room) identity paren k⟩
      · exact .inl ⟨_, call_mismatched suits identity paren k⟩
  | _ => exact .inl ⟨_, rfl⟩

end Calls

section Functions

variable {f : Function} {closure : Nat} {args : List Value} {j : Interpreter}

theorem callFunction_bound
    (bound : (i.enter closure).bindParams (f.params.zip args) = (j, none)) (k : ValueCont) :
    callFunction f closure args k i =
      ⟨.finish .normal (.sequence f.body (.leaveCall i.env k)), { j with depth := j.depth + 1 }⟩ := by
  simp only [callFunction, bound]

theorem callFunction_clash {clash : Token}
    (bound : (i.enter closure).bindParams (f.params.zip args) = (j, some clash)) (k : ValueCont) :
    callFunction f closure args k i =
      raiseAt (.alreadyDefined clash.lexeme) clash.line k (j.moveTo i.env) := by
  simp only [callFunction, bound]

end Functions

section Names

variable {name : Token} {v : Value}

theorem evaluate_found (found : i.store.get? i.env name.lexeme = some v) (k : ValueCont) :
    evaluate (.variable name) k i = ⟨.deliver v k, i⟩ := by
  simp only [evaluate, found]

theorem evaluate_unfound (unfound : i.store.get? i.env name.lexeme = none) (k : ValueCont) :
    evaluate (.variable name) k i = raiseAt (.undefinedVariable name.lexeme) name.line k i := by
  simp only [evaluate, unfound]

theorem assign_found {home : Nat} (found : i.store.resolve i.env name.lexeme = some home)
    (v : Value) (k : ValueCont) :
    deliver v (.assign name k) i = ⟨.deliver v k, i.update home name.lexeme v⟩ := by
  simp only [deliver, found]

theorem assign_unfound (unfound : i.store.resolve i.env name.lexeme = none) (v : Value)
    (k : ValueCont) :
    deliver v (.assign name k) i = raiseAt (.undefinedVariable name.lexeme) name.line k i := by
  simp only [deliver, unfound]

theorem declare_taken (taken : i.binds name.lexeme = true) (v : Value) (k : StmtCont) :
    declare name v k i =
      ⟨.abandon ((Fault.ofCause (.alreadyDefined name.lexeme)).blamedOn name.line) k, i⟩ := by
  simp only [declare, taken, if_true]

theorem declare_free (free : i.binds name.lexeme = false) (v : Value) (k : StmtCont) :
    declare name v k i = ⟨.finish .normal k, i.define name.lexeme v⟩ := by
  simp only [declare, free, Bool.false_eq_true, if_false]

end Names

section Choices

variable (v : Value)

theorem branch_cases (thenBranch : Stmt) (elseBranch : Option Stmt) (k : StmtCont) :
    (deliver v (.branch thenBranch elseBranch k) = fun i => ⟨.execute thenBranch k, i⟩) ∨
      (∃ other, elseBranch = some other ∧
        deliver v (.branch thenBranch elseBranch k) = fun i => ⟨.execute other k, i⟩) ∨
      deliver v (.branch thenBranch elseBranch k) = fun i => ⟨.finish .normal k, i⟩ := by
  cases truthy : v.isTruthy with
  | true =>
      refine .inl (funext fun i => ?_)
      simp only [deliver, truthy, if_true]
  | false =>
      cases elseBranch with
      | some other =>
          refine .inr (.inl ⟨other, rfl, funext fun i => ?_⟩)
          simp only [deliver, truthy, Bool.false_eq_true, if_false]
      | none =>
          refine .inr (.inr (funext fun i => ?_))
          simp only [deliver, truthy, Bool.false_eq_true, if_false]

theorem test_cases (condition : Expr) (body : Stmt) (k : StmtCont) :
    (deliver v (.test condition body k) = fun i => ⟨.execute body (.again condition body k), i⟩) ∨
      deliver v (.test condition body k) = fun i => ⟨.finish .normal k, i⟩ := by
  cases truthy : v.isTruthy with
  | true =>
      refine .inl (funext fun i => ?_)
      simp only [deliver, truthy, if_true]
  | false =>
      refine .inr (funext fun i => ?_)
      simp only [deliver, truthy, Bool.false_eq_true, if_false]

theorem decide_cases (op : LogicalOp) (right : Expr) (k : ValueCont) :
    (deliver v (.decide op right k) = fun i => ⟨.deliver v k, i⟩) ∨
      deliver v (.decide op right k) = fun i => ⟨.evaluate right k, i⟩ := by
  cases decided : op.decidedBy v with
  | true =>
      refine .inl (funext fun i => ?_)
      simp only [deliver, decided, if_true]
  | false =>
      refine .inr (funext fun i => ?_)
      simp only [deliver, decided, Bool.false_eq_true, if_false]

end Choices

end Machine

end Jess
