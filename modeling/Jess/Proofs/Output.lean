import Jess.Proofs.Lines
import Jess.Proofs.Runs
import Jess.Prompt

/-!
# Lines that were printed before

No step looks at what was printed. So a machine that forgets its lines as soon
as they are written somewhere else goes on as it would have with them.
-/

namespace Jess

def Interpreter.behind (lines : Array String) (i : Interpreter) : Interpreter :=
  { i with printed := lines ++ i.printed }

def Machine.behind (lines : Array String) (m : Machine) : Machine :=
  ⟨m.control, m.interpreter.behind lines⟩

def Machine.quiet (m : Machine) : Machine := ⟨m.control, m.interpreter.clearOutput⟩

variable {lines : Array String}

namespace Interpreter

theorem clearOutput_behind (i : Interpreter) : i.clearOutput.behind i.printed = i := by
  simp only [clearOutput, behind, Array.append_empty]

theorem clearOutput_of_fresh {i : Interpreter} (fresh : i.printed = #[]) : i.clearOutput = i := by
  rw [clearOutput, ← fresh]

theorem output_of_fresh {i : Interpreter} (fresh : i.printed = #[]) : i.output = "" := by
  rw [output, fresh]
  rfl

theorem output_eq (i : Interpreter) : i.output = Text.unlines i.printed.toList := by
  rw [output, Text.unlines, Array.foldl_toList]

theorem output_behind (i j : Interpreter) :
    (i.behind j.printed).output = j.output ++ i.output := by
  rw [output_eq, output_eq, output_eq, behind, Array.toList_append, Text.unlines_append]

theorem printAll_behind (i : Interpreter) (found : List String) :
    (i.behind lines).printAll found = (i.printAll found).behind lines := by
  have same : lines ++ i.printed ++ found = lines ++ (i.printed ++ found) := by
    apply Array.toList_inj.mp
    simp
  simp only [printAll, behind, same]

theorem bindParams_behind (i : Interpreter) (pairs : List (Token × Value)) :
    (i.behind lines).bindParams pairs =
      ((i.bindParams pairs).1.behind lines, (i.bindParams pairs).2) := by
  induction pairs generalizing i with
  | nil => rfl
  | cons pair rest ih =>
      obtain ⟨param, arg⟩ := pair
      have same : (i.behind lines).binds param.lexeme = i.binds param.lexeme := rfl
      simp only [bindParams, same]
      split
      · rfl
      · exact ih (i.define param.lexeme arg)

end Interpreter

namespace Machine

variable (i : Interpreter)

theorem deliverOr_behind (result : Except Fault.Cause Value) (operator : Token) (k : ValueCont) :
    deliverOr result operator k (i.behind lines) =
      (deliverOr result operator k i).behind lines := by
  cases result <;> rfl

theorem evaluate_behind (e : Expr) (k : ValueCont) :
    evaluate e k (i.behind lines) = (evaluate e k i).behind lines := by
  cases e with
  | «variable» name =>
      have same : (i.behind lines).store.get? (i.behind lines).env name.lexeme =
        i.store.get? i.env name.lexeme := rfl
      simp only [evaluate, same]
      cases i.store.get? i.env name.lexeme <;> rfl
  | _ => rfl

theorem declare_behind (name : Token) (v : Value) (k : StmtCont) :
    declare name v k (i.behind lines) = (declare name v k i).behind lines := by
  have same : (i.behind lines).binds name.lexeme = i.binds name.lexeme := rfl
  simp only [declare, same]
  split <;> rfl

theorem execute_behind (s : Stmt) (k : StmtCont) :
    execute s k (i.behind lines) = (execute s k i).behind lines := by
  cases s with
  | declare name value =>
      cases value with
      | none => exact declare_behind i name .nil k
      | some e => rfl
  | function name params body =>
      exact declare_behind { i with supply := i.supply + 1 } name _ k
  | giveBack keyword value => cases value <;> rfl
  | _ => rfl

theorem callFunction_behind (f : Function) (closure : Nat) (args : List Value) (k : ValueCont) :
    callFunction f closure args k (i.behind lines) =
      (callFunction f closure args k i).behind lines := by
  have entered : (i.behind lines).enter closure = (i.enter closure).behind lines := rfl
  simp only [callFunction, entered, Interpreter.bindParams_behind]
  cases (i.enter closure).bindParams (f.params.zip args) with
  | mk j clash => cases clash <;> rfl

theorem callNative_behind (n : Native) (args : List Value) (k : ValueCont) :
    callNative n args k (i.behind lines) = (callNative n args k i).behind lines := by
  simp only [callNative, Interpreter.printAll_behind]
  rfl

theorem call_behind (callee : Value) (args : List Value) (paren : Token) (k : ValueCont) :
    call callee args paren k (i.behind lines) = (call callee args paren k i).behind lines := by
  cases callee with
  | callable identity c =>
      have limit : (i.behind lines).limit = i.limit := rfl
      have depth : (i.behind lines).depth = i.depth := rfl
      simp only [call, limit, depth]
      split
      · rfl
      split
      · rfl
      cases c with
      | native n => exact callNative_behind i n args k
      | function f closure => exact callFunction_behind i f closure args k
  | _ => rfl

theorem callNext_behind (callee : Value) (done : List Value) (rest : List Expr) (paren : Token)
    (k : ValueCont) :
    callNext callee done rest paren k (i.behind lines) =
      (callNext callee done rest paren k i).behind lines := by
  cases rest with
  | nil => exact call_behind i callee done.reverse paren k
  | cons arg rest => rfl

theorem deliver_behind (v : Value) (k : ValueCont) :
    deliver v k (i.behind lines) = (deliver v k i).behind lines := by
  cases k with
  | print k => exact congrArg (Machine.mk (.finish .normal k)) (i.printAll_behind [v.text])
  | declare name k => exact declare_behind i name v k
  | branch thenBranch elseBranch k =>
      simp only [deliver]
      split
      · rfl
      · cases elseBranch <;> rfl
  | test condition body k =>
      simp only [deliver]
      split <;> rfl
  | unary op operator k => exact deliverOr_behind i _ operator k
  | right op operator left k => exact deliverOr_behind i _ operator k
  | decide op right k =>
      simp only [deliver]
      split <;> rfl
  | assign name k =>
      have same : (i.behind lines).store.resolve (i.behind lines).env name.lexeme =
        i.store.resolve i.env name.lexeme := rfl
      simp only [deliver, same]
      cases i.store.resolve i.env name.lexeme <;> rfl
  | callee paren args k => exact callNext_behind i v [] args paren k
  | argument callee done rest paren k => exact callNext_behind i callee (v :: done) rest paren k
  | _ => rfl

theorem finish_behind (c : Completion) (k : StmtCont) :
    finish c k (i.behind lines) = (finish c k i).behind lines := by
  cases k with
  | program rest => cases rest <;> rfl
  | sequence rest k => cases c <;> cases rest <;> rfl
  | again condition body k => cases c <;> rfl
  | leaveCall env k => cases c <;> rfl
  | _ => rfl

/-- A step prints behind whatever was printed before. -/
theorem step_behind (m : Machine) : (m.behind lines).step = m.step.behind lines := by
  obtain ⟨control, i⟩ := m
  cases control with
  | evaluate e k => exact evaluate_behind i e k
  | execute s k => exact execute_behind i s k
  | deliver v k => exact deliver_behind i v k
  | finish c k => exact finish_behind i c k
  | raise f k => cases k <;> rfl
  | abandon f k => cases k <;> rfl
  | halted a => rfl

theorem quiet_behind (m : Machine) : m.quiet.behind m.interpreter.printed = m := by
  rw [behind, quiet, Interpreter.clearOutput_behind]

theorem run_behind (steps : Nat) (m : Machine) :
    run steps (m.behind lines) =
      (run steps m).map fun result => (result.1, result.2.behind lines) := by
  induction steps generalizing m with
  | zero => rfl
  | succ steps ih =>
      by_cases halted : m.IsHalted
      · obtain ⟨a, halted⟩ := halted
        rw [run_halted (m := m.behind lines) halted, run_halted halted]
        rfl
      · rw [run_succ (m := m.behind lines) halted, run_succ halted, step_behind, ih]

end Machine

namespace Prompt

def printedBy (replies : List Reply) : String :=
  replies.foldl (fun text r => text ++ r.printed) ""

def emittedBy (replies : List Reply) : String :=
  replies.foldl (fun text r => text ++ r.emitted) ""

theorem printedBy_append (first second : List Reply) :
    printedBy (first ++ second) = printedBy first ++ printedBy second := by
  rw [printedBy, List.foldl_append, Text.foldl_text]
  rfl

theorem emittedBy_append (first second : List Reply) :
    emittedBy (first ++ second) = emittedBy first ++ emittedBy second := by
  rw [emittedBy, List.foldl_append, Text.foldl_text]
  rfl

end Prompt

end Jess
