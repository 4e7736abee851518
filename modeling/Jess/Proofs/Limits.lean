import Jess.Proofs.Moves
import Jess.Proofs.Runs
import Mathlib.Data.List.Infix

/-!
# Runs under different call limits

The limit is looked at in one place only, where a value is called. Every other
step is the same one under a higher limit, and so is a call that the lower limit
allows. So a run that the lower limit lets through is a run under the higher
one, and a run that it stops is the start of one. The calls that a machine waits
to leave are the ones that its interpreter counts.
-/

namespace Jess

mutual

def ValueCont.calls : ValueCont → Nat
  | .stop => 0
  | .discard k => k.calls
  | .print k => k.calls
  | .declare _ k => k.calls
  | .branch _ _ k => k.calls
  | .test _ _ k => k.calls
  | .giveBack k => k.calls
  | .unary _ _ k => k.calls
  | .left _ _ _ k => k.calls
  | .right _ _ _ k => k.calls
  | .decide _ _ k => k.calls
  | .assign _ k => k.calls
  | .callee _ _ k => k.calls
  | .argument _ _ _ _ k => k.calls

def StmtCont.calls : StmtCont → Nat
  | .stop => 0
  | .program _ => 0
  | .sequence _ k => k.calls
  | .again _ _ k => k.calls
  | .leaveBlock _ k => k.calls
  | .leaveCall _ k => k.calls + 1

end

namespace Control

def calls : Control → Nat
  | .evaluate _ k => k.calls
  | .execute _ k => k.calls
  | .deliver _ k => k.calls
  | .finish _ k => k.calls
  | .raise _ k => k.calls
  | .abandon _ k => k.calls
  | .halted _ => 0

def fault? : Control → Option Fault
  | .raise f _ => some f
  | .abandon f _ => some f
  | .halted (.failed f) => some f
  | _ => none

end Control

def Interpreter.withLimit (i : Interpreter) (limit : Nat) : Interpreter := { i with limit := limit }

theorem Interpreter.bindParams_withLimit (i : Interpreter) (pairs : List (Token × Value))
    (limit : Nat) :
    (i.withLimit limit).bindParams pairs =
      ((i.bindParams pairs).1.withLimit limit, (i.bindParams pairs).2) := by
  induction pairs generalizing i with
  | nil => rfl
  | cons pair rest ih =>
      obtain ⟨param, arg⟩ := pair
      have same : (i.withLimit limit).binds param.lexeme = i.binds param.lexeme := rfl
      simp only [bindParams, same]
      split
      · rfl
      · exact ih (i.define param.lexeme arg)

section Operators

variable {op : BinaryOp} {left right : Value} {cause : Fault.Cause}

theorem Value.onNumbers_calm {f : Float → Float → Value}
    (failed : Value.onNumbers op f left right = .error cause) : cause.isOverflow = false := by
  unfold Value.onNumbers at failed
  split at failed <;> cases failed
  rfl

theorem Value.plus_calm (failed : left.plus right = .error cause) : cause.isOverflow = false := by
  unfold Value.plus at failed
  split at failed <;> cases failed
  rfl

theorem BinaryOp.apply_calm (failed : op.apply left right = .error cause) :
    cause.isOverflow = false := by
  cases op with
  | add => exact Value.plus_calm failed
  | eq => cases failed
  | notEq => cases failed
  | _ => exact Value.onNumbers_calm failed

theorem UnaryOp.apply_calm {op : UnaryOp} {operand : Value}
    (failed : op.apply operand = .error cause) : cause.isOverflow = false := by
  unfold UnaryOp.apply at failed
  split at failed <;> cases failed
  rfl

end Operators

namespace Machine

def withLimit (m : Machine) (limit : Nat) : Machine := ⟨m.control, m.interpreter.withLimit limit⟩

/-- The number of calls that a machine is in. -/
def activeCalls (m : Machine) : Nat := m.control.calls

/-- What a step from an interpreter leads to, unless the step exceeds the limit: the active calls
are counted and no more than the limit, no line is taken back, and no overflow is raised. -/
structure Keeps (known : Option Fault) (i : Interpreter) (m : Machine) : Prop where
  counted : m.interpreter.depth = m.activeCalls
  bounded : m.interpreter.depth ≤ i.limit
  limit : m.interpreter.limit = i.limit
  printed : i.printed.toList <+: m.interpreter.printed.toList
  calm : ∀ f, m.control.fault? = some f → f.cause.isOverflow = true → known = some f

/-- Such a step is the same one under every higher limit. -/
structure Steady (known : Option Fault) (i : Interpreter) (next : Interpreter → Machine) :
    Prop extends Keeps known i (next i) where
  raised : ∀ high, i.limit ≤ high → next (i.withLimit high) = (next i).withLimit high

theorem Steady.congr {known : Option Fault} {i : Interpreter} {next other : Interpreter → Machine}
    (steady : Steady known i next)
    (same : ∀ high, i.limit ≤ high → other (i.withLimit high) = next (i.withLimit high)) :
    Steady known i other := by
  have here : other i = next i := same i.limit (Nat.le_refl _)
  refine ⟨?_, fun high above => ?_⟩
  · rw [here]
    exact steady.toKeeps
  · rw [same high above, here, steady.raised high above]

inductive Calls : Machine → Value → List Value → Prop
  | bare (callee : Value) (paren : Token) (k : ValueCont) (i : Interpreter) :
      Calls ⟨.deliver callee (.callee paren [] k), i⟩ callee []
  | given (callee last : Value) (done : List Value) (paren : Token) (k : ValueCont)
      (i : Interpreter) :
      Calls ⟨.deliver last (.argument callee done [] paren k), i⟩ callee (last :: done).reverse

/-- A callable value would be called with as many arguments as it takes. -/
def Suits (callee : Value) (args : List Value) : Prop :=
  ∃ identity c, callee = .callable identity c ∧ c.arity = args.length

/-- The next step is a call beyond the limit. -/
def Exceeds (m : Machine) : Prop :=
  ∃ callee args, Calls m callee args ∧ Suits callee args ∧
    m.interpreter.limit ≤ m.interpreter.depth

section Moves

variable {i : Interpreter} (bounded : i.depth ≤ i.limit)

include bounded

theorem move_steady {known : Option Fault} {control : Control} (fault : control.fault? = known)
    (counted : i.depth = control.calls) : Steady known i fun i => ⟨control, i⟩ :=
  ⟨⟨counted, bounded, rfl, List.prefix_rfl, fun _ same _ => fault.symm.trans same⟩, fun _ _ => rfl⟩

theorem print_steady (control : Control)
    (calm : ∀ f, control.fault? = some f → f.cause.isOverflow = false)
    (counted : i.depth = control.calls) (lines : List String) :
    Steady none i fun i => ⟨control, i.printAll lines⟩ := by
  refine ⟨⟨counted, bounded, rfl, ?_, fun f same overflows => ?_⟩, fun _ _ => rfl⟩
  · simp only [Interpreter.printAll, Array.toList_appendList]
    exact List.prefix_append ..
  · rw [calm f same] at overflows
    cases overflows

end Moves

section Values

variable {i : Interpreter} {k : ValueCont} (counted : i.depth = k.calls) (bounded : i.depth ≤ i.limit)

include counted bounded

theorem raiseAt_steady {cause : Fault.Cause} (calm : cause.isOverflow = false) (line : Nat) :
    Steady none i (raiseAt cause line k) := by
  refine ⟨⟨counted, bounded, rfl, List.prefix_rfl, ?_⟩, fun _ _ => rfl⟩
  intro f same overflows
  cases same
  exact absurd overflows (by simp [Fault.blamedOn, Fault.ofCause, calm])

theorem deliverOr_steady {result : Except Fault.Cause Value}
    (calm : ∀ cause, result = .error cause → cause.isOverflow = false) (operator : Token) :
    Steady none i (deliverOr result operator k) := by
  cases result with
  | ok v => exact move_steady bounded rfl counted
  | error cause => exact raiseAt_steady counted bounded (calm cause rfl) operator.line

theorem callNative_steady (n : Native) (args : List Value) :
    Steady none i (callNative n args k) := by
  let reply := n.action (args.map Value.glimpse)
  refine print_steady bounded (take reply.answer args k) ?_ ?_ reply.printed
  · obtain ⟨v, _, taken⟩ | ⟨f, own, taken⟩ := take_cases reply.answer args k
    · rw [taken]
      exact nofun
    · rw [taken]
      intro g same
      cases same
      exact own
  · obtain ⟨v, _, taken⟩ | ⟨f, _, taken⟩ := take_cases reply.answer args k <;>
      rw [taken] <;> exact counted

theorem callFunction_steady (room : i.depth < i.limit) (f : Function) (closure : Nat)
    (args : List Value) : Steady none i (callFunction f closure args k) := by
  have raised : ∀ {j clash}, (i.enter closure).bindParams (f.params.zip args) = (j, clash) →
      ∀ high, ((i.withLimit high).enter closure).bindParams (f.params.zip args) =
        (j.withLimit high, clash) := by
    intro j clash bound high
    have entered : (i.withLimit high).enter closure = (i.enter closure).withLimit high := rfl
    rw [entered, Interpreter.bindParams_withLimit, bound]
  obtain ⟨store, keeps⟩ := (i.enter closure).bindParams_keeps (f.params.zip args)
  cases bound : (i.enter closure).bindParams (f.params.zip args) with
  | mk j clash =>
      rw [bound] at keeps
      simp only at keeps
      subst keeps
      cases clash with
      | none =>
          refine ⟨?_, fun high _ => ?_⟩
          · rw [callFunction_bound bound]
            exact ⟨congrArg (· + 1) counted, room, rfl, List.prefix_rfl, nofun⟩
          · rw [callFunction_bound (raised bound high), callFunction_bound bound]
            rfl
      | some clash =>
          have calm : (Fault.Cause.alreadyDefined clash.lexeme).isOverflow = false := rfl
          have raises := raiseAt_steady (i := { i with store := store }) counted bounded calm clash.line
          refine ⟨?_, fun high _ => ?_⟩
          · rw [callFunction_clash bound]
            exact ⟨raises.counted, raises.bounded, raises.limit, raises.printed, raises.calm⟩
          · rw [callFunction_clash (raised bound high), callFunction_clash bound]
            rfl

theorem call_steady {callee : Value} {args : List Value}
    (room : Suits callee args → i.depth < i.limit) (paren : Token) :
    Steady none i (call callee args paren k) := by
  cases callee with
  | callable identity c =>
      by_cases suits : c.arity = args.length
      · have below := room ⟨identity, c, rfl, suits⟩
        have allowed : ∀ high, i.limit ≤ high →
            (i.withLimit high).depth < (i.withLimit high).limit :=
          fun high above => Nat.lt_of_lt_of_le below above
        cases c with
        | native n =>
            exact (callNative_steady counted bounded n args).congr fun high above =>
              call_allowed suits (allowed high above) identity paren k
        | function f closure =>
            exact (callFunction_steady counted bounded below f closure args).congr fun high above =>
              call_allowed suits (allowed high above) identity paren k
      · exact (raiseAt_steady counted bounded rfl paren.line).congr fun _ _ =>
          call_mismatched suits identity paren k
  | _ => exact raiseAt_steady counted bounded rfl paren.line

theorem callNext_steady {callee : Value} {done : List Value} {rest : List Expr}
    (room : rest = [] → Suits callee done.reverse → i.depth < i.limit) (paren : Token) :
    Steady none i (callNext callee done rest paren k) := by
  cases rest with
  | nil => exact call_steady counted bounded (room rfl) paren
  | cons arg rest =>
      exact move_steady bounded rfl counted

theorem evaluate_steady (e : Expr) : Steady none i (evaluate e k) := by
  cases e with
  | «variable» name =>
      cases found : i.store.get? i.env name.lexeme with
      | some v =>
          have delivers : Steady none i fun j => ⟨.deliver v k, j⟩ := move_steady bounded rfl counted
          exact delivers.congr fun high _ => evaluate_found (i := i.withLimit high) found k
      | none =>
          have calm : (Fault.Cause.undefinedVariable name.lexeme).isOverflow = false := rfl
          exact (raiseAt_steady counted bounded calm name.line).congr fun high _ =>
            evaluate_unfound (i := i.withLimit high) found k
  | _ => exact move_steady bounded rfl counted

end Values

theorem endCall_counts {i : Interpreter} {k : ValueCont} {env : Nat}
    (counted : i.depth = (StmtCont.leaveCall env k).calls) (bounded : i.depth ≤ i.limit) (home : Nat) :
    (i.endCall home).depth = k.calls ∧ (i.endCall home).depth ≤ i.limit := by
  have one : i.depth = k.calls + 1 := counted
  refine ⟨?_, Nat.le_trans (Nat.sub_le ..) bounded⟩
  simp only [Interpreter.endCall, one, Nat.add_sub_cancel]

section Statements

variable {i : Interpreter} {k : StmtCont} (counted : i.depth = k.calls) (bounded : i.depth ≤ i.limit)

include counted bounded

theorem declare_steady (name : Token) (v : Value) : Steady none i (declare name v k) := by
  cases bound : i.binds name.lexeme with
  | true =>
      have abandons : Steady none i fun j =>
          ⟨.abandon ((Fault.ofCause (.alreadyDefined name.lexeme)).blamedOn name.line) k, j⟩ := by
        refine ⟨⟨counted, bounded, rfl, List.prefix_rfl, ?_⟩, fun _ _ => rfl⟩
        intro f same overflows
        cases same
        cases overflows
      exact abandons.congr fun high _ => declare_taken (i := i.withLimit high) bound v k
  | false =>
      have defines : Steady none i fun j => ⟨.finish .normal k, j.define name.lexeme v⟩ :=
        ⟨⟨counted, bounded, rfl, List.prefix_rfl, nofun⟩, fun _ _ => rfl⟩
      exact defines.congr fun high _ => declare_free (i := i.withLimit high) bound v k

theorem execute_steady (s : Stmt) : Steady none i (execute s k) := by
  cases s with
  | declare name initializer =>
      cases initializer with
      | none => exact declare_steady counted bounded name .nil
      | some e => exact move_steady bounded rfl counted
  | block body => exact ⟨⟨counted, bounded, rfl, List.prefix_rfl, nofun⟩, fun _ _ => rfl⟩
  | function name params body =>
      have declares := declare_steady (i := { i with supply := i.supply + 1 }) counted bounded name
        (.callable i.supply (.function ⟨name, params, body⟩ i.env))
      exact ⟨⟨declares.counted, declares.bounded, declares.limit, declares.printed, declares.calm⟩,
        declares.raised⟩
  | giveBack keyword value =>
      cases value with
      | none => exact move_steady bounded rfl counted
      | some e => exact move_steady bounded rfl counted
  | _ => exact move_steady bounded rfl counted

theorem finish_steady (c : Completion) : Steady none i (finish c k) := by
  cases k with
  | stop => exact move_steady bounded rfl counted
  | program rest =>
      cases rest with
      | nil => exact move_steady bounded rfl counted
      | cons s rest => exact move_steady bounded rfl counted
  | sequence rest k =>
      cases c with
      | normal =>
          cases rest with
          | nil => exact move_steady bounded rfl counted
          | cons s rest => exact move_steady bounded rfl counted
      | returned v => exact move_steady bounded rfl counted
  | again condition body k =>
      cases c with
      | normal => exact move_steady bounded rfl counted
      | returned v => exact move_steady bounded rfl counted
  | leaveBlock env k => exact ⟨⟨counted, bounded, rfl, List.prefix_rfl, nofun⟩, fun _ _ => rfl⟩
  | leaveCall env k =>
      obtain ⟨left, less⟩ := endCall_counts counted bounded env
      cases c with
      | normal => exact ⟨⟨left, less, rfl, List.prefix_rfl, nofun⟩, fun _ _ => rfl⟩
      | returned v => exact ⟨⟨left, less, rfl, List.prefix_rfl, nofun⟩, fun _ _ => rfl⟩

theorem abandon_steady (f : Fault) : Steady (some f) i (abandon f k) := by
  cases k with
  | stop => exact move_steady bounded rfl counted
  | program rest => exact move_steady bounded rfl counted
  | sequence rest k => exact move_steady bounded rfl counted
  | again condition body k => exact move_steady bounded rfl counted
  | leaveBlock env k =>
      exact ⟨⟨counted, bounded, rfl, List.prefix_rfl, fun _ same _ => same⟩, fun _ _ => rfl⟩
  | leaveCall env k =>
      obtain ⟨left, less⟩ := endCall_counts counted bounded env
      exact ⟨⟨left, less, rfl, List.prefix_rfl, fun _ same _ => same⟩, fun _ _ => rfl⟩

end Statements

section Deliveries

variable {i : Interpreter} {k : ValueCont} (counted : i.depth = k.calls) (bounded : i.depth ≤ i.limit)

include counted bounded

theorem raise_steady (f : Fault) : Steady (some f) i (raise f k) := by
  cases k with
  | _ => exact move_steady bounded rfl counted

theorem deliver_steady (v : Value) (room : ¬Exceeds ⟨.deliver v k, i⟩) :
    Steady none i (deliver v k) := by
  cases k with
  | print k => exact print_steady bounded (.finish .normal k) nofun counted [v.text]
  | declare name k => exact declare_steady counted bounded name v
  | branch thenBranch elseBranch k =>
      obtain takes | ⟨other, _, takes⟩ | passes := branch_cases v thenBranch elseBranch k
      · rw [takes]
        exact move_steady bounded rfl counted
      · rw [takes]
        exact move_steady bounded rfl counted
      · rw [passes]
        exact move_steady bounded rfl counted
  | test condition body k =>
      obtain runs | passes := test_cases v condition body k
      · rw [runs]
        exact move_steady bounded rfl counted
      · rw [passes]
        exact move_steady bounded rfl counted
  | unary op operator k =>
      exact deliverOr_steady (k := k) counted bounded (fun _ => UnaryOp.apply_calm) operator
  | right op operator left k =>
      exact deliverOr_steady (k := k) counted bounded (fun _ => BinaryOp.apply_calm) operator
  | decide op right k =>
      obtain delivers | goes := decide_cases v op right k
      · rw [delivers]
        exact move_steady bounded rfl counted
      · rw [goes]
        exact move_steady bounded rfl counted
  | assign name k =>
      cases found : i.store.resolve i.env name.lexeme with
      | some home =>
          have updates : Steady none i fun j => ⟨.deliver v k, j.update home name.lexeme v⟩ :=
            ⟨⟨counted, bounded, rfl, List.prefix_rfl, nofun⟩, fun _ _ => rfl⟩
          exact updates.congr fun high _ => assign_found (i := i.withLimit high) found v k
      | none =>
          have calm : (Fault.Cause.undefinedVariable name.lexeme).isOverflow = false := rfl
          have raises := raiseAt_steady (k := k) counted bounded calm name.line
          exact raises.congr fun high _ => assign_unfound (i := i.withLimit high) found v k
  | callee paren args k =>
      refine callNext_steady (k := k) counted bounded ?_ paren
      rintro rfl suits
      exact Nat.not_le.mp fun full => room ⟨v, [], .bare v paren k i, suits, full⟩
  | argument callee done rest paren k =>
      refine callNext_steady (k := k) counted bounded ?_ paren
      rintro rfl suits
      exact Nat.not_le.mp fun full => room ⟨callee, _, .given callee v done paren k i, suits, full⟩
  | _ => exact move_steady bounded rfl counted

end Deliveries

theorem step_steady {m : Machine} (counted : m.interpreter.depth = m.activeCalls)
    (bounded : m.interpreter.depth ≤ m.interpreter.limit) (room : ¬Exceeds m) :
    Steady m.control.fault? m.interpreter fun i => (⟨m.control, i⟩ : Machine).step := by
  obtain ⟨control, i⟩ := m
  cases control with
  | evaluate e k => exact evaluate_steady counted bounded e
  | execute s k => exact execute_steady counted bounded s
  | deliver v k => exact deliver_steady counted bounded v room
  | finish c k => exact finish_steady counted bounded c
  | raise f k => exact raise_steady counted bounded f
  | abandon f k => exact abandon_steady counted bounded f
  | halted a => exact move_steady bounded rfl counted

theorem step_exceeds {m : Machine} (exceeds : Exceeds m) :
    ∃ line k, m.step = raiseAt (.stackOverflow m.interpreter.limit) line k m.interpreter ∧
      k.calls = m.activeCalls := by
  obtain ⟨callee, args, calls, ⟨identity, c, rfl, suits⟩, full⟩ := exceeds
  cases calls with
  | bare _ paren k i => exact ⟨paren.line, k, call_full suits full identity paren k, rfl⟩
  | given _ last done paren k i =>
      exact ⟨paren.line, k, call_full suits full identity paren k, rfl⟩

/-- The calls that a machine is in are counted and no more than the limit. -/
structure Tallied (m : Machine) : Prop where
  counted : m.interpreter.depth = m.activeCalls
  bounded : m.interpreter.depth ≤ m.interpreter.limit

theorem tallied_start {program : List Stmt} {i : Interpreter} (idle : i.depth = 0) :
    Tallied (ofProgram program i) := by
  refine ⟨idle, ?_⟩
  simp only [ofProgram, idle, Nat.zero_le]

theorem step_tallied {m : Machine} (tallied : Tallied m) :
    Tallied m.step ∧ m.step.interpreter.limit = m.interpreter.limit ∧
      m.interpreter.printed.toList <+: m.step.interpreter.printed.toList := by
  by_cases exceeds : Exceeds m
  · obtain ⟨line, k, raises, calls⟩ := step_exceeds exceeds
    rw [raises]
    exact ⟨⟨tallied.counted.trans calls.symm, tallied.bounded⟩, rfl, List.prefix_rfl⟩
  · have steady := step_steady tallied.counted tallied.bounded exceeds
    exact ⟨⟨steady.counted, steady.bounded.trans_eq steady.limit.symm⟩, steady.limit,
      steady.printed⟩

theorem Reaches.tallied {m n : Machine} (reaches : Reaches m n) (tallied : Tallied m) :
    Tallied n ∧ n.interpreter.limit = m.interpreter.limit ∧
      m.interpreter.printed.toList <+: n.interpreter.printed.toList := by
  induction reaches with
  | refl => exact ⟨tallied, rfl, List.prefix_rfl⟩
  | step _ ih =>
      obtain ⟨next, same, first⟩ := step_tallied tallied
      obtain ⟨last, kept, later⟩ := ih next
      exact ⟨last, kept.trans same, first.trans later⟩

theorem step_passes_on {m : Machine} {f : Fault} (faulty : m.control.fault? = some f) :
    m.step.control.fault? = some f ∧ m.step.interpreter.printed = m.interpreter.printed := by
  obtain ⟨control, i⟩ := m
  cases control with
  | raise g k =>
      cases faulty
      cases k <;> exact ⟨rfl, rfl⟩
  | abandon g k =>
      cases faulty
      cases k <;> exact ⟨rfl, rfl⟩
  | halted a => exact ⟨faulty, rfl⟩
  | _ => cases faulty

theorem Reaches.ends_with {m : Machine} {f : Fault} {a : Answer} {j : Interpreter}
    (reaches : Reaches m ⟨.halted a, j⟩) (faulty : m.control.fault? = some f) :
    a = .failed f ∧ j.printed = m.interpreter.printed := by
  generalize same : (⟨.halted a, j⟩ : Machine) = stop at reaches
  induction reaches with
  | refl =>
      subst same
      cases a with
      | failed g =>
          cases faulty
          exact ⟨rfl, rfl⟩
      | _ => cases faulty
  | step _ ih =>
      obtain ⟨next, kept⟩ := step_passes_on faulty
      obtain ⟨ends, printed⟩ := ih next same
      exact ⟨ends, printed.trans kept⟩

/-- A run is a run under a higher limit too, or it ends with an overflow of its limit and printed
what a run under the higher limit has printed on its way. -/
theorem Reaches.raised {m : Machine} {a : Answer} {j : Interpreter}
    (reaches : Reaches m ⟨.halted a, j⟩) (tallied : Tallied m)
    (calm : ∀ f, m.control.fault? = some f → f.cause.isOverflow = false) {high : Nat}
    (above : m.interpreter.limit ≤ high) :
    (Reaches (m.withLimit high) ⟨.halted a, j.withLimit high⟩ ∧
      ∀ f, a = .failed f → f.cause.isOverflow = false) ∨
    ∃ f mid, a = .failed f ∧ f.cause = .stackOverflow m.interpreter.limit ∧
      Reaches (m.withLimit high) mid ∧ mid.interpreter.printed = j.printed := by
  generalize same : (⟨.halted a, j⟩ : Machine) = stop at reaches
  induction reaches with
  | refl =>
      subst same
      refine .inl ⟨.refl, ?_⟩
      rintro f rfl
      exact calm f rfl
  | @step m stop later ih =>
      by_cases exceeds : Exceeds m
      · -- from here on the lower limit only passes the overflow on, so the two runs part for good
        obtain ⟨line, k, raises, _⟩ := step_exceeds exceeds
        subst same
        rw [raises] at later
        obtain ⟨ends, printed⟩ := later.ends_with rfl
        exact .inr ⟨_, m.withLimit high, ends, rfl, .refl, printed.symm⟩
      · have steady := step_steady tallied.counted tallied.bounded exceeds
        obtain ⟨next', kept, _⟩ := step_tallied tallied
        have next : (m.withLimit high).step = m.step.withLimit high := steady.raised high above
        have calmer : ∀ f, m.step.control.fault? = some f → f.cause.isOverflow = false := by
          intro f faulty
          by_contra overflows
          have known := steady.calm f faulty (by simpa using overflows)
          exact overflows (calm f known)
        obtain ⟨goes, ends⟩ | ⟨f, mid, ends, cause, goes, printed⟩ :=
          ih next' calmer (kept.trans_le above) same
        · refine .inl ⟨.step ?_, ends⟩
          rwa [next]
        · refine .inr ⟨f, mid, ends, cause.trans (congrArg _ kept), .step ?_, printed⟩
          rwa [next]

def Raises (m : Machine) (f : Fault) : Prop :=
  m.control.fault? = none ∧ m.step.control.fault? = some f

/-- The limit is what a call must be stopped by for an overflow, and it stops every such call. -/
theorem overflows_iff {m : Machine} (tallied : Tallied m) :
    (∃ f, Raises m f ∧ f.cause.isOverflow = true) ↔
      ∃ callee args, Calls m callee args ∧ Suits callee args ∧
        m.activeCalls = m.interpreter.limit := by
  have full : m.interpreter.limit ≤ m.interpreter.depth ↔ m.activeCalls = m.interpreter.limit := by
    rw [← tallied.counted]
    exact ⟨fun above => Nat.le_antisymm tallied.bounded above, fun same => same.ge⟩
  have stops : Exceeds m ↔ ∃ callee args, Calls m callee args ∧ Suits callee args ∧
      m.activeCalls = m.interpreter.limit := by
    simp only [Exceeds, full]
  rw [← stops]
  constructor
  · rintro ⟨f, ⟨sound, faulty⟩, overflows⟩
    by_contra room
    have steady := step_steady tallied.counted tallied.bounded room
    have known := steady.calm f faulty overflows
    rw [sound] at known
    cases known
  · intro exceeds
    obtain ⟨line, k, raises, _⟩ := step_exceeds exceeds
    refine ⟨_, ⟨?_, congrArg (fun n => n.control.fault?) raises⟩, rfl⟩
    obtain ⟨callee, args, calls, _, _⟩ := exceeds
    cases calls <;> rfl

/-- A run that a limit does not stop is the same run under every higher limit. One that it stops
ends with an overflow that tells the limit, and printed the start of what a run under a higher
limit prints. On the way the active calls are counted and no more than the limit, and an overflow
is raised where a callable value is called with as many arguments as it takes and the active calls
are as many as the limit, and nowhere else. -/
theorem interpret_raised (program : List Stmt) (i : Interpreter) (idle : i.depth = 0)
    (low high : Nat) (above : low ≤ high) :
    (∀ steps fault j, (i.withLimit low).interpret steps program = some (fault, j) →
      (∀ f, fault = some f → f.cause.isOverflow = false) →
      ∃ enough, ∀ steps, enough ≤ steps →
        (i.withLimit high).interpret steps program = some (fault, j.withLimit high)) ∧
    (∀ steps f j, (i.withLimit low).interpret steps program = some (some f, j) →
      f.cause.isOverflow = true →
      f.cause = .stackOverflow low ∧
      ∀ steps fault j', (i.withLimit high).interpret steps program = some (fault, j') →
        j.printed.toList <+: j'.printed.toList) ∧
    ∀ m, Reaches (ofProgram program (i.withLimit low)) m →
      m.interpreter.depth = m.activeCalls ∧ m.activeCalls ≤ low ∧
      ((∃ f, Raises m f ∧ f.cause.isOverflow = true) ↔
        ∃ callee args, Calls m callee args ∧ Suits callee args ∧ m.activeCalls = low) := by
  have start : Tallied (ofProgram program (i.withLimit low)) := tallied_start idle
  have raised : ∀ {a j}, Runs program (i.withLimit low) a j → _ :=
    fun runs => runs.raised start nofun above
  refine ⟨?_, ?_, ?_⟩
  · intro steps fault j ran calm
    obtain ⟨a, runs, rfl⟩ := runs_of_interpret ran
    obtain ⟨goes, _⟩ | ⟨f, mid, rfl, cause, _⟩ := raised runs
    · exact interpret_of_runs goes
    · have sound := calm f rfl
      rw [cause] at sound
      cases sound
  · intro steps f j ran overflows
    obtain ⟨a, runs, ends⟩ := runs_of_interpret ran
    cases a with
    | failed g =>
        cases ends
        obtain ⟨_, calm⟩ | ⟨g, mid, same, cause, goes, printed⟩ := raised runs
        · exact absurd overflows (by rw [calm f rfl]; exact Bool.false_ne_true)
        · cases same
          refine ⟨cause, fun steps fault j' ran' => ?_⟩
          obtain ⟨b, runs', _⟩ := runs_of_interpret ran'
          have begun : Tallied (ofProgram program (i.withLimit high)) := tallied_start idle
          -- The run under the higher limit has been where the other one was cut off.
          rw [← printed]
          exact ((goes.rest runs').tallied (goes.tallied begun).1).2.2
    | _ => cases ends
  · intro m reaches
    obtain ⟨tallied, kept, _⟩ := reaches.tallied start
    have limit : m.interpreter.limit = low := kept
    refine ⟨tallied.counted, ?_, ?_⟩
    · rw [← tallied.counted, ← limit]
      exact tallied.bounded
    · rw [← limit]
      exact overflows_iff tallied

/-- A program with a function that prints a line and calls itself again. -/
def endless : List Stmt :=
  let name := Token.unplaced .identifier "again" 1
  let again := Stmt.expression (.call (.variable name) (.unplaced (.symbol .rightParen) ")" 1) [])
  [.function name [] [.print (.literal (.string "in")), again], again]

theorem interpret_raised_endless :
    (Interpreter.new 0).depth = 0 ∧ 1 ≤ 2 ∧
    ∃ f j, ((Interpreter.new 0).withLimit 1).interpret 40 endless = some (some f, j) ∧
      f.cause = .stackOverflow 1 ∧ j.printed = #["in"] ∧
      ∀ steps fault j', ((Interpreter.new 0).withLimit 2).interpret steps endless =
        some (fault, j') → ["in"] <+: j'.printed.toList := by
  have ends : (((Interpreter.new 0).withLimit 1).interpret 40 endless).map
      (fun r => (r.1.map Fault.cause, r.2.printed)) = some (some (.stackOverflow 1), #["in"]) := by
    decide +kernel
  obtain ⟨⟨fault, j⟩, ran, came⟩ := Option.map_eq_some_iff.mp ends
  simp only [Prod.mk.injEq, Option.map_eq_some_iff] at came
  obtain ⟨⟨f, rfl, cause⟩, printed⟩ := came
  have raised := interpret_raised endless (Interpreter.new 0) rfl 1 2 (by decide)
  have begins := (raised.2.1 40 f j ran (by rw [cause]; rfl)).2
  rw [printed] at begins
  exact ⟨rfl, by decide, f, j, ran, cause, printed, begins⟩

end Machine
end Jess
