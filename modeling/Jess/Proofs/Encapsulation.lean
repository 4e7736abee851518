import Jess.Proofs.Moves
import Jess.Proofs.Reachability
import Jess.Proofs.Runs

/-!
# Scopes that a run has nothing to do with

What a machine runs and what waits for it lead to scopes through values and
through the scopes that are to be gone back to. As long as all of these lie in
a region that no scope of it leads out of, the next step reads and changes
scopes of the region only, and comes to a machine of which the same is true. A
run that starts in a scope stays in the territory of it, therefore.
-/

namespace Jess

def Completion.value? : Completion → Option Value
  | .normal => none
  | .returned v => some v

def Completion.StaysIn (region : Set Nat) (c : Completion) : Prop :=
  ∀ v, c.value? = some v → v.StaysIn region

mutual

def ValueCont.StaysIn (region : Set Nat) : ValueCont → Prop
  | .stop => True
  | .discard k => k.StaysIn region
  | .print k => k.StaysIn region
  | .declare _ k => k.StaysIn region
  | .branch _ _ k => k.StaysIn region
  | .test _ _ k => k.StaysIn region
  | .giveBack k => k.StaysIn region
  | .unary _ _ k => k.StaysIn region
  | .left _ _ _ k => k.StaysIn region
  | .right _ _ left k => left.StaysIn region ∧ k.StaysIn region
  | .decide _ _ k => k.StaysIn region
  | .assign _ k => k.StaysIn region
  | .callee _ _ k => k.StaysIn region
  | .argument callee done _ _ k =>
      callee.StaysIn region ∧ (∀ v ∈ done, v.StaysIn region) ∧ k.StaysIn region

def StmtCont.StaysIn (region : Set Nat) : StmtCont → Prop
  | .stop => True
  | .program _ => True
  | .sequence _ k => k.StaysIn region
  | .again _ _ k => k.StaysIn region
  | .leaveBlock env k => env ∈ region ∧ k.StaysIn region
  | .leaveCall env k => env ∈ region ∧ k.StaysIn region

end

def Answer.result? : Answer → Option Value
  | .value v => some v
  | .completed c => c.value?
  | .failed _ => none

theorem Answer.result?_of_value {a : Answer} {result : Except Fault Value}
    (came : a.valueOr? = some result) : a.result? = result.toOption := by
  cases a <;> cases came <;> rfl

theorem Answer.result?_of_completion {a : Answer} {result : Except Fault Completion}
    (came : a.completionOr? = some result) :
    a.result? = result.toOption.bind Completion.value? := by
  cases a <;> cases came <;> rfl

def Control.StaysIn (region : Set Nat) : Control → Prop
  | .evaluate _ k => k.StaysIn region
  | .execute _ k => k.StaysIn region
  | .deliver v k => v.StaysIn region ∧ k.StaysIn region
  | .finish c k => c.StaysIn region ∧ k.StaysIn region
  | .raise _ k => k.StaysIn region
  | .abandon _ k => k.StaysIn region
  | .halted a => ∀ v, a.result? = some v → v.StaysIn region

section Values

variable {region : Set Nat} {v : Value}

theorem Value.stays_of_none (plain : v.closure? = none) : v.StaysIn region := by
  intro id declared
  rw [plain] at declared
  cases declared

theorem Value.closure?_eq_none (plain : v.callable? = none) : v.closure? = none := by
  cases v with
  | callable identity c => cases plain
  | _ => rfl

theorem Completion.normal_stays : Completion.normal.StaysIn region := by
  intro v same
  cases same

theorem Answer.stays_of_none {a : Answer} (nothing : a.result? = none) :
    (Control.halted a).StaysIn region := by
  intro v same
  rw [nothing] at same
  cases same

theorem Completion.returned_stays (stays : v.StaysIn region) :
    (Completion.returned v).StaysIn region := by
  rintro w ⟨⟩
  exact stays

end Values

namespace Interpreter

def withStore (i : Interpreter) (store : Store) : Interpreter := { i with store := store }

/-- An interpreter in a scope of a region that nothing leads out of. -/
structure Inside (region : Set Nat) (i : Interpreter) : Prop where
  env : i.env ∈ region
  closed : i.store.Closed region

/-- A later state of an interpreter, in which all scopes outside of a region are as they were. -/
structure Later (region : Set Nat) (i j : Interpreter) : Prop extends Inside region j where
  frame : ∀ id, id ∉ region → j.store.scopes[id]? = i.store.scopes[id]?

variable {region : Set Nat} {i j : Interpreter}

theorem Inside.refl (inside : i.Inside region) : Later region i i := ⟨inside, fun _ _ => rfl⟩

theorem Later.trans {l : Interpreter} (first : Later region i j) (second : Later region j l) :
    Later region i l :=
  ⟨second.toInside, fun id outside => (second.frame id outside).trans (first.frame id outside)⟩

theorem Inside.define (inside : i.Inside region) (name : String) {v : Value}
    (value : v.StaysIn region) : Later region i (i.define name v) :=
  have bound := Store.insert_local inside.closed inside.env name value
  ⟨⟨inside.env, bound.closed⟩, bound.frame⟩

theorem Inside.enter (inside : i.Inside region) {parent : Nat} (around : parent ∈ region) :
    Later region i (i.enter parent) :=
  have opened := Store.openScope_local inside.closed around
  ⟨⟨inside.closed.fresh _ (Nat.le_refl _), opened.closed⟩, opened.frame⟩

theorem enter_withStore {store : Store} (agrees : i.store.AgreesOn region store) (parent : Nat) :
    (i.withStore store).enter parent =
      (i.enter parent).withStore (store.openScope (some parent)) := by
  simp only [enter, withStore, agrees.size]

theorem Inside.bindParams (inside : i.Inside region) (pairs : List (Token × Value))
    (args : ∀ pair ∈ pairs, pair.2.StaysIn region) :
    Later region i (i.bindParams pairs).1 ∧
      ∀ store, i.store.AgreesOn region store →
        ∃ store', (i.bindParams pairs).1.store.AgreesOn region store' ∧
          (i.withStore store).bindParams pairs =
            ((i.bindParams pairs).1.withStore store', (i.bindParams pairs).2) := by
  induction pairs generalizing i with
  | nil => exact ⟨inside.refl, fun store agrees => ⟨store, agrees, rfl⟩⟩
  | cons pair rest ih =>
      obtain ⟨param, arg⟩ := pair
      have value := args _ (List.mem_cons_self ..)
      have seen : ∀ store, i.store.AgreesOn region store →
          (i.withStore store).binds param.lexeme = i.binds param.lexeme :=
        fun store agrees => agrees.binds inside.env param.lexeme
      cases bound : i.binds param.lexeme with
      | true =>
          simp only [Interpreter.bindParams, bound, if_true]
          refine ⟨inside.refl, fun store agrees => ⟨store, agrees, ?_⟩⟩
          rw [if_pos ((seen store agrees).trans bound)]
      | false =>
          have defined := inside.define param.lexeme value
          have insert := Store.insert_local inside.closed inside.env param.lexeme value
          obtain ⟨follows, later⟩ := ih defined.toInside
            fun pair known => args pair (List.mem_cons_of_mem _ known)
          simp only [Interpreter.bindParams, bound, Bool.false_eq_true, if_false]
          refine ⟨defined.trans follows, fun store agrees => ?_⟩
          obtain ⟨store', agrees', same⟩ := later _ (insert.agrees store agrees)
          refine ⟨store', agrees', ?_⟩
          rw [seen store agrees, bound]
          exact same

end Interpreter

namespace Machine

variable {region : Set Nat} {i : Interpreter}

def withStore (m : Machine) (store : Store) : Machine := ⟨m.control, m.interpreter.withStore store⟩

/-- What a step from an interpreter leads to: it stays in a region, and does the same in every store
that agrees on the region. -/
structure Stays (region : Set Nat) (i : Interpreter) (next : Interpreter → Machine) : Prop
    extends Interpreter.Later region i (next i).interpreter where
  control : (next i).control.StaysIn region
  agrees : ∀ store, i.store.AgreesOn region store →
    ∃ store', (next i).interpreter.store.AgreesOn region store' ∧
      next (i.withStore store) = (next i).withStore store'

theorem Stays.congr {next other : Interpreter → Machine} (stays : Stays region i next)
    (same : ∀ store, i.store.AgreesOn region store →
      other (i.withStore store) = next (i.withStore store)) : Stays region i other := by
  have here : other i = next i := same i.store (.refl region i.store)
  refine ⟨?_, ?_, fun store agrees => ?_⟩
  · rw [here]
    exact stays.toLater
  · rw [here]
    exact stays.control
  · rw [same store agrees, here]
    exact stays.agrees store agrees

theorem change_stays {change : Store → Store} (within : Store.Local region i.store change)
    {after : Interpreter → Interpreter} (made : (after i).store = change i.store)
    (env : (after i).env ∈ region)
    (same : ∀ store, i.store.AgreesOn region store →
      after (i.withStore store) = (after i).withStore (change store))
    {control : Control} (stays : control.StaysIn region) :
    Stays region i fun j => ⟨control, after j⟩ := by
  refine ⟨⟨⟨env, ?_⟩, fun id outside => ?_⟩, stays, fun store agrees => ?_⟩
  · rw [made]
    exact within.closed
  · rw [made]
    exact within.frame id outside
  · refine ⟨change store, ?_, congrArg (Machine.mk control) (same store agrees)⟩
    rw [made]
    exact within.agrees store agrees

section Moves

variable (inside : i.Inside region)

include inside

theorem turn_stays {after : Interpreter → Interpreter} (kept : (after i).store = i.store)
    (env : (after i).env ∈ region)
    (same : ∀ store, after (i.withStore store) = (after i).withStore store) {control : Control}
    (stays : control.StaysIn region) : Stays region i fun j => ⟨control, after j⟩ :=
  have still : Store.Local region i.store id := ⟨inside.closed, fun _ _ => rfl, fun _ agrees => agrees⟩
  change_stays still kept env (fun store _ => same store) stays

theorem move_stays {control : Control} (stays : control.StaysIn region) :
    Stays region i fun j => ⟨control, j⟩ :=
  have same : ∀ store, id (i.withStore store) = (id i).withStore store := fun _ => rfl
  turn_stays inside rfl inside.env same stays

end Moves

section Values

variable {k : ValueCont} (inside : i.Inside region) (stays : k.StaysIn region)

include inside stays

theorem fault_stays (f : Fault) : Stays region i fun j => ⟨.raise f k, j⟩ :=
  move_stays inside stays

theorem raiseAt_stays (cause : Fault.Cause) (line : Nat) : Stays region i (raiseAt cause line k) :=
  fault_stays inside stays _

theorem deliver_plain {v : Value} (plain : v.closure? = none) :
    Stays region i fun j => ⟨.deliver v k, j⟩ :=
  move_stays inside ⟨Value.stays_of_none plain, stays⟩

theorem deliverOr_stays {result : Except Fault.Cause Value}
    (plain : ∀ v, result = .ok v → v.closure? = none) (operator : Token) :
    Stays region i (deliverOr result operator k) := by
  cases result with
  | ok v => exact deliver_plain inside stays (plain v rfl)
  | error cause => exact raiseAt_stays inside stays cause operator.line

theorem evaluate_stays (e : Expr) : Stays region i (evaluate e k) := by
  cases e with
  | literal l => exact deliver_plain inside stays (Value.closure?_eq_none (Value.ofLiteral_data l))
  | «variable» name =>
      cases found : i.store.get? i.env name.lexeme with
      | some v =>
          have value := (inside.closed.get? inside.env name.lexeme).1 v found
          have delivers : Stays region i fun j => ⟨.deliver v k, j⟩ :=
            move_stays inside ⟨value, stays⟩
          refine delivers.congr fun store agrees => ?_
          have seen : store.get? i.env name.lexeme = some v :=
            ((inside.closed.get? inside.env name.lexeme).2 store agrees).trans found
          exact evaluate_found (i := i.withStore store) seen k
      | none =>
          have raises := raiseAt_stays inside stays (.undefinedVariable name.lexeme) name.line
          refine raises.congr fun store agrees => ?_
          have seen : store.get? i.env name.lexeme = none :=
            ((inside.closed.get? inside.env name.lexeme).2 store agrees).trans found
          exact evaluate_unfound (i := i.withStore store) seen k
  | _ => exact move_stays inside stays

theorem callNative_stays (n : Native) {args : List Value} (given : ∀ v ∈ args, v.StaysIn region) :
    Stays region i (callNative n args k) := by
  let reply := n.action (args.map Value.glimpse)
  have same : ∀ store, (i.withStore store).printAll reply.printed =
      (i.printAll reply.printed).withStore store := fun _ => rfl
  refine turn_stays inside rfl inside.env same ?_
  obtain ⟨v, plain | argument, taken⟩ | ⟨f, _, taken⟩ := take_cases reply.answer args k
  · rw [taken]
    exact ⟨Value.stays_of_none (Value.closure?_eq_none plain), stays⟩
  · rw [taken]
    exact ⟨given v argument, stays⟩
  · rw [taken]
    exact stays

theorem callFunction_stays (f : Function) {closure : Nat} (declared : closure ∈ region)
    {args : List Value} (given : ∀ v ∈ args, v.StaysIn region) :
    Stays region i (callFunction f closure args k) := by
  have opened := Store.openScope_local inside.closed declared
  have entered := inside.enter declared
  have values : ∀ pair ∈ f.params.zip args, pair.2.StaysIn region :=
    fun pair known => given pair.2 (List.of_mem_zip known).2
  obtain ⟨later, agreed⟩ := entered.toInside.bindParams (f.params.zip args) values
  have all := entered.trans later
  cases bound : (i.enter closure).bindParams (f.params.zip args) with
  | mk j clash =>
      rw [bound] at all agreed
      -- both stores have as many scopes, so the new scope has the same place in both
      have next : ∀ store, i.store.AgreesOn region store →
          ∃ store', j.store.AgreesOn region store' ∧
            ((i.withStore store).enter closure).bindParams (f.params.zip args) =
              (j.withStore store', clash) := by
        intro store agrees
        rw [Interpreter.enter_withStore agrees]
        exact agreed _ (opened.agrees store agrees)
      cases clash with
      | none =>
          refine ⟨?_, ?_, fun store agrees => ?_⟩
          · rw [callFunction_bound bound]
            exact ⟨⟨all.env, all.closed⟩, all.frame⟩
          · rw [callFunction_bound bound]
            exact ⟨Completion.normal_stays, inside.env, stays⟩
          · obtain ⟨store', agrees', same⟩ := next store agrees
            rw [callFunction_bound bound, callFunction_bound same]
            exact ⟨store', agrees', rfl⟩
      | some clash =>
          refine ⟨?_, ?_, fun store agrees => ?_⟩
          · rw [callFunction_clash bound]
            exact ⟨⟨inside.env, all.closed⟩, all.frame⟩
          · rw [callFunction_clash bound]
            exact stays
          · obtain ⟨store', agrees', same⟩ := next store agrees
            rw [callFunction_clash bound, callFunction_clash same]
            exact ⟨store', agrees', rfl⟩

theorem call_stays {callee : Value} (value : callee.StaysIn region) {args : List Value}
    (given : ∀ v ∈ args, v.StaysIn region) (paren : Token) :
    Stays region i (call callee args paren k) := by
  cases callee with
  | callable identity c =>
      by_cases suits : c.arity = args.length
      · by_cases room : i.depth < i.limit
        · cases c with
          | native n =>
              exact (callNative_stays inside stays n given).congr fun store _ =>
                call_allowed (i := i.withStore store) suits room identity paren k
          | function f closure =>
              have declared : closure ∈ region := value closure rfl
              exact (callFunction_stays inside stays f declared given).congr fun store _ =>
                call_allowed (i := i.withStore store) suits room identity paren k
        · exact (raiseAt_stays inside stays (.stackOverflow i.limit) paren.line).congr fun store _ =>
            call_full (i := i.withStore store) suits (Nat.not_lt.mp room) identity paren k
      · have raises := raiseAt_stays inside stays (.arityMismatch c.arity args.length) paren.line
        exact raises.congr fun _ _ => call_mismatched suits identity paren k
  | _ => exact raiseAt_stays inside stays _ paren.line

theorem callNext_stays {callee : Value} (value : callee.StaysIn region) {done : List Value}
    (given : ∀ v ∈ done, v.StaysIn region) (rest : List Expr) (paren : Token) :
    Stays region i (callNext callee done rest paren k) := by
  cases rest with
  | nil =>
      exact call_stays inside stays value (fun v known => given v (List.mem_reverse.mp known)) paren
  | cons arg rest => exact move_stays inside ⟨value, given, stays⟩

theorem raise_stays (f : Fault) : Stays region i (raise f k) := by
  cases k with
  | stop => exact move_stays inside (Answer.stays_of_none rfl)
  | right op operator left k => exact move_stays inside stays.2
  | argument callee done rest paren k => exact move_stays inside stays.2.2
  | _ => exact move_stays inside stays

end Values

section Statements

variable {k : StmtCont} (inside : i.Inside region) (stays : k.StaysIn region)

include inside stays

theorem declare_stays (name : Token) {v : Value} (value : v.StaysIn region) :
    Stays region i (declare name v k) := by
  have seen : ∀ store, i.store.AgreesOn region store →
      (i.withStore store).binds name.lexeme = i.binds name.lexeme :=
    fun store agrees => agrees.binds inside.env name.lexeme
  cases bound : i.binds name.lexeme with
  | true =>
      have abandons : Stays region i fun j =>
          ⟨.abandon ((Fault.ofCause (.alreadyDefined name.lexeme)).blamedOn name.line) k, j⟩ :=
        move_stays inside stays
      exact abandons.congr fun store agrees => declare_taken ((seen store agrees).trans bound) v k
  | false =>
      have defines : Stays region i fun j => ⟨.finish .normal k, j.define name.lexeme v⟩ :=
        change_stays (Store.insert_local inside.closed inside.env name.lexeme value) rfl inside.env
          (fun _ _ => rfl) ⟨Completion.normal_stays, stays⟩
      exact defines.congr fun store agrees => declare_free ((seen store agrees).trans bound) v k

theorem execute_stays (s : Stmt) : Stays region i (execute s k) := by
  have nil : Value.nil.StaysIn region := Value.stays_of_none rfl
  cases s with
  | declare name initializer =>
      cases initializer with
      | none => exact declare_stays inside stays name nil
      | some e => exact move_stays inside stays
  | block body =>
      have opened := Store.openScope_local inside.closed inside.env
      have enters : Stays region i fun j => runBlock body i.env k (j.enter i.env) :=
        change_stays opened rfl (inside.closed.fresh _ (Nat.le_refl _))
          (fun _ agrees => Interpreter.enter_withStore agrees i.env)
          ⟨Completion.normal_stays, inside.env, stays⟩
      exact enters.congr fun _ _ => rfl
  | function name params body =>
      have value :
          (Value.callable i.supply (.function ⟨name, params, body⟩ i.env)).StaysIn region := by
        rintro id ⟨⟩
        exact inside.env
      have declares := declare_stays (i := { i with supply := i.supply + 1 })
        ⟨inside.env, inside.closed⟩ stays name value
      exact ⟨⟨declares.toInside, declares.frame⟩, declares.control, declares.agrees⟩
  | giveBack keyword value =>
      cases value with
      | none => exact move_stays inside ⟨Completion.returned_stays nil, stays⟩
      | some e => exact move_stays inside stays
  | _ => exact move_stays inside stays

theorem finish_stays {c : Completion} (value : c.StaysIn region) : Stays region i (finish c k) := by
  cases k with
  | stop => exact move_stays inside value
  | program rest =>
      cases rest with
      | nil => exact move_stays inside (Answer.stays_of_none rfl)
      | cons s rest => exact move_stays inside trivial
  | sequence rest k =>
      cases c with
      | normal =>
          cases rest with
          | nil => exact move_stays inside ⟨value, stays⟩
          | cons s rest => exact move_stays inside stays
      | returned v => exact move_stays inside ⟨value, stays⟩
  | again condition body k =>
      cases c with
      | normal => exact move_stays inside stays
      | returned v => exact move_stays inside ⟨value, stays⟩
  | leaveBlock env k =>
      have same : ∀ store, (i.withStore store).moveTo env = (i.moveTo env).withStore store :=
        fun _ => rfl
      exact turn_stays inside rfl stays.1 same ⟨value, stays.2⟩
  | leaveCall env k =>
      have same : ∀ store, (i.withStore store).endCall env = (i.endCall env).withStore store :=
        fun _ => rfl
      cases c with
      | normal => exact turn_stays inside rfl stays.1 same ⟨Value.stays_of_none rfl, stays.2⟩
      | returned v => exact turn_stays inside rfl stays.1 same ⟨value v rfl, stays.2⟩

theorem abandon_stays (f : Fault) : Stays region i (abandon f k) := by
  cases k with
  | stop => exact move_stays inside (Answer.stays_of_none rfl)
  | program rest => exact move_stays inside (Answer.stays_of_none rfl)
  | sequence rest k => exact move_stays inside stays
  | again condition body k => exact move_stays inside stays
  | leaveBlock env k =>
      have same : ∀ store, (i.withStore store).moveTo env = (i.moveTo env).withStore store :=
        fun _ => rfl
      exact turn_stays inside rfl stays.1 same stays.2
  | leaveCall env k =>
      have same : ∀ store, (i.withStore store).endCall env = (i.endCall env).withStore store :=
        fun _ => rfl
      exact turn_stays inside rfl stays.1 same stays.2

end Statements

theorem deliver_stays {k : ValueCont} (inside : i.Inside region) (stays : k.StaysIn region)
    {v : Value} (value : v.StaysIn region) : Stays region i (deliver v k) := by
  have ended : Completion.normal.StaysIn region := Completion.normal_stays
  cases k with
  | stop =>
      have gives : ∀ w, (Answer.value v).result? = some w → w.StaysIn region := by
        rintro w ⟨⟩
        exact value
      exact move_stays inside gives
  | discard k => exact move_stays inside ⟨ended, stays⟩
  | print k =>
      have same : ∀ store, (i.withStore store).print v.text = (i.print v.text).withStore store :=
        fun _ => rfl
      exact turn_stays inside rfl inside.env same ⟨ended, stays⟩
  | declare name k => exact declare_stays inside stays name value
  | branch thenBranch elseBranch k =>
      obtain takes | ⟨other, _, takes⟩ | passes := branch_cases v thenBranch elseBranch k
      · rw [takes]
        exact move_stays inside stays
      · rw [takes]
        exact move_stays inside stays
      · rw [passes]
        exact move_stays inside ⟨ended, stays⟩
  | test condition body k =>
      obtain runs | passes := test_cases v condition body k
      · rw [runs]
        exact move_stays inside stays
      · rw [passes]
        exact move_stays inside ⟨ended, stays⟩
  | giveBack k => exact move_stays inside ⟨Completion.returned_stays value, stays⟩
  | unary op operator k =>
      exact deliverOr_stays (k := k) inside stays
        (fun _ came => Value.closure?_eq_none (UnaryOp.apply_data came)) operator
  | left op operator right k => exact move_stays inside ⟨value, stays⟩
  | right op operator left k =>
      exact deliverOr_stays (k := k) inside stays.2
        (fun _ came => Value.closure?_eq_none (BinaryOp.apply_data came)) operator
  | decide op right k =>
      obtain delivers | goes := decide_cases v op right k
      · rw [delivers]
        exact move_stays inside ⟨value, stays⟩
      · rw [goes]
        exact move_stays inside stays
  | assign name k =>
      obtain ⟨within, found⟩ := inside.closed.resolve inside.env name.lexeme
      cases resolved : i.store.resolve i.env name.lexeme with
      | some home =>
          have known := within home resolved
          have updates : Stays region i fun j => ⟨.deliver v k, j.update home name.lexeme v⟩ :=
            change_stays (Store.update_local inside.closed known name.lexeme value) rfl inside.env
              (fun _ _ => rfl) ⟨value, stays⟩
          refine updates.congr fun store agrees => ?_
          have seen : store.resolve i.env name.lexeme = some home :=
            (found store agrees).trans resolved
          exact assign_found (i := i.withStore store) seen v k
      | none =>
          have raises := raiseAt_stays (k := k) inside stays (.undefinedVariable name.lexeme) name.line
          refine raises.congr fun store agrees => ?_
          have seen : store.resolve i.env name.lexeme = none :=
            (found store agrees).trans resolved
          exact assign_unfound (i := i.withStore store) seen v k
  | callee paren args k =>
      exact callNext_stays (k := k) inside stays value (List.forall_mem_nil _) args paren
  | argument callee done rest paren k =>
      have given : ∀ w ∈ v :: done, w.StaysIn region :=
        List.forall_mem_cons.mpr ⟨value, stays.2.1⟩
      exact callNext_stays (k := k) inside stays.2.2 stays.1 given rest paren

theorem step_stays {m : Machine} (inside : m.interpreter.Inside region)
    (stays : m.control.StaysIn region) :
    Stays region m.interpreter fun i => (⟨m.control, i⟩ : Machine).step := by
  obtain ⟨control, i⟩ := m
  cases control with
  | evaluate e k => exact evaluate_stays inside stays e
  | execute s k => exact execute_stays inside stays s
  | deliver v k => exact deliver_stays inside stays.2 stays.1
  | finish c k => exact finish_stays inside stays.2 stays.1
  | raise f k => exact raise_stays inside stays f
  | abandon f k => exact abandon_stays inside stays f
  | halted a => exact move_stays inside stays

/-- A run stays in a region, too. In a store that agrees on the region the same number of steps
comes to the same answer, and the stores still agree. -/
theorem run_stays {steps : Nat} {m : Machine} {a : Answer} {j : Interpreter}
    (inside : m.interpreter.Inside region) (stays : m.control.StaysIn region)
    (ran : run steps m = some (a, j)) :
    (∀ v, a.result? = some v → v.StaysIn region) ∧ m.interpreter.Later region j ∧
      ∀ store, m.interpreter.store.AgreesOn region store →
        ∃ store', j.store.AgreesOn region store' ∧
          run steps (m.withStore store) = some (a, j.withStore store') := by
  induction steps generalizing m with
  | zero => cases ran
  | succ steps ih =>
      by_cases halted : m.IsHalted
      · obtain ⟨b, halted⟩ := halted
        rw [run_halted halted] at ran
        cases ran
        rw [halted] at stays
        refine ⟨stays, inside.refl, fun store agrees => ⟨store, agrees, ?_⟩⟩
        exact run_halted (m := m.withStore store) halted steps
      · have first := step_stays inside stays
        rw [run_succ halted] at ran
        obtain ⟨gives, later, agreed⟩ := ih first.toInside first.control ran
        refine ⟨gives, first.toLater.trans later, fun store agrees => ?_⟩
        obtain ⟨middle, agreesMiddle, next⟩ := first.agrees store agrees
        obtain ⟨store', agrees', rest⟩ := agreed middle agreesMiddle
        refine ⟨store', agrees', ?_⟩
        have running : ¬(m.withStore store).IsHalted := halted
        rw [run_succ running]
        exact (congrArg (run steps) next).trans rest

end Machine

namespace Interpreter

/-- What is true of every run from `i` to `j` that gives a value or none: no scope changes that was
there and could not be reached, and what can be reached afterwards could be reached before, or is
new. -/
structure Encapsulates (i : Interpreter) (given : Option Value) (j : Interpreter) : Prop where
  untouched : ∀ id, id < i.store.size → ¬i.store.Reachable i.env id →
    j.store.scopes[id]? = i.store.scopes[id]?
  unrevealed : ∀ id,
    (j.store.Reachable i.env id ∨
      ∃ v closure, given = some v ∧ v.closure? = some closure ∧ j.store.Reachable closure id) →
    i.store.Reachable i.env id ∨ i.store.size ≤ id

variable {i j : Interpreter}

theorem inside_territory (i : Interpreter) : i.Inside (i.store.territory i.env) :=
  ⟨i.store.territory_env i.env, i.store.territory_closed i.env⟩

theorem Later.encapsulates {given : Option Value} (later : i.Later (i.store.territory i.env) j)
    (gives : ∀ v, given = some v → v.StaysIn (i.store.territory i.env)) :
    i.Encapsulates given j where
  untouched id old unreached := by
    refine later.frame id ?_
    rintro (reached | fresh)
    · exact unreached reached
    · exact Nat.not_le.mpr old fresh
  unrevealed id found := by
    obtain reached | ⟨v, closure, same, declared, reached⟩ := found
    · exact later.closed.reachable (i.store.territory_env i.env) reached
    · exact later.closed.reachable (gives v same closure declared) reached

/-- Scopes are encapsulated. A run touches only what can be reached from the scope that it starts in,
and reveals only that and what is new. It does not even read anything else: in every store that
has the same scopes in the territory, as many steps come to the same result. -/
theorem run_encapsulates (steps : Nat) (i : Interpreter) :
    (∀ e result j, i.evaluate steps e = some (result, j) →
      i.Encapsulates result.toOption j ∧
      ∀ store, i.store.AgreesOn (i.store.territory i.env) store →
        ∃ store', j.store.AgreesOn (i.store.territory i.env) store' ∧
          (i.withStore store).evaluate steps e = some (result, j.withStore store')) ∧
    ∀ s result j, i.execute steps s = some (result, j) →
      i.Encapsulates (result.toOption.bind Completion.value?) j ∧
      ∀ store, i.store.AgreesOn (i.store.territory i.env) store →
        ∃ store', j.store.AgreesOn (i.store.territory i.env) store' ∧
          (i.withStore store).execute steps s = some (result, j.withStore store') := by
  refine ⟨fun e result j ran => ?_, fun s result j ran => ?_⟩
  · obtain ⟨a, ran, came⟩ := Machine.evaluate_eq_some_iff.mp ran
    have start : (Control.evaluate e .stop).StaysIn (i.store.territory i.env) := trivial
    obtain ⟨gives, later, agreed⟩ := Machine.run_stays i.inside_territory start ran
    rw [Answer.result?_of_value came] at gives
    refine ⟨later.encapsulates gives, fun store agrees => ?_⟩
    obtain ⟨store', agrees', again⟩ := agreed store agrees
    exact ⟨store', agrees', Machine.evaluate_eq_some_iff.mpr ⟨a, again, came⟩⟩
  · obtain ⟨a, ran, came⟩ := Machine.execute_eq_some_iff.mp ran
    have start : (Control.execute s .stop).StaysIn (i.store.territory i.env) := trivial
    obtain ⟨gives, later, agreed⟩ := Machine.run_stays i.inside_territory start ran
    rw [Answer.result?_of_completion came] at gives
    refine ⟨later.encapsulates gives, fun store agrees => ?_⟩
    obtain ⟨store', agrees', again⟩ := agreed store agrees
    exact ⟨store', agrees', Machine.execute_eq_some_iff.mpr ⟨a, again, came⟩⟩

def shownName : Token := .unplaced .identifier "shown" 1

/-- A function that declares a variable of its own name and gives back the value of it. -/
def shower : Value :=
  .callable 0 (.function ⟨shownName, [],
    [.declare shownName (some (.literal (.string "shown"))),
      .giveBack shownName (some (.variable shownName))]⟩ 0)

/-- An interpreter with that function in its global scope, and a scope inside of it with a secret. -/
def withSecret : Interpreter :=
  ((((new 10).define "shown" shower).enter 0).define "secret" (.string "hidden")).moveTo 0

theorem secret_unreachable : ¬withSecret.store.Reachable withSecret.env 1 := by
  have closed : withSecret.store.Closed {id | id ≠ 1} := by
    constructor
    · intro id apart scope found
      have inside : id < 2 := (Array.getElem?_eq_some_iff.mp found).1
      obtain rfl : id = 0 := Nat.eq_zero_of_le_zero (Nat.le_of_lt_succ (Nat.lt_of_le_of_ne
        (Nat.le_of_lt_succ inside) apart))
      cases found
      refine ⟨(fun _ enclosed => nomatch enclosed), fun name v bound id declared => ?_⟩
      have only : [("shown", shower)].lookup name = some v := bound
      rw [List.lookup_cons] at only
      split at only
      · cases only
        cases declared
        exact Nat.zero_ne_one
      · cases only
    · intro id above
      have far : 2 ≤ id := above
      exact Nat.ne_of_gt far
  intro reached
  exact closed.reachable Nat.zero_ne_one reached rfl

theorem run_encapsulates_secret :
    ¬withSecret.store.Reachable withSecret.env 1 ∧
    ∃ result j,
      withSecret.evaluate 40 (.call (.variable shownName) shownName []) = some (result, j) ∧
        j.store.scopes[1]? = withSecret.store.scopes[1]? := by
  have ends : (withSecret.evaluate 40 (.call (.variable shownName) shownName [])).isSome = true := by
    decide +kernel
  obtain ⟨⟨result, j⟩, ran⟩ := Option.isSome_iff_exists.mp ends
  obtain ⟨encapsulates, _⟩ := (run_encapsulates 40 withSecret).1 _ result j ran
  have untouched := encapsulates.untouched 1 (by decide) secret_unreachable
  exact ⟨secret_unreachable, result, j, ran, untouched⟩

end Interpreter
end Jess
