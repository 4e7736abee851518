import Jess.Proofs.Limits
import Jess.Proofs.MachineLikeness
import Jess.Proofs.Parts
import Jess.Proofs.Scopes

/-!
# Where a machine comes from

Whatever waits for a value or for the end of a statement was put there by an
expression, a statement or a call on the way, and whatever is run is a part of
the program or of the body of the function that was called last. An account
says what the way has shown so far. It covers a step if it knows of what the
step begins, and then what a machine runs, waits for and holds can be traced
back by the account behind the step as it could before.
-/

namespace Jess

/-- A call of a function whose body is run: the scope that the function was declared in, the scope
that the call is made from, and what waits for its value. -/
structure Activation where
  function : Function
  closure : Nat
  home : Nat
  waiting : ValueCont

/-- What is known of a run: its program, what it has come through, the calls that it has begun, the
scopes that belong to the program itself or to a call, and the values that it may hold. -/
structure Account where
  program : List Stmt
  seen : Control → Prop
  begun : Activation → Prop
  owns : Option Activation → Nat → Prop
  holds : Value → Prop

namespace Account

def body (h : Account) : Option Activation → List Stmt
  | none => h.program
  | some a => a.function.body

structure Began (h : Account) (r : Option Activation) (e : Expr) (k : ValueCont) : Prop where
  seen : h.seen (.evaluate e k)
  inside : e.Within (h.body r)

def GivesBack (h : Account) (r : Option Activation) : Prop :=
  ∃ keyword value, (Stmt.giveBack keyword value).Within (h.body r)

end Account

/-- What waits was put there by a part of the program or of a call, and what waits for a call by
the part that made it. -/
inductive Waiting.Traced (h : Account) : Option Activation → Waiting → Prop
  | stop : Traced h none (.stmt .stop)
  | program {rest : List Stmt} (listed : ∀ s ∈ rest, s ∈ h.program) :
      Traced h none (.stmt (.program rest))
  | discard {r : Option Activation} {k : StmtCont} (later : Traced h r (.stmt k)) :
      Traced h r (.value (.discard k))
  | print {r : Option Activation} {k : StmtCont} (later : Traced h r (.stmt k)) :
      Traced h r (.value (.print k))
  | declare {r : Option Activation} {name : Token} {e : Expr} {k : StmtCont}
      (seen : h.seen (.execute (.declare name (some e)) k))
      (inside : (Stmt.declare name (some e)).Within (h.body r)) (later : Traced h r (.stmt k)) :
      Traced h r (.value (.declare name k))
  | branch {r : Option Activation} {s : Stmt} {other : Option Stmt} {k : StmtCont}
      (first : s.Within (h.body r)) (second : ∀ t, other = some t → t.Within (h.body r))
      (later : Traced h r (.stmt k)) : Traced h r (.value (.branch s other k))
  | test {r : Option Activation} {condition : Expr} {body : Stmt} {k : StmtCont}
      (inside : (Stmt.loop condition body).Within (h.body r)) (later : Traced h r (.stmt k)) :
      Traced h r (.value (.test condition body k))
  | giveBack {r : Option Activation} {k : StmtCont} (gives : h.GivesBack r)
      (later : Traced h r (.stmt k)) : Traced h r (.value (.giveBack k))
  | unary {r : Option Activation} {op : UnaryOp} {operator : Token} {operand : Expr} {k : ValueCont}
      (began : h.Began r (.unary op operator operand) k) (later : Traced h r (.value k)) :
      Traced h r (.value (.unary op operator k))
  | left {r : Option Activation} {op : BinaryOp} {operator : Token} {left right : Expr}
      {k : ValueCont} (began : h.Began r (.binary op operator left right) k)
      (later : Traced h r (.value k)) : Traced h r (.value (.left op operator right k))
  | right {r : Option Activation} {op : BinaryOp} {operator : Token} {left right : Expr} {v : Value}
      {k : ValueCont} (began : h.Began r (.binary op operator left right) k) (held : h.holds v)
      (later : Traced h r (.value k)) : Traced h r (.value (.right op operator v k))
  | decide {r : Option Activation} {op : LogicalOp} {right : Expr} {k : ValueCont}
      (inside : right.Within (h.body r)) (later : Traced h r (.value k)) :
      Traced h r (.value (.decide op right k))
  | assign {r : Option Activation} {name : Token} {value : Expr} {k : ValueCont}
      (began : h.Began r (.assign name value) k) (later : Traced h r (.value k)) :
      Traced h r (.value (.assign name k))
  | callee {r : Option Activation} {callee : Expr} {paren : Token} {args : List Expr} {k : ValueCont}
      (began : h.Began r (.call callee paren args) k) (later : Traced h r (.value k)) :
      Traced h r (.value (.callee paren args k))
  | argument {r : Option Activation} {callee : Expr} {paren : Token} {args rest : List Expr}
      {v : Value} {done : List Value} {k : ValueCont} (began : h.Began r (.call callee paren args) k)
      (listed : ∀ e ∈ rest, e ∈ args) (held : h.holds v) (given : ∀ w ∈ done, h.holds w)
      (later : Traced h r (.value k)) : Traced h r (.value (.argument v done rest paren k))
  | sequence {r : Option Activation} {rest : List Stmt} {k : StmtCont}
      (inside : ∀ s ∈ rest, s.Within (h.body r)) (later : Traced h r (.stmt k)) :
      Traced h r (.stmt (.sequence rest k))
  | again {r : Option Activation} {condition : Expr} {body : Stmt} {k : StmtCont}
      (inside : (Stmt.loop condition body).Within (h.body r)) (later : Traced h r (.stmt k)) :
      Traced h r (.stmt (.again condition body k))
  | leaveBlock {r : Option Activation} {outer : Nat} {k : StmtCont} (owned : h.owns r outer)
      (later : Traced h r (.stmt k)) : Traced h r (.stmt (.leaveBlock outer k))
  | leaveCall {a : Activation} {r : Option Activation} (begun : h.begun a) (owned : h.owns r a.home)
      (later : Traced h r (.value a.waiting)) :
      Traced h (some a) (.stmt (.leaveCall a.home a.waiting))

inductive Control.Traced (h : Account) (r : Option Activation) : Control → Prop
  | evaluate {e : Expr} {k : ValueCont} (inside : e.Within (h.body r))
      (later : Waiting.Traced h r (.value k)) : Traced h r (.evaluate e k)
  | execute {s : Stmt} {k : StmtCont} (inside : s.Within (h.body r))
      (later : Waiting.Traced h r (.stmt k)) : Traced h r (.execute s k)
  | deliver {v : Value} {k : ValueCont} (held : h.holds v)
      (later : Waiting.Traced h r (.value k)) : Traced h r (.deliver v k)
  | finish {k : StmtCont} (later : Waiting.Traced h r (.stmt k)) : Traced h r (.finish .normal k)
  | giveBack {v : Value} {k : StmtCont} (held : h.holds v) (gives : h.GivesBack r)
      (later : Waiting.Traced h r (.stmt k)) : Traced h r (.finish (.returned v) k)
  | raise (f : Fault) {k : ValueCont} (later : Waiting.Traced h r (.value k)) :
      Traced h r (.raise f k)
  | abandon (f : Fault) {k : StmtCont} (later : Waiting.Traced h r (.stmt k)) :
      Traced h r (.abandon f k)
  | halted {a : Answer} (outside : r = none)
      (gives : ∀ v, a = .completed (.returned v) → h.GivesBack none) : Traced h r (.halted a)

namespace Store

def Holds (store : Store) (P : Value → Prop) : Prop :=
  ∀ (id : Nat) (scope : Scope) (name : String) (v : Value),
    store.scopes[id]? = some scope → scope.get? name = some v → P v

variable {store : Store} {P : Value → Prop}

theorem Holds.get? (holds : store.Holds P) {id : Nat} {name : String} {v : Value}
    (found : store.get? id name = some v) : P v := by
  unfold Store.get? at found
  split at found
  · cases found
  · rename_i home resolved
    split at found
    · cases found
    · rename_i scope held
      exact holds home scope name v held found

theorem Holds.insert (holds : store.Holds P) (id : Nat) (name : String) {v : Value} (value : P v) :
    (store.insert id name v).Holds P := by
  intro place scope other w found bound
  rw [insert_scope] at found
  split at found
  · obtain ⟨old, held, rfl⟩ := Option.map_eq_some_iff.mp found
    rw [Scope.get?_insert] at bound
    split at bound
    · cases bound
      exact value
    · exact holds place old other w held bound
  · exact holds place scope other w found bound

theorem Holds.update (holds : store.Holds P) (id : Nat) (name : String) {v : Value} (value : P v) :
    (store.update id name v).Holds P := by
  intro place scope other w found bound
  rw [update_scope] at found
  split at found
  · obtain ⟨old, held, rfl⟩ := Option.map_eq_some_iff.mp found
    rw [Scope.get?_update] at bound
    split at bound
    · obtain ⟨_, _, rfl⟩ := Option.map_eq_some_iff.mp bound
      exact value
    · exact holds place old other w held bound
  · exact holds place scope other w found bound

theorem Holds.openScope (holds : store.Holds P) (parent : Option Nat) :
    (store.openScope parent).Holds P := by
  intro place scope name v found bound
  rw [openScope_scope] at found
  split at found
  · cases found
    cases bound
  · exact holds place scope name v found bound

theorem Holds.mono {Q : Value → Prop} (holds : store.Holds P) (more : ∀ v, P v → Q v) :
    store.Holds Q :=
  fun id scope name v found bound => more v (holds id scope name v found bound)

end Store

theorem Interpreter.new_holds (limit : Nat) (P : Value → Prop) :
    (Interpreter.new limit).store.Holds P :=
  Store.Holds.openScope (fun _ _ _ _ found => by cases found) none

theorem Interpreter.bindParams_holds {P : Value → Prop} {i : Interpreter} (holds : i.store.Holds P)
    (pairs : List (Token × Value)) (args : ∀ pair ∈ pairs, P pair.2) :
    (i.bindParams pairs).1.store.Holds P := by
  induction pairs generalizing i with
  | nil => exact holds
  | cons pair rest ih =>
      obtain ⟨value, others⟩ := List.forall_mem_cons.mp args
      simp only [bindParams]
      split
      · exact holds
      · exact ih (holds.insert i.env _ value) others

/-- The next step enters the body of a function that it calls. -/
structure Activation.Begins (a : Activation) (m : Machine) : Prop where
  calls : ∃ identity args, m.Calls (.callable identity (.function a.function a.closure)) args
  home : a.home = m.interpreter.env
  enters : m.step.control = .finish .normal (.sequence a.function.body (.leaveCall a.home a.waiting))

/-- What is run and what waits can be traced back, the current scope belongs to what is run, and
the values of all scopes may be held. -/
structure Machine.Traced (h : Account) (r : Option Activation) (m : Machine) : Prop where
  control : m.control.Traced h r
  owned : h.owns r m.interpreter.env
  stored : m.interpreter.store.Holds h.holds

/-- An account knows of what the next step begins. -/
structure Account.Covers (h : Account) (r : Option Activation) (m : Machine) : Prop where
  seen : h.seen m.control
  data : ∀ v, v.callable? = none → h.holds v
  made : ∀ name params body k, m.control = .execute (.function name params body) k →
    h.holds (.callable m.interpreter.supply (.function ⟨name, params, body⟩ m.interpreter.env))
  opened : ∀ body k, m.control = .execute (.block body) k → h.owns r m.interpreter.store.size
  called : ∀ a, a.Begins m → h.begun a ∧ h.owns (some a) m.interpreter.store.size

namespace Machine

variable {h : Account} {r : Option Activation} {i : Interpreter}

theorem call_callable_cases (identity : Nat) (c : Callable) (args : List Value) (paren : Token)
    (k : ValueCont) (i : Interpreter) :
    (∃ cause, call (.callable identity c) args paren k i = raiseAt cause paren.line k i) ∨
      call (.callable identity c) args paren k i =
        match c with
        | .native n => callNative n args k i
        | .function f closure => callFunction f closure args k i := by
  by_cases suits : c.arity = args.length
  · by_cases room : i.depth < i.limit
    · have allowed := call_allowed suits room identity paren k
      cases c <;> exact .inr allowed
    · exact .inl ⟨_, call_full suits (Nat.not_lt.mp room) identity paren k⟩
  · exact .inl ⟨_, call_mismatched suits identity paren k⟩

section Values

variable {k : ValueCont} (owned : h.owns r i.env) (stored : i.store.Holds h.holds)
  (later : Waiting.Traced h r (.value k))

include owned stored later

theorem raiseAt_traced (cause : Fault.Cause) (line : Nat) : (raiseAt cause line k i).Traced h r :=
  ⟨.raise _ later, owned, stored⟩

variable (data : ∀ v, v.callable? = none → h.holds v)

include data

theorem deliverOr_traced {result : Except Fault.Cause Value}
    (plain : ∀ v, result = .ok v → v.callable? = none) (operator : Token) :
    (deliverOr result operator k i).Traced h r := by
  cases result with
  | ok v => exact ⟨.deliver (data v (plain v rfl)) later, owned, stored⟩
  | error cause => exact raiseAt_traced owned stored later cause operator.line

theorem evaluate_traced {e : Expr} (began : h.Began r e k) : (evaluate e k i).Traced h r := by
  have inner {d : Expr} (member : d ∈ e.parts) : d.Within (h.body r) := .part began.inside member
  cases e with
  | literal l => exact ⟨.deliver (data _ (Value.ofLiteral_data l)) later, owned, stored⟩
  | grouping e => exact ⟨.evaluate (inner (List.mem_singleton_self e)) later, owned, stored⟩
  | unary op operator operand =>
      have inside := inner (List.mem_singleton_self operand)
      exact ⟨.evaluate inside (.unary began later), owned, stored⟩
  | binary op operator left right =>
      have inside := inner (List.mem_cons_self ..)
      exact ⟨.evaluate inside (.left began later), owned, stored⟩
  | logical op operator left right =>
      have first := inner (List.mem_cons_self ..)
      have second : right.Within (h.body r) :=
        inner (List.mem_cons_of_mem _ (List.mem_singleton_self _))
      exact ⟨.evaluate first (.decide second later), owned, stored⟩
  | «variable» name =>
      cases found : i.store.get? i.env name.lexeme with
      | some v =>
          rw [evaluate_found found]
          exact ⟨.deliver (stored.get? found) later, owned, stored⟩
      | none =>
          rw [evaluate_unfound found]
          exact raiseAt_traced owned stored later _ name.line
  | assign name value =>
      have inside := inner (List.mem_singleton_self value)
      exact ⟨.evaluate inside (.assign began later), owned, stored⟩
  | call callee paren args =>
      have inside := inner (List.mem_cons_self ..)
      exact ⟨.evaluate inside (.callee began later), owned, stored⟩

theorem callNative_traced (n : Native) {args : List Value} (given : ∀ v ∈ args, h.holds v) :
    (callNative n args k i).Traced h r := by
  refine ⟨?_, owned, stored⟩
  obtain ⟨v, plain | argument, taken⟩ | ⟨f, _, taken⟩ :=
    take_cases (n.action (args.map Value.glimpse)).answer args k
  · simp only [callNative, taken]
    exact .deliver (data v plain) later
  · simp only [callNative, taken]
    exact .deliver (given v argument) later
  · simp only [callNative, taken]
    exact .raise f later

omit data in
theorem callFunction_traced (f : Function) (closure : Nat) {args : List Value}
    (given : ∀ v ∈ args, h.holds v)
    (begins : (callFunction f closure args k i).control =
      .finish .normal (.sequence f.body (.leaveCall i.env k)) →
      h.begun ⟨f, closure, i.env, k⟩ ∧ h.owns (some ⟨f, closure, i.env, k⟩) i.store.size) :
    ∃ r, (callFunction f closure args k i).Traced h r := by
  have values : ∀ pair ∈ f.params.zip args, h.holds pair.2 :=
    fun pair known => given pair.2 (List.of_mem_zip known).2
  have filled := Interpreter.bindParams_holds (i := i.enter closure) (stored.openScope _) _ values
  obtain ⟨store, keeps⟩ := (i.enter closure).bindParams_keeps (f.params.zip args)
  cases bound : (i.enter closure).bindParams (f.params.zip args) with
  | mk j clash =>
      rw [bound] at keeps filled
      simp only at keeps
      subst keeps
      cases clash with
      | none =>
          rw [callFunction_bound bound] at begins ⊢
          obtain ⟨begun, mine⟩ := begins rfl
          have inside : ∀ s ∈ f.body, s.Within (h.body (some ⟨f, closure, i.env, k⟩)) :=
            fun s member => .listed member
          have leaves : Waiting.Traced h (some ⟨f, closure, i.env, k⟩)
              (.stmt (.leaveCall i.env k)) :=
            .leaveCall (a := ⟨f, closure, i.env, k⟩) begun owned later
          exact ⟨_, .finish (.sequence inside leaves), mine, filled⟩
      | some clash =>
          rw [callFunction_clash bound]
          exact ⟨r, .raise _ later, owned, filled⟩

theorem call_traced (callee : Value) {args : List Value} (given : ∀ v ∈ args, h.holds v)
    (paren : Token)
    (called : ∀ a : Activation,
      (∃ identity, callee = .callable identity (.function a.function a.closure)) →
      a.home = i.env →
      (call callee args paren k i).control =
        .finish .normal (.sequence a.function.body (.leaveCall a.home a.waiting)) →
      h.begun a ∧ h.owns (some a) i.store.size) :
    ∃ r, (call callee args paren k i).Traced h r := by
  cases callee with
  | callable identity c =>
      obtain ⟨cause, raises⟩ | starts := call_callable_cases identity c args paren k i
      · rw [raises]
        exact ⟨r, raiseAt_traced owned stored later cause paren.line⟩
      · cases c with
        | native n =>
            rw [starts]
            exact ⟨r, callNative_traced owned stored later data n given⟩
        | function f closure =>
            rw [starts] at called ⊢
            exact callFunction_traced owned stored later f closure given
              (called ⟨f, closure, i.env, k⟩ ⟨identity, rfl⟩ rfl)
  | _ => exact ⟨r, raiseAt_traced owned stored later _ paren.line⟩

end Values

section Statements

variable {k : StmtCont} (owned : h.owns r i.env) (stored : i.store.Holds h.holds)
  (later : Waiting.Traced h r (.stmt k))

include owned stored later

theorem declare_traced (name : Token) {v : Value} (held : h.holds v) :
    (declare name v k i).Traced h r := by
  cases bound : i.binds name.lexeme with
  | true =>
      rw [declare_taken bound]
      exact ⟨.abandon _ later, owned, stored⟩
  | false =>
      rw [declare_free bound]
      exact ⟨.finish later, owned, stored.insert i.env name.lexeme held⟩

theorem execute_traced {s : Stmt} (covers : h.Covers r ⟨.execute s k, i⟩)
    (inside : s.Within (h.body r)) : (execute s k i).Traced h r := by
  have nil : h.holds .nil := covers.data _ rfl
  have operand {e : Expr} (member : e ∈ s.operands) : e.Within (h.body r) := .operand inside member
  have inner {t : Stmt} (member : t ∈ s.parts) : t.Within (h.body r) := .part inside member
  cases s with
  | expression e =>
      exact ⟨.evaluate (operand (List.mem_singleton_self e)) (.discard later), owned, stored⟩
  | print e => exact ⟨.evaluate (operand (List.mem_singleton_self e)) (.print later), owned, stored⟩
  | declare name initializer =>
      cases initializer with
      | none => exact declare_traced owned stored later name nil
      | some e =>
          have waits := Waiting.Traced.declare covers.seen inside later
          exact ⟨.evaluate (operand (List.mem_singleton_self e)) waits, owned, stored⟩
  | block body =>
      have waits : Waiting.Traced h r (.stmt (.sequence body (.leaveBlock i.env k))) :=
        .sequence (fun t member => inner member) (.leaveBlock owned later)
      exact ⟨.finish waits, covers.opened body k rfl, stored.openScope _⟩
  | ifThen condition s =>
      have waits : Waiting.Traced h r (.value (.branch s none k)) :=
        .branch (inner (List.mem_singleton_self s)) nofun later
      exact ⟨.evaluate (operand (List.mem_singleton_self condition)) waits, owned, stored⟩
  | ifElse condition s other =>
      have second : other.Within (h.body r) :=
        inner (List.mem_cons_of_mem _ (List.mem_singleton_self other))
      have waits : Waiting.Traced h r (.value (.branch s (some other) k)) :=
        .branch (inner (List.mem_cons_self ..)) (fun _ same => Option.some.inj same ▸ second) later
      exact ⟨.evaluate (operand (List.mem_singleton_self condition)) waits, owned, stored⟩
  | loop condition body =>
      have waits := Waiting.Traced.test inside later
      exact ⟨.evaluate (operand (List.mem_singleton_self condition)) waits, owned, stored⟩
  | function name params body =>
      exact declare_traced (i := { i with supply := i.supply + 1 }) owned stored later name
        (covers.made name params body k rfl)
  | giveBack keyword value =>
      have gives : h.GivesBack r := ⟨keyword, value, inside⟩
      cases value with
      | none => exact ⟨.giveBack nil gives later, owned, stored⟩
      | some e =>
          have waits := Waiting.Traced.giveBack gives later
          exact ⟨.evaluate (operand (List.mem_singleton_self e)) waits, owned, stored⟩

end Statements

theorem deliver_traced {v : Value} {k : ValueCont} (covers : h.Covers r ⟨.deliver v k, i⟩)
    (owned : h.owns r i.env) (stored : i.store.Holds h.holds) (held : h.holds v)
    (later : Waiting.Traced h r (.value k)) : ∃ r, (deliver v k i).Traced h r := by
  -- What waits was put there by known statements, and it tells what comes next.
  cases later with
  | discard later => exact ⟨r, .finish later, owned, stored⟩
  | print later => exact ⟨r, .finish later, owned, stored⟩
  | @declare _ name e k seen inside later => exact ⟨r, declare_traced owned stored later name held⟩
  | @branch _ s other k first second later =>
      refine ⟨r, ?_⟩
      obtain next | ⟨t, taken, next⟩ | next := branch_cases v s other k
      · rw [next]
        exact ⟨.execute first later, owned, stored⟩
      · rw [next]
        exact ⟨.execute (second t taken) later, owned, stored⟩
      · rw [next]
        exact ⟨.finish later, owned, stored⟩
  | @test _ condition body k inside later =>
      refine ⟨r, ?_⟩
      obtain next | next := test_cases v condition body k
      · rw [next]
        have runs : body.Within (h.body r) := .part inside (List.mem_singleton_self body)
        exact ⟨.execute runs (.again inside later), owned, stored⟩
      · rw [next]
        exact ⟨.finish later, owned, stored⟩
  | giveBack gives later => exact ⟨r, .giveBack held gives later, owned, stored⟩
  | @unary _ op operator operand k began later =>
      exact ⟨r, deliverOr_traced owned stored later covers.data (fun _ => UnaryOp.apply_data)
        operator⟩
  | @left _ op operator left right k began later =>
      have inside : right.Within (h.body r) :=
        .part began.inside (List.mem_cons_of_mem _ (List.mem_singleton_self right))
      exact ⟨r, .evaluate inside (.right began held later), owned, stored⟩
  | @right _ op operator left right w k began _ later =>
      exact ⟨r, deliverOr_traced owned stored later covers.data (fun _ => BinaryOp.apply_data)
        operator⟩
  | @decide _ op right k inside later =>
      refine ⟨r, ?_⟩
      obtain next | next := decide_cases v op right k
      · rw [next]
        exact ⟨.deliver held later, owned, stored⟩
      · rw [next]
        exact ⟨.evaluate inside later, owned, stored⟩
  | @assign _ name value k began later =>
      refine ⟨r, ?_⟩
      cases found : i.store.resolve i.env name.lexeme with
      | some home =>
          rw [assign_found found]
          exact ⟨.deliver held later, owned, stored.update home name.lexeme held⟩
      | none =>
          rw [assign_unfound found]
          exact raiseAt_traced owned stored later _ name.line
  | @callee _ callee paren args k began later =>
      cases args with
      | nil =>
          refine call_traced owned stored later covers.data v (List.forall_mem_nil _) paren ?_
          rintro a ⟨identity, rfl⟩ home enters
          exact covers.called a ⟨⟨identity, [], .bare _ paren k i⟩, home, enters⟩
      | cons arg rest =>
          have inside : arg.Within (h.body r) :=
            .part began.inside (List.mem_cons_of_mem _ (List.mem_cons_self ..))
          have listed : ∀ e ∈ rest, e ∈ arg :: rest := fun e => List.mem_cons_of_mem arg
          exact ⟨r, .evaluate inside (.argument began listed held nofun later), owned, stored⟩
  | @argument _ callee paren args rest f done k began listed function given later =>
      have values : ∀ w ∈ v :: done, h.holds w := List.forall_mem_cons.mpr ⟨held, given⟩
      cases rest with
      | nil =>
          refine call_traced owned stored later covers.data f
            (fun w member => values w (List.mem_reverse.mp member)) paren ?_
          rintro a ⟨identity, rfl⟩ home enters
          exact covers.called a ⟨⟨identity, _, .given _ v done paren k i⟩, home, enters⟩
      | cons arg rest =>
          obtain ⟨first, others⟩ := List.forall_mem_cons.mp listed
          have inside : arg.Within (h.body r) :=
            .part began.inside (List.mem_cons_of_mem _ first)
          exact ⟨r, .evaluate inside (.argument began others function values later), owned, stored⟩

theorem finish_traced {c : Completion} {k : StmtCont} (owned : h.owns r i.env)
    (stored : i.store.Holds h.holds) (data : ∀ v, v.callable? = none → h.holds v)
    (traced : Control.Traced h r (.finish c k)) : ∃ r, (finish c k i).Traced h r := by
  have nil : h.holds .nil := data _ rfl
  have later : Waiting.Traced h r (.stmt k) := by cases traced <;> assumption
  cases later with
  | stop =>
      cases traced with
      | finish => exact ⟨none, .halted rfl nofun, owned, stored⟩
      | giveBack _ gives => exact ⟨none, .halted rfl fun _ _ => gives, owned, stored⟩
  | @program rest listed =>
      cases rest with
      | nil => exact ⟨none, .halted rfl nofun, owned, stored⟩
      | cons s rest =>
          obtain ⟨first, others⟩ := List.forall_mem_cons.mp listed
          exact ⟨none, .execute (.listed first) (.program others), owned, stored⟩
  | @sequence _ rest k inside later =>
      refine ⟨r, ?_⟩
      cases traced with
      | finish =>
          cases rest with
          | nil => exact ⟨.finish later, owned, stored⟩
          | cons s rest =>
              obtain ⟨first, others⟩ := List.forall_mem_cons.mp inside
              exact ⟨.execute first (.sequence others later), owned, stored⟩
      | giveBack held gives => exact ⟨.giveBack held gives later, owned, stored⟩
  | @again _ condition body k inside later =>
      refine ⟨r, ?_⟩
      cases traced with
      | finish =>
          have again : condition.Within (h.body r) :=
            .operand inside (List.mem_singleton_self condition)
          exact ⟨.evaluate again (.test inside later), owned, stored⟩
      | giveBack held gives => exact ⟨.giveBack held gives later, owned, stored⟩
  | leaveBlock home later =>
      refine ⟨r, ?_⟩
      cases traced with
      | finish => exact ⟨.finish later, home, stored⟩
      | giveBack held gives => exact ⟨.giveBack held gives later, home, stored⟩
  | @leaveCall a r begun home later =>
      refine ⟨r, ?_⟩
      cases traced with
      | finish => exact ⟨.deliver nil later, home, stored⟩
      | giveBack held gives => exact ⟨.deliver held later, home, stored⟩

theorem raise_traced {f : Fault} {k : ValueCont} (owned : h.owns r i.env)
    (stored : i.store.Holds h.holds) (later : Waiting.Traced h r (.value k)) :
    (raise f k i).Traced h r := by
  cases later with
  | discard later => exact ⟨.abandon f later, owned, stored⟩
  | print later => exact ⟨.abandon f later, owned, stored⟩
  | declare seen inside later => exact ⟨.abandon f later, owned, stored⟩
  | branch first second later => exact ⟨.abandon f later, owned, stored⟩
  | test inside later => exact ⟨.abandon f later, owned, stored⟩
  | giveBack gives later => exact ⟨.abandon f later, owned, stored⟩
  | unary began later => exact ⟨.raise f later, owned, stored⟩
  | left began later => exact ⟨.raise f later, owned, stored⟩
  | right began held later => exact ⟨.raise f later, owned, stored⟩
  | decide inside later => exact ⟨.raise f later, owned, stored⟩
  | assign began later => exact ⟨.raise f later, owned, stored⟩
  | callee began later => exact ⟨.raise f later, owned, stored⟩
  | argument began listed held given later => exact ⟨.raise f later, owned, stored⟩

theorem abandon_traced {f : Fault} {k : StmtCont} (owned : h.owns r i.env)
    (stored : i.store.Holds h.holds) (later : Waiting.Traced h r (.stmt k)) :
    ∃ r, (abandon f k i).Traced h r := by
  cases later with
  | stop => exact ⟨none, .halted rfl nofun, owned, stored⟩
  | program listed => exact ⟨none, .halted rfl nofun, owned, stored⟩
  | sequence inside later => exact ⟨r, .abandon f later, owned, stored⟩
  | again inside later => exact ⟨r, .abandon f later, owned, stored⟩
  | leaveBlock home later => exact ⟨r, .abandon f later, home, stored⟩
  | leaveCall begun home later => exact ⟨_, .raise f later, home, stored⟩

theorem Traced.step {m : Machine} (traced : m.Traced h r) (covers : h.Covers r m) :
    ∃ r, m.step.Traced h r := by
  obtain ⟨control, i⟩ := m
  obtain ⟨runs, owned, stored⟩ := traced
  cases control with
  | evaluate e k =>
      cases runs with
      | evaluate inside later =>
          have began : h.Began r e k := ⟨covers.seen, inside⟩
          exact ⟨r, evaluate_traced owned stored later covers.data began⟩
  | execute s k =>
      cases runs with
      | execute inside later => exact ⟨r, execute_traced owned stored later covers inside⟩
  | deliver v k =>
      cases runs with
      | deliver held later => exact deliver_traced covers owned stored held later
  | finish c k => exact finish_traced owned stored covers.data runs
  | raise f k =>
      cases runs with
      | raise _ later => exact ⟨r, raise_traced owned stored later⟩
  | abandon f k =>
      cases runs with
      | abandon _ later => exact abandon_traced owned stored later
  | halted a => exact ⟨r, runs, owned, stored⟩

end Machine

end Jess
