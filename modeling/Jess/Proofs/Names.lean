import Jess.Proofs.Growth
import Jess.Proofs.MachineLikeness
import Jess.Proofs.Shapes

/-!
# Names that a run adds

Blocks and the bodies of functions run in scopes of their own, so what they
declare is bound in scopes that were not there before. What is run in an old
scope otherwise declares nothing, but for the one statement that the run is
about. Every place where a machine goes on in an old scope is sheltered in
this way, until it meets what waited when the run began.
-/

namespace Jess

/-- A statement runs in a scope that is new, or binds no name in it. -/
def Stmt.MayRun (first env : Nat) (s : Stmt) : Prop := first ≤ env ∨ s.IsPlain

/-- What waits in a scope binds no names in the scopes before `first`, up to the base, which waits
in the scope `home`. -/
inductive Waiting.Shelters (first : Nat) (base : Waiting) (home : Nat) : Nat → Waiting → Prop
  | base : Shelters first base home home base
  | discard {env : Nat} {k : StmtCont} (later : Shelters first base home env (.stmt k)) :
      Shelters first base home env (.value (.discard k))
  | print {env : Nat} {k : StmtCont} (later : Shelters first base home env (.stmt k)) :
      Shelters first base home env (.value (.print k))
  | declare {env : Nat} (name : Token) {k : StmtCont} (fresh : first ≤ env)
      (later : Shelters first base home env (.stmt k)) :
      Shelters first base home env (.value (.declare name k))
  | branch {env : Nat} {s : Stmt} {other : Option Stmt} {k : StmtCont} (runs : s.MayRun first env)
      (others : ∀ r, other = some r → r.MayRun first env)
      (later : Shelters first base home env (.stmt k)) :
      Shelters first base home env (.value (.branch s other k))
  | test {env : Nat} (condition : Expr) {body : Stmt} {k : StmtCont} (runs : body.MayRun first env)
      (later : Shelters first base home env (.stmt k)) :
      Shelters first base home env (.value (.test condition body k))
  | giveBack {env : Nat} {k : StmtCont} (later : Shelters first base home env (.stmt k)) :
      Shelters first base home env (.value (.giveBack k))
  | unary {env : Nat} (op : UnaryOp) (operator : Token) {k : ValueCont}
      (later : Shelters first base home env (.value k)) :
      Shelters first base home env (.value (.unary op operator k))
  | left {env : Nat} (op : BinaryOp) (operator : Token) (right : Expr) {k : ValueCont}
      (later : Shelters first base home env (.value k)) :
      Shelters first base home env (.value (.left op operator right k))
  | right {env : Nat} (op : BinaryOp) (operator : Token) (left : Value) {k : ValueCont}
      (later : Shelters first base home env (.value k)) :
      Shelters first base home env (.value (.right op operator left k))
  | decide {env : Nat} (op : LogicalOp) (right : Expr) {k : ValueCont}
      (later : Shelters first base home env (.value k)) :
      Shelters first base home env (.value (.decide op right k))
  | assign {env : Nat} (name : Token) {k : ValueCont}
      (later : Shelters first base home env (.value k)) :
      Shelters first base home env (.value (.assign name k))
  | callee {env : Nat} (paren : Token) (args : List Expr) {k : ValueCont}
      (later : Shelters first base home env (.value k)) :
      Shelters first base home env (.value (.callee paren args k))
  | argument {env : Nat} (callee : Value) (done : List Value) (rest : List Expr) (paren : Token)
      {k : ValueCont} (later : Shelters first base home env (.value k)) :
      Shelters first base home env (.value (.argument callee done rest paren k))
  | sequence {env : Nat} (rest : List Stmt) {k : StmtCont} (fresh : first ≤ env)
      (later : Shelters first base home env (.stmt k)) :
      Shelters first base home env (.stmt (.sequence rest k))
  | again {env : Nat} (condition : Expr) {body : Stmt} {k : StmtCont} (runs : body.MayRun first env)
      (later : Shelters first base home env (.stmt k)) :
      Shelters first base home env (.stmt (.again condition body k))
  | leaveBlock {env outer : Nat} {k : StmtCont} (later : Shelters first base home outer (.stmt k)) :
      Shelters first base home env (.stmt (.leaveBlock outer k))
  | leaveCall {env outer : Nat} {k : ValueCont} (later : Shelters first base home outer (.value k)) :
      Shelters first base home env (.stmt (.leaveCall outer k))

inductive Control.Sheltered (first : Nat) (base : Waiting) (home env : Nat) : Control → Prop
  | evaluate (e : Expr) {k : ValueCont} (later : Waiting.Shelters first base home env (.value k)) :
      Sheltered first base home env (.evaluate e k)
  | execute {s : Stmt} {k : StmtCont} (runs : s.MayRun first env)
      (later : Waiting.Shelters first base home env (.stmt k)) :
      Sheltered first base home env (.execute s k)
  | deliver (v : Value) {k : ValueCont} (later : Waiting.Shelters first base home env (.value k)) :
      Sheltered first base home env (.deliver v k)
  | finish (c : Completion) {k : StmtCont} (later : Waiting.Shelters first base home env (.stmt k)) :
      Sheltered first base home env (.finish c k)
  | raise (f : Fault) {k : ValueCont} (later : Waiting.Shelters first base home env (.value k)) :
      Sheltered first base home env (.raise f k)
  | abandon (f : Fault) {k : StmtCont} (later : Waiting.Shelters first base home env (.stmt k)) :
      Sheltered first base home env (.abandon f k)

inductive Control.Meets : Waiting → Control → Prop
  | deliver (v : Value) (k : ValueCont) : Meets (.value k) (.deliver v k)
  | raise (f : Fault) (k : ValueCont) : Meets (.value k) (.raise f k)
  | finish (c : Completion) (k : StmtCont) : Meets (.stmt k) (.finish c k)
  | abandon (f : Fault) (k : StmtCont) : Meets (.stmt k) (.abandon f k)

namespace Machine

variable {first : Nat} {base : Waiting} {home : Nat} {i : Interpreter}

def Sheltered (first : Nat) (base : Waiting) (home : Nat) (m : Machine) : Prop :=
  m.control.Sheltered first base home m.interpreter.env

section Values

variable {k : ValueCont} (later : Waiting.Shelters first base home i.env (.value k))

include later

theorem raiseAt_sheltered (cause : Fault.Cause) (line : Nat) :
    (raiseAt cause line k i).Sheltered first base home := .raise _ later

theorem deliverOr_sheltered (result : Except Fault.Cause Value) (operator : Token) :
    (deliverOr result operator k i).Sheltered first base home := by
  cases result with
  | ok v => exact .deliver v later
  | error cause => exact raiseAt_sheltered later cause operator.line

theorem evaluate_sheltered (e : Expr) : (evaluate e k i).Sheltered first base home := by
  cases e with
  | literal l => exact .deliver _ later
  | grouping inner => exact .evaluate inner later
  | unary op operator operand => exact .evaluate operand (.unary op operator later)
  | binary op operator left right => exact .evaluate left (.left op operator right later)
  | logical op operator left right => exact .evaluate left (.decide op right later)
  | «variable» name =>
      cases found : i.store.get? i.env name.lexeme with
      | some v =>
          rw [evaluate_found found]
          exact .deliver v later
      | none =>
          rw [evaluate_unfound found]
          exact raiseAt_sheltered later _ name.line
  | assign name value => exact .evaluate value (.assign name later)
  | call callee paren args => exact .evaluate callee (.callee paren args later)

theorem callNative_sheltered (n : Native) (args : List Value) :
    (callNative n args k i).Sheltered first base home := by
  obtain ⟨v, _, taken⟩ | ⟨f, _, taken⟩ :=
    take_cases (n.action (args.map Value.glimpse)).answer args k
  · simp only [callNative, taken]
    exact .deliver v later
  · simp only [callNative, taken]
    exact .raise f later

variable (old : first ≤ i.store.size)

include old

theorem callFunction_sheltered (f : Function) (closure : Nat) (args : List Value) :
    (callFunction f closure args k i).Sheltered first base home := by
  obtain ⟨store, keeps⟩ := (i.enter closure).bindParams_keeps (f.params.zip args)
  cases bound : (i.enter closure).bindParams (f.params.zip args) with
  | mk j clash =>
      rw [bound] at keeps
      simp only at keeps
      subst keeps
      cases clash with
      | none =>
          rw [callFunction_bound bound]
          exact .finish .normal (.sequence f.body old (.leaveCall later))
      | some clash =>
          rw [callFunction_clash bound]
          exact .raise _ later

theorem call_sheltered (callee : Value) (args : List Value) (paren : Token) :
    (call callee args paren k i).Sheltered first base home := by
  obtain ⟨cause, raises⟩ | ⟨n, starts⟩ | ⟨f, closure, starts⟩ := call_cases callee args paren k i
  · rw [raises]
    exact raiseAt_sheltered later cause paren.line
  · rw [starts]
    exact callNative_sheltered later n args
  · rw [starts]
    exact callFunction_sheltered later old f closure args

theorem callNext_sheltered (callee : Value) (done : List Value) (rest : List Expr) (paren : Token) :
    (callNext callee done rest paren k i).Sheltered first base home := by
  cases rest with
  | nil => exact call_sheltered later old callee done.reverse paren
  | cons arg rest => exact .evaluate arg (.argument callee done rest paren later)

end Values

theorem declare_sheltered {k : StmtCont} (later : Waiting.Shelters first base home i.env (.stmt k))
    (name : Token) (v : Value) : (declare name v k i).Sheltered first base home := by
  cases bound : i.binds name.lexeme with
  | true =>
      rw [declare_taken bound]
      exact .abandon _ later
  | false =>
      rw [declare_free bound]
      exact .finish .normal later

theorem execute_sheltered {s : Stmt} {k : StmtCont} (runs : s.MayRun first i.env)
    (later : Waiting.Shelters first base home i.env (.stmt k)) (old : first ≤ i.store.size) :
    (execute s k i).Sheltered first base home := by
  cases s with
  | expression e => exact .evaluate e (.discard later)
  | print e => exact .evaluate e (.print later)
  | declare name initializer =>
      cases initializer with
      | none => exact declare_sheltered later name .nil
      | some e =>
          obtain fresh | plain := runs
          · exact .evaluate e (.declare name fresh later)
          · cases plain.plain
  | block body => exact .finish .normal (.sequence body old (.leaveBlock later))
  | ifThen condition s =>
      refine .evaluate condition (.branch ?_ nofun later)
      refine runs.imp_right fun plain => ?_
      cases plain.shaped with
      | ifThen _ plain shaped => exact ⟨shaped, plain⟩
  | ifElse condition s r =>
      have branches : s.MayRun first i.env ∧ r.MayRun first i.env := by
        obtain fresh | plain := runs
        · exact ⟨.inl fresh, .inl fresh⟩
        · cases plain.shaped with
          | ifElse _ plain shaped plain' shaped' =>
              exact ⟨.inr ⟨shaped, plain⟩, .inr ⟨shaped', plain'⟩⟩
      refine .evaluate condition (.branch branches.1 ?_ later)
      rintro _ ⟨⟩
      exact branches.2
  | loop condition body =>
      refine .evaluate condition (.test condition ?_ later)
      refine runs.imp_right fun plain => ?_
      cases plain.shaped with
      | loop _ plain shaped => exact ⟨shaped, plain⟩
  | function name params body =>
      exact declare_sheltered (i := { i with supply := i.supply + 1 }) later name _
  | giveBack keyword value =>
      cases value with
      | none => exact .finish _ later
      | some e => exact .evaluate e (.giveBack later)

section Outcomes

theorem deliver_sheltered (v : Value) {k : ValueCont}
    (later : Waiting.Shelters first base home i.env (.value k)) (old : first ≤ i.store.size) :
    (Control.Meets base (.deliver v k) ∧ i.env = home) ∨
      (deliver v k i).Sheltered first base home := by
  cases later with
  | base => exact .inl ⟨.deliver v k, rfl⟩
  | discard later => exact .inr (.finish .normal later)
  | print later => exact .inr (.finish .normal later)
  | declare name fresh later => exact .inr (declare_sheltered later name v)
  | @branch _ s other k runs others later =>
      obtain takes | ⟨r, same, takes⟩ | passes := branch_cases v s other k
      · rw [takes]
        exact .inr (.execute runs later)
      · rw [takes]
        exact .inr (.execute (others r same) later)
      · rw [passes]
        exact .inr (.finish .normal later)
  | @test _ condition body k runs later =>
      obtain repeats | passes := test_cases v condition body k
      · rw [repeats]
        exact .inr (.execute runs (.again condition runs later))
      · rw [passes]
        exact .inr (.finish .normal later)
  | giveBack later => exact .inr (.finish _ later)
  | unary op operator later => exact .inr (deliverOr_sheltered later (op.apply v) operator)
  | left op operator right later => exact .inr (.evaluate right (.right op operator v later))
  | right op operator left later => exact .inr (deliverOr_sheltered later (op.apply left v) operator)
  | @decide _ op right k later =>
      obtain delivers | goes := decide_cases v op right k
      · rw [delivers]
        exact .inr (.deliver v later)
      · rw [goes]
        exact .inr (.evaluate right later)
  | @assign _ name k later =>
      refine .inr ?_
      cases found : i.store.resolve i.env name.lexeme with
      | some place =>
          rw [assign_found found]
          exact .deliver v later
      | none =>
          rw [assign_unfound found]
          exact raiseAt_sheltered later _ name.line
  | callee paren args later => exact .inr (callNext_sheltered later old v [] args paren)
  | argument callee done rest paren later =>
      exact .inr (callNext_sheltered later old callee (v :: done) rest paren)

theorem raise_sheltered (f : Fault) {k : ValueCont}
    (later : Waiting.Shelters first base home i.env (.value k)) :
    (Control.Meets base (.raise f k) ∧ i.env = home) ∨ (raise f k i).Sheltered first base home := by
  cases later with
  | base => exact .inl ⟨.raise f k, rfl⟩
  | discard later => exact .inr (.abandon f later)
  | print later => exact .inr (.abandon f later)
  | declare name fresh later => exact .inr (.abandon f later)
  | branch runs others later => exact .inr (.abandon f later)
  | test condition runs later => exact .inr (.abandon f later)
  | giveBack later => exact .inr (.abandon f later)
  | unary op operator later => exact .inr (.raise f later)
  | left op operator right later => exact .inr (.raise f later)
  | right op operator left later => exact .inr (.raise f later)
  | decide op right later => exact .inr (.raise f later)
  | assign name later => exact .inr (.raise f later)
  | callee paren args later => exact .inr (.raise f later)
  | argument callee done rest paren later => exact .inr (.raise f later)

theorem finish_sheltered (c : Completion) {k : StmtCont}
    (later : Waiting.Shelters first base home i.env (.stmt k)) :
    (Control.Meets base (.finish c k) ∧ i.env = home) ∨
      (finish c k i).Sheltered first base home := by
  cases later with
  | base => exact .inl ⟨.finish c k, rfl⟩
  | sequence rest fresh later =>
      cases c with
      | normal =>
          cases rest with
          | nil => exact .inr (.finish .normal later)
          | cons s rest => exact .inr (.execute (.inl fresh) (.sequence rest fresh later))
      | returned v => exact .inr (.finish _ later)
  | again condition runs later =>
      cases c with
      | normal => exact .inr (.evaluate condition (.test condition runs later))
      | returned v => exact .inr (.finish _ later)
  | leaveBlock later => exact .inr (.finish c later)
  | leaveCall later =>
      cases c with
      | normal => exact .inr (.deliver .nil later)
      | returned v => exact .inr (.deliver v later)

theorem abandon_sheltered (f : Fault) {k : StmtCont}
    (later : Waiting.Shelters first base home i.env (.stmt k)) :
    (Control.Meets base (.abandon f k) ∧ i.env = home) ∨
      (abandon f k i).Sheltered first base home := by
  cases later with
  | base => exact .inl ⟨.abandon f k, rfl⟩
  | sequence rest fresh later => exact .inr (.abandon f later)
  | again condition runs later => exact .inr (.abandon f later)
  | leaveBlock later => exact .inr (.abandon f later)
  | leaveCall later => exact .inr (.raise f later)

end Outcomes

theorem step_sheltered {m : Machine} (sheltered : m.Sheltered first base home)
    (old : first ≤ m.interpreter.store.size) :
    (m.control.Meets base ∧ m.interpreter.env = home) ∨ m.step.Sheltered first base home := by
  obtain ⟨control, i⟩ := m
  cases sheltered with
  | evaluate e later => exact .inr (evaluate_sheltered later e)
  | execute runs later => exact .inr (execute_sheltered runs later old)
  | deliver v later => exact deliver_sheltered v later old
  | finish c later => exact finish_sheltered c later
  | raise f later => exact raise_sheltered f later
  | abandon f later => exact abandon_sheltered f later

/-- Up to its base, a sheltered machine declares names in new scopes only. -/
theorem declares_sheltered {m : Machine} (sheltered : m.Sheltered first base home)
    (apart : ¬(m.control.Meets base ∧ m.interpreter.env = home)) {name : String}
    (declares : m.control.Declares name) : first ≤ m.interpreter.env := by
  obtain ⟨control, i⟩ := m
  cases declares with
  | missing name k =>
      cases sheltered with
      | execute runs later => exact runs.resolve_right fun plain => nomatch plain.plain
  | given v name k =>
      cases sheltered with
      | deliver _ later =>
          cases later with
          | base => exact absurd ⟨.deliver .., rfl⟩ apart
          | declare _ fresh later => exact fresh
  | function name params body k =>
      cases sheltered with
      | execute runs later => exact runs.resolve_right fun plain => nomatch plain.plain

/-- The scopes before `first` bind the same names in both stores. -/
def SameNames (first : Nat) (store later : Store) : Prop :=
  ∀ id, id < first → ∀ name, later.binds id name = store.binds id name

theorem step_names {m : Machine} (sheltered : m.Sheltered first base home)
    (old : first ≤ m.interpreter.store.size)
    (apart : ¬(m.control.Meets base ∧ m.interpreter.env = home)) :
    SameNames first m.interpreter.store m.step.interpreter.store := by
  intro id known name
  obtain same | ⟨rfl, declares⟩ := (step_edits m).binds_or (Nat.lt_of_lt_of_le known old) name
  · exact same
  · have fresh := declares_sheltered sheltered apart declares
    exact absurd known (Nat.not_lt.mpr fresh)

/-- A sheltered machine that halts meets its base before, and up to there the old scopes bind the
names that they bound. -/
theorem meets_of_halts {m : Machine} {a : Answer} {j : Interpreter}
    (reaches : Reaches m ⟨.halted a, j⟩) (sheltered : m.Sheltered first base home)
    (old : first ≤ m.interpreter.store.size) :
    ∃ n, Reaches m n ∧ Reaches n ⟨.halted a, j⟩ ∧ n.control.Meets base ∧ n.interpreter.env = home ∧
      SameNames first m.interpreter.store n.interpreter.store := by
  generalize same : (⟨.halted a, j⟩ : Machine) = stop at reaches
  induction reaches with
  | refl =>
      -- a halted machine is not sheltered, so the base is met before
      subst same
      cases sheltered
  | @step m stop later ih =>
      by_cases met : m.control.Meets base ∧ m.interpreter.env = home
      · exact ⟨m, .refl, .step later, met.1, met.2, fun _ _ _ => rfl⟩
      · have next := (step_sheltered sheltered old).resolve_left met
        have grown := (step_edits m).grows.size
        obtain ⟨n, way, halts, meets, env, names⟩ := ih next (Nat.le_trans old grown) same
        have first := step_names sheltered old met
        exact ⟨n, .step way, halts, meets, env, fun id known name =>
          (names id known name).trans (first id known name)⟩

theorem halts_of_meets_value {n : Machine} (meets : n.control.Meets (.value .stop)) :
    ∃ a, Reaches n ⟨.halted a, n.interpreter⟩ := by
  obtain ⟨control, l⟩ := n
  cases meets with
  | deliver v k => exact ⟨.value v, .step .refl⟩
  | raise f k => exact ⟨.failed f, .step .refl⟩

theorem halts_of_meets_stmt {n : Machine} (meets : n.control.Meets (.stmt .stop)) :
    ∃ a, Reaches n ⟨.halted a, n.interpreter⟩ := by
  obtain ⟨control, l⟩ := n
  cases meets with
  | finish c k => exact ⟨.completed c, .step .refl⟩
  | abandon f k => exact ⟨.failed f, .step .refl⟩

theorem evaluate_names {steps : Nat} {e : Expr} {i j : Interpreter} {result : Except Fault Value}
    (ran : i.evaluate steps e = some (result, j)) : SameNames i.store.size i.store j.store := by
  obtain ⟨a, ran, _⟩ := evaluate_eq_some_iff.mp ran
  have start : (⟨.evaluate e .stop, i⟩ : Machine).Sheltered i.store.size (.value .stop) i.env :=
    .evaluate e .base
  obtain ⟨n, _, halts, meets, _, names⟩ :=
    meets_of_halts (reaches_of_run ran) start (Nat.le_refl _)
  obtain ⟨b, stops⟩ := halts_of_meets_value meets
  obtain ⟨_, rfl⟩ := halts.unique stops
  exact names

theorem plain_names {s : Stmt} (plain : s.IsPlain) {i j : Interpreter} {a : Answer}
    (reaches : Reaches ⟨.execute s .stop, i⟩ ⟨.halted a, j⟩) :
    SameNames i.store.size i.store j.store := by
  have start : (⟨.execute s .stop, i⟩ : Machine).Sheltered i.store.size (.stmt .stop) i.env :=
    .execute (.inr plain) .base
  obtain ⟨n, _, halts, meets, _, names⟩ := meets_of_halts reaches start (Nat.le_refl _)
  obtain ⟨b, stops⟩ := halts_of_meets_stmt meets
  obtain ⟨_, rfl⟩ := halts.unique stops
  exact names

end Machine

/-- The name that a statement itself binds. -/
def Stmt.declared? : Stmt → Option String
  | .declare name _ => some name.lexeme
  | .function name _ _ => some name.lexeme
  | _ => none

/-- What a statement does to the names of the scopes that were there: if it declares a name and
succeeds, the current scope has this one name more, which it did not bind before. -/
structure Stmt.AddsNames (s : Stmt) (i : Interpreter) (result : Except Fault Completion)
    (j : Interpreter) : Prop where
  names : ∀ id, id < i.store.size → ∀ name, j.store.binds id name = true ↔
    i.store.binds id name = true ∨ id = i.env ∧ s.declared? = some name ∧ ∃ c, result = .ok c
  unbound : ∀ name c, s.declared? = some name → result = .ok c → i.binds name = false

namespace Machine

theorem adds_nothing {s : Stmt} {i j : Interpreter} {result : Except Fault Completion}
    (same : SameNames i.store.size i.store j.store)
    (apart : ∀ name c, s.declared? = some name → result ≠ .ok c) : s.AddsNames i result j where
  names id old name := by
    rw [same id old name]
    refine (or_iff_left ?_).symm
    rintro ⟨_, declared, c, succeeded⟩
    exact apart name c declared succeeded
  unbound name c declared succeeded := absurd succeeded (apart name c declared)

theorem failure_adds {s : Stmt} {i j : Interpreter} {f : Fault}
    (same : SameNames i.store.size i.store j.store) : s.AddsNames i (.error f) j := by
  refine adds_nothing same fun name c declared succeeded => ?_
  cases succeeded

theorem plain_adds {s : Stmt} (plain : s.IsPlain) {i j : Interpreter} {a : Answer}
    {result : Except Fault Completion} (reaches : Reaches ⟨.execute s .stop, i⟩ ⟨.halted a, j⟩) :
    s.AddsNames i result j := by
  refine adds_nothing (plain_names plain reaches) fun name c declared => ?_
  have absent : s.declared? = none := by
    cases s with
    | declare _ _ => cases plain.plain
    | function _ _ _ => cases plain.plain
    | _ => rfl
  rw [absent] at declared
  cases declared

theorem declare_adds {s : Stmt} {name : Token} (declared : s.declared? = some name.lexeme)
    {i l j : Interpreter} (env : l.env = i.env) (grows : i.store.Grows l.store)
    (same : SameNames i.store.size i.store l.store) {v : Value} {a : Answer}
    {result : Except Fault Completion} (came : a.completionOr? = some result)
    (halts : Reaches (declare name v .stop l) ⟨.halted a, j⟩) : s.AddsNames i result j := by
  cases bound : l.binds name.lexeme with
  | true =>
      rw [declare_taken bound] at halts
      obtain ⟨rfl, rfl⟩ := halts.unique (.step .refl)
      cases came
      exact failure_adds same
  | false =>
      rw [declare_free bound] at halts
      obtain ⟨rfl, rfl⟩ := halts.unique (.step .refl)
      cases came
      constructor
      · intro id old other
        have inside : id < l.store.size := Nat.lt_of_lt_of_le old grows.size
        have grown := l.store.insert_binds l.env name.lexeme v id other
        refine grown.trans ?_
        rw [same id old other, env, declared]
        refine or_congr_right (and_congr_right fun _ => ⟨?_, ?_⟩)
        · rintro ⟨_, rfl⟩
          exact ⟨rfl, _, rfl⟩
        · rintro ⟨known, _⟩
          cases known
          exact ⟨inside, rfl⟩
      · intro other c known _
        rw [declared] at known
        cases known
        have seen : l.store.binds i.env name.lexeme = false := env ▸ bound
        by_contra before
        have kept := grows.binds i.env name.lexeme (by simpa [Interpreter.binds] using before)
        rw [seen] at kept
        cases kept

theorem execute_names {steps : Nat} {s : Stmt} (shaped : s.IsShaped) {i j : Interpreter}
    {result : Except Fault Completion} (ran : i.execute steps s = some (result, j)) :
    s.AddsNames i result j := by
  obtain ⟨a, ran, came⟩ := execute_eq_some_iff.mp ran
  have reaches := reaches_of_run ran
  have same : SameNames i.store.size i.store i.store := fun _ _ _ => rfl
  cases s with
  | declare name initializer =>
      cases reaches with
      | step later =>
          cases initializer with
          | none => exact declare_adds rfl rfl (.refl _) same came later
          | some e =>
              have start : (⟨.evaluate e (.declare name .stop), i⟩ : Machine).Sheltered
                  i.store.size (.value (.declare name .stop)) i.env := .evaluate e .base
              obtain ⟨⟨control, l⟩, way, halts, meets, env, names⟩ :=
                meets_of_halts later start (Nat.le_refl _)
              cases meets with
              | deliver v k =>
                  cases halts with
                  | step halts => exact declare_adds rfl env way.grows names came halts
              | raise f k =>
                  obtain ⟨rfl, rfl⟩ := halts.unique (.step (.step .refl))
                  cases came
                  exact failure_adds names
  | function name params body =>
      cases reaches with
      | step later =>
          exact declare_adds (i := i) (l := { i with supply := i.supply + 1 }) rfl rfl (.refl _) same
            came later
  | _ => exact plain_adds ⟨shaped, rfl⟩ reaches

/-- Names are only ever added. Every scope keeps its names and its place. An expression adds none to
the scopes that were there, whatever it calls. A statement of a shape that the parser gives adds at
most the one that it declares, to the current scope, and only if it succeeds. -/
theorem names_only_added :
    (∀ m n, Reaches m n → m.interpreter.store.Grows n.interpreter.store) ∧
    (∀ steps e (i : Interpreter) result j, i.evaluate steps e = some (result, j) →
      SameNames i.store.size i.store j.store) ∧
    (∀ tokens, ∀ s ∈ (Parser.read tokens).statements, s.IsShaped) ∧
    ∀ steps (s : Stmt) (i : Interpreter) result j, s.IsShaped → i.execute steps s = some (result, j) →
      s.AddsNames i result j :=
  ⟨fun _ _ => Reaches.grows, fun _ _ _ _ _ => evaluate_names, Parser.shaped_of_read,
    fun _ _ _ _ _ shaped ran => execute_names shaped ran⟩

def localName : Token := .unplaced .identifier "inner" 1

/-- An interpreter with a function that declares a variable. -/
def withLocal : Interpreter :=
  (Interpreter.new 10).define "inner"
    (.callable 0 (.function ⟨localName, [], [.declare localName none]⟩ 0))

/-- A variable that is given whether two calls of the function come to the same. -/
def twice : Stmt :=
  let once := Expr.call (.variable localName) localName []
  .declare (.unplaced .identifier "same" 1) (some (.binary .eq localName once once))

theorem names_only_added_twice :
    ∃ c j, withLocal.execute 60 twice = some (.ok c, j) ∧
      ∀ name, j.store.binds 0 name = true ↔
        withLocal.store.binds 0 name = true ∨ name = "same" := by
  have ends : (withLocal.execute 60 twice).map (fun r => r.1.isOk) = some true := by
    decide +kernel
  obtain ⟨⟨result, j⟩, ran, succeeded⟩ := Option.map_eq_some_iff.mp ends
  cases result with
  | error f => cases succeeded
  | ok c =>
      have adds := names_only_added.2.2.2 60 twice withLocal (.ok c) j (.declare ..) ran
      refine ⟨c, j, ran, fun name => (adds.names 0 (by decide) name).trans (or_congr_right ?_)⟩
      constructor
      · rintro ⟨_, declared, _⟩
        cases declared
        rfl
      · rintro rfl
        exact ⟨rfl, rfl, c, rfl⟩

end Machine
end Jess
