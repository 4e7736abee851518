import Jess.Proofs.MachineLikeness
import Jess.Proofs.Names
import Jess.Proofs.Pairing

/-!
# Runs in paired scopes

Two machines run the same tree in scopes that are paired. One step of the first
is one step of the second, up to where each of them has the outcome that it was
to come to. What waits for that outcome may differ. A name is declared in twins
only, so the first machine must not declare one in a scope that is loosely
paired: it is sheltered from that.
-/

namespace Jess

structure Interpreter.Paired (p : Pairing) (i j : Interpreter) : Prop where
  store : Store.Paired p i.store j.store
  env : p.Pairs i.env j.env
  depth : i.depth = j.depth
  limit : i.limit = j.limit
  supply : i.supply = j.supply
  printed : i.printed = j.printed

inductive Completion.Paired (p : Pairing) : Completion → Completion → Prop
  | normal : Paired p .normal .normal
  | returned {v w : Value} (values : Value.Paired p v w) : Paired p (.returned v) (.returned w)

/-- The same waits in both runs, up to scopes that are paired, in front of what may differ. -/
inductive Waiting.Paired (p : Pairing) (base base' : Waiting) : Waiting → Waiting → Prop
  | base : Paired p base base' base base'
  | discard {k l : StmtCont} (later : Paired p base base' (.stmt k) (.stmt l)) :
      Paired p base base' (.value (.discard k)) (.value (.discard l))
  | print {k l : StmtCont} (later : Paired p base base' (.stmt k) (.stmt l)) :
      Paired p base base' (.value (.print k)) (.value (.print l))
  | declare (name : Token) {k l : StmtCont} (later : Paired p base base' (.stmt k) (.stmt l)) :
      Paired p base base' (.value (.declare name k)) (.value (.declare name l))
  | branch (s : Stmt) (other : Option Stmt) {k l : StmtCont}
      (later : Paired p base base' (.stmt k) (.stmt l)) :
      Paired p base base' (.value (.branch s other k)) (.value (.branch s other l))
  | test (condition : Expr) (body : Stmt) {k l : StmtCont}
      (later : Paired p base base' (.stmt k) (.stmt l)) :
      Paired p base base' (.value (.test condition body k)) (.value (.test condition body l))
  | giveBack {k l : StmtCont} (later : Paired p base base' (.stmt k) (.stmt l)) :
      Paired p base base' (.value (.giveBack k)) (.value (.giveBack l))
  | unary (op : UnaryOp) (operator : Token) {k l : ValueCont}
      (later : Paired p base base' (.value k) (.value l)) :
      Paired p base base' (.value (.unary op operator k)) (.value (.unary op operator l))
  | left (op : BinaryOp) (operator : Token) (right : Expr) {k l : ValueCont}
      (later : Paired p base base' (.value k) (.value l)) :
      Paired p base base' (.value (.left op operator right k)) (.value (.left op operator right l))
  | right (op : BinaryOp) (operator : Token) {v w : Value} {k l : ValueCont}
      (left : Value.Paired p v w) (later : Paired p base base' (.value k) (.value l)) :
      Paired p base base' (.value (.right op operator v k)) (.value (.right op operator w l))
  | decide (op : LogicalOp) (right : Expr) {k l : ValueCont}
      (later : Paired p base base' (.value k) (.value l)) :
      Paired p base base' (.value (.decide op right k)) (.value (.decide op right l))
  | assign (name : Token) {k l : ValueCont} (later : Paired p base base' (.value k) (.value l)) :
      Paired p base base' (.value (.assign name k)) (.value (.assign name l))
  | callee (paren : Token) (args : List Expr) {k l : ValueCont}
      (later : Paired p base base' (.value k) (.value l)) :
      Paired p base base' (.value (.callee paren args k)) (.value (.callee paren args l))
  | argument {v w : Value} {vs ws : List Value} (rest : List Expr) (paren : Token) {k l : ValueCont}
      (called : Value.Paired p v w) (done : List.Forall₂ (Value.Paired p) vs ws)
      (later : Paired p base base' (.value k) (.value l)) :
      Paired p base base' (.value (.argument v vs rest paren k))
        (.value (.argument w ws rest paren l))
  | sequence (rest : List Stmt) {k l : StmtCont} (later : Paired p base base' (.stmt k) (.stmt l)) :
      Paired p base base' (.stmt (.sequence rest k)) (.stmt (.sequence rest l))
  | again (condition : Expr) (body : Stmt) {k l : StmtCont}
      (later : Paired p base base' (.stmt k) (.stmt l)) :
      Paired p base base' (.stmt (.again condition body k)) (.stmt (.again condition body l))
  | leaveBlock {m n : Nat} {k l : StmtCont} (home : p.Pairs m n)
      (later : Paired p base base' (.stmt k) (.stmt l)) :
      Paired p base base' (.stmt (.leaveBlock m k)) (.stmt (.leaveBlock n l))
  | leaveCall {m n : Nat} {k l : ValueCont} (home : p.Pairs m n)
      (later : Paired p base base' (.value k) (.value l)) :
      Paired p base base' (.stmt (.leaveCall m k)) (.stmt (.leaveCall n l))

inductive Control.Paired (p : Pairing) (base base' : Waiting) : Control → Control → Prop
  | evaluate (e : Expr) {k l : ValueCont}
      (waiting : Waiting.Paired p base base' (.value k) (.value l)) :
      Paired p base base' (.evaluate e k) (.evaluate e l)
  | execute (s : Stmt) {k l : StmtCont}
      (waiting : Waiting.Paired p base base' (.stmt k) (.stmt l)) :
      Paired p base base' (.execute s k) (.execute s l)
  | deliver {v w : Value} {k l : ValueCont} (values : Value.Paired p v w)
      (waiting : Waiting.Paired p base base' (.value k) (.value l)) :
      Paired p base base' (.deliver v k) (.deliver w l)
  | finish {c d : Completion} {k l : StmtCont} (ends : Completion.Paired p c d)
      (waiting : Waiting.Paired p base base' (.stmt k) (.stmt l)) :
      Paired p base base' (.finish c k) (.finish d l)
  | raise (f : Fault) {k l : ValueCont}
      (waiting : Waiting.Paired p base base' (.value k) (.value l)) :
      Paired p base base' (.raise f k) (.raise f l)
  | abandon (f : Fault) {k l : StmtCont}
      (waiting : Waiting.Paired p base base' (.stmt k) (.stmt l)) :
      Paired p base base' (.abandon f k) (.abandon f l)

inductive Control.Met (p : Pairing) : Waiting → Waiting → Control → Control → Prop
  | deliver {v w : Value} (values : Value.Paired p v w) (k l : ValueCont) :
      Met p (.value k) (.value l) (.deliver v k) (.deliver w l)
  | raise (f : Fault) (k l : ValueCont) : Met p (.value k) (.value l) (.raise f k) (.raise f l)
  | finish {c d : Completion} (ends : Completion.Paired p c d) (k l : StmtCont) :
      Met p (.stmt k) (.stmt l) (.finish c k) (.finish d l)
  | abandon (f : Fault) (k l : StmtCont) : Met p (.stmt k) (.stmt l) (.abandon f k) (.abandon f l)

structure Machine.Paired (p : Pairing) (base base' : Waiting) (m n : Machine) : Prop where
  control : Control.Paired p base base' m.control n.control
  interpreter : Interpreter.Paired p m.interpreter n.interpreter

/-- The machines are paired after a step, in which twins may have come to be. -/
def Machine.Goes (p : Pairing) (base base' : Waiting) (m n : Machine) : Prop :=
  ∃ q, p.Grows q ∧ Machine.Paired q base base' m n

variable {p q : Pairing} {base base' : Waiting}

section Extending

variable (extends_ : p.Extends q)

include extends_

theorem values_paired_extend {vs ws : List Value} (paired : List.Forall₂ (Value.Paired p) vs ws) :
    List.Forall₂ (Value.Paired q) vs ws :=
  paired.imp fun _ _ one => one.extend extends_

theorem Waiting.Paired.extend {x y : Waiting} (paired : Waiting.Paired p base base' x y) :
    Waiting.Paired q base base' x y := by
  induction paired with
  | base => exact .base
  | discard _ ih => exact .discard ih
  | print _ ih => exact .print ih
  | declare name _ ih => exact .declare name ih
  | branch s other _ ih => exact .branch s other ih
  | test condition body _ ih => exact .test condition body ih
  | giveBack _ ih => exact .giveBack ih
  | unary op operator _ ih => exact .unary op operator ih
  | left op operator right _ ih => exact .left op operator right ih
  | right op operator left _ ih => exact .right op operator (left.extend extends_) ih
  | decide op right _ ih => exact .decide op right ih
  | assign name _ ih => exact .assign name ih
  | callee paren args _ ih => exact .callee paren args ih
  | argument rest paren called done _ ih =>
      exact .argument rest paren (called.extend extends_) (values_paired_extend extends_ done) ih
  | sequence rest _ ih => exact .sequence rest ih
  | again condition body _ ih => exact .again condition body ih
  | leaveBlock home _ ih => exact .leaveBlock (home.extend extends_) ih
  | leaveCall home _ ih => exact .leaveCall (home.extend extends_) ih

end Extending

section Values

variable {v w v' w' : Value}

theorem Value.Paired.isTruthy (paired : Value.Paired p v w) : v.isTruthy = w.isTruthy := by
  cases paired <;> rfl

theorem Value.Paired.text (paired : Value.Paired p v w) : v.text = w.text := by
  cases paired <;> rfl

theorem Value.Paired.glimpse (paired : Value.Paired p v w) : v.glimpse = w.glimpse := by
  cases paired <;> rfl

theorem BinaryOp.apply_paired (op : BinaryOp) (first : Value.Paired p v w)
    (second : Value.Paired p v' w') : op.apply v v' = op.apply w w' := by
  cases first with
  | plain _ =>
      cases second with
      | plain _ => rfl
      | function identity f _ => cases op <;> cases v <;> rfl
  | function identity f _ =>
      cases second with
      | plain _ => cases op <;> cases v' <;> rfl
      | function identity' g _ => cases op <;> rfl

theorem UnaryOp.apply_paired (op : UnaryOp) (operand : Value.Paired p v w) :
    op.apply v = op.apply w := by
  cases operand with
  | plain _ => rfl
  | function identity f _ => cases op <;> rfl

theorem LogicalOp.decidedBy_paired (op : LogicalOp) (left : Value.Paired p v w) :
    op.decidedBy v = op.decidedBy w := by
  cases left with
  | plain _ => rfl
  | function identity f _ => cases op <;> rfl

end Values

namespace Interpreter

variable {i j : Interpreter}

theorem Paired.printAll (paired : Paired p i j) (lines : List String) :
    Paired p (i.printAll lines) (j.printAll lines) :=
  { paired with printed := by simp only [Interpreter.printAll, paired.printed] }

theorem Paired.define (paired : Paired p i j) (twins : p.twin i.env j.env) (name : String)
    {v w : Value} (values : Value.Paired p v w) :
    Paired p (i.define name v) (j.define name w) :=
  { paired with store := paired.store.insert values twins name }

theorem Paired.fresh (paired : Paired p i j) :
    Paired p { i with supply := i.supply + 1 } { j with supply := j.supply + 1 } :=
  { paired with supply := congrArg (· + 1) paired.supply }

theorem Paired.moveTo (paired : Paired p i j) {m n : Nat} (home : p.Pairs m n) :
    Paired p (i.moveTo m) (j.moveTo n) :=
  { paired with env := home }

theorem Paired.endCall (paired : Paired p i j) {m n : Nat} (home : p.Pairs m n) :
    Paired p (i.endCall m) (j.endCall n) :=
  { paired with
    env := home
    depth := congrArg (· - 1) paired.depth }

theorem Paired.enter (paired : Paired p i j) {m n : Nat} (around : p.Pairs m n) :
    Paired (p.addTwin i.store.size j.store.size) (i.enter m) (j.enter n) :=
  { paired with
    store := paired.store.openScope around
    env := .inl (p.addTwin_twin _ _) }

/-- The first one alone enters a scope, which stands for the one around it. -/
theorem Paired.enterFirst (paired : Paired p i j) :
    Paired (p.addLoose i.store.size j.env) (i.enter i.env) j :=
  { paired with
    store := paired.store.openFirst paired.env
    env := .inr (p.addLoose_loose _ _) }

theorem Paired.enterSecond (paired : Paired p i j) :
    Paired (p.addLoose i.env j.store.size) i (j.enter j.env) :=
  { paired with
    store := paired.store.openSecond paired.env
    env := .inr (p.addLoose_loose _ _) }

theorem Paired.bindParams {pairs others : List (Token × Value)}
    (alike : List.Forall₂ (fun x y => x.1 = y.1 ∧ Value.Paired p x.2 y.2) pairs others)
    (paired : Paired p i j) (twins : p.twin i.env j.env) :
    Paired p (i.bindParams pairs).1 (j.bindParams others).1 ∧
      (i.bindParams pairs).2 = (j.bindParams others).2 := by
  induction alike generalizing i j with
  | nil => exact ⟨paired, rfl⟩
  | @cons x y _ _ first _ ih =>
      obtain ⟨param, arg⟩ := x
      obtain ⟨param', arg'⟩ := y
      obtain ⟨same, values⟩ := first
      simp only at same values
      subst same
      have binds : i.binds param.lexeme = j.binds param.lexeme :=
        paired.store.binds twins param.lexeme
      simp only [Interpreter.bindParams, binds]
      split
      · exact ⟨paired, rfl⟩
      · exact ih (paired.define twins _ values) twins

end Interpreter

theorem zip_paired {vs ws : List Value} (params : List Token)
    (values : List.Forall₂ (Value.Paired p) vs ws) :
    List.Forall₂ (fun x y => x.1 = y.1 ∧ Value.Paired p x.2 y.2) (params.zip vs)
      (params.zip ws) := by
  induction params generalizing vs ws with
  | nil => exact .nil
  | cons param rest ih =>
      cases values with
      | nil => exact .nil
      | cons value later => exact .cons ⟨rfl, value⟩ (ih later)

theorem getD_paired {vs ws : List Value} (values : List.Forall₂ (Value.Paired p) vs ws)
    (index : Nat) : Value.Paired p (vs.getD index .nil) (ws.getD index .nil) := by
  induction values generalizing index with
  | nil => exact .plain rfl
  | cons first _ ih =>
      cases index with
      | zero => exact first
      | succ index => exact ih index

theorem glimpses_paired {vs ws : List Value} (values : List.Forall₂ (Value.Paired p) vs ws) :
    vs.map Value.glimpse = ws.map Value.glimpse := by
  induction values with
  | nil => rfl
  | cons first _ ih => rw [List.map_cons, List.map_cons, first.glimpse, ih]

namespace Machine

variable {i j : Interpreter}

theorem Paired.goes {m n : Machine} (paired : Paired p base base' m n) :
    Goes p base base' m n := ⟨p, .refl p, paired⟩

section Values

variable {k l : ValueCont} (paired : Interpreter.Paired p i j)
  (waiting : Waiting.Paired p base base' (.value k) (.value l))

include paired waiting

theorem raiseAt_paired (cause : Fault.Cause) (line : Nat) :
    Paired p base base' (raiseAt cause line k i) (raiseAt cause line l j) :=
  ⟨.raise _ waiting, paired⟩

theorem deliverOr_paired {result : Except Fault.Cause Value}
    (nowhere : ∀ v, result = .ok v → v.closure? = none) (operator : Token) :
    Paired p base base' (deliverOr result operator k i) (deliverOr result operator l j) := by
  cases result with
  | ok v => exact ⟨.deliver (.plain (nowhere v rfl)) waiting, paired⟩
  | error cause => exact raiseAt_paired paired waiting cause operator.line

theorem evaluate_paired (e : Expr) : Paired p base base' (evaluate e k i) (evaluate e l j) := by
  cases e with
  | literal l =>
      exact ⟨.deliver (.plain (Value.closure?_eq_none (Value.ofLiteral_data l))) waiting, paired⟩
  | grouping inner => exact ⟨.evaluate inner waiting, paired⟩
  | unary op operator operand => exact ⟨.evaluate operand (.unary op operator waiting), paired⟩
  | binary op operator left right =>
      exact ⟨.evaluate left (.left op operator right waiting), paired⟩
  | logical op operator left right => exact ⟨.evaluate left (.decide op right waiting), paired⟩
  | «variable» name =>
      have found := paired.store.get paired.env name.lexeme
      simp only [evaluate]
      revert found
      generalize i.store.get? i.env name.lexeme = x
      generalize j.store.get? j.env name.lexeme = y
      intro found
      cases found with
      | none => exact raiseAt_paired paired waiting _ _
      | some values => exact ⟨.deliver values waiting, paired⟩
  | assign name value => exact ⟨.evaluate value (.assign name waiting), paired⟩
  | call callee paren args => exact ⟨.evaluate callee (.callee paren args waiting), paired⟩

theorem callNative_paired (n : Native) {vs ws : List Value}
    (args : List.Forall₂ (Value.Paired p) vs ws) :
    Paired p base base' (callNative n vs k i) (callNative n ws l j) := by
  simp only [callNative, glimpses_paired args]
  refine ⟨?_, paired.printAll _⟩
  cases (n.action (ws.map Value.glimpse)).answer with
  | data l =>
      exact .deliver (.plain (Value.closure?_eq_none (Value.ofLiteral_data l))) waiting
  | argument index => exact .deliver (getD_paired args index) waiting
  | fault f own => exact .raise f waiting

theorem callFunction_goes (f : Function) {m n : Nat} (closures : p.Pairs m n) {vs ws : List Value}
    (args : List.Forall₂ (Value.Paired p) vs ws) :
    Goes p base base' (callFunction f m vs k i) (callFunction f n ws l j) := by
  let q := p.addTwin i.store.size j.store.size
  have grows : p.Grows q := p.addTwin_grows _ _
  have later := waiting.extend grows.extends_
  have home := paired.env.extend grows.extends_
  have values := zip_paired f.params (values_paired_extend grows.extends_ args)
  obtain ⟨both, clashes⟩ := (paired.enter closures).bindParams values (p.addTwin_twin _ _)
  refine ⟨q, grows, ?_⟩
  cases bound : (i.enter m).bindParams (f.params.zip vs) with
  | mk i' clash =>
      cases bound' : (j.enter n).bindParams (f.params.zip ws) with
      | mk j' clash' =>
          rw [bound, bound'] at both clashes
          simp only at both clashes
          subst clashes
          cases clash with
          | none =>
              rw [callFunction_bound bound, callFunction_bound bound']
              exact ⟨.finish .normal (.sequence f.body (.leaveCall home later)),
                { both with depth := congrArg (· + 1) both.depth }⟩
          | some clash =>
              rw [callFunction_clash bound, callFunction_clash bound']
              exact raiseAt_paired (both.moveTo home) later _ _

theorem call_goes {v w : Value} (callee : Value.Paired p v w) {vs ws : List Value}
    (args : List.Forall₂ (Value.Paired p) vs ws) (paren : Token) :
    Goes p base base' (call v vs paren k i) (call w ws paren l j) := by
  have count := args.length_eq
  cases callee with
  | plain nowhere =>
      cases v with
      | callable identity c =>
          cases c with
          | function f closure => cases nowhere
          | native n =>
              simp only [call, count, paired.limit, paired.depth]
              split
              · exact (raiseAt_paired paired waiting _ _).goes
              split
              · exact (raiseAt_paired paired waiting _ _).goes
              · exact (callNative_paired paired waiting n args).goes
      | _ => exact (raiseAt_paired paired waiting _ _).goes
  | function identity f closures =>
      simp only [call, Callable.arity, count, paired.limit, paired.depth]
      split
      · exact (raiseAt_paired paired waiting _ _).goes
      split
      · exact (raiseAt_paired paired waiting _ _).goes
      · exact callFunction_goes paired waiting f closures args

theorem callNext_goes {v w : Value} (callee : Value.Paired p v w) {vs ws : List Value}
    (done : List.Forall₂ (Value.Paired p) vs ws) (rest : List Expr) (paren : Token) :
    Goes p base base' (callNext v vs rest paren k i) (callNext w ws rest paren l j) := by
  cases rest with
  | nil => exact call_goes paired waiting callee (List.rel_reverse done) paren
  | cons arg rest =>
      exact Paired.goes ⟨.evaluate arg (.argument rest paren callee done waiting), paired⟩

end Values

section Statements

variable {k l : StmtCont} (paired : Interpreter.Paired p i j)
  (waiting : Waiting.Paired p base base' (.stmt k) (.stmt l))

include paired waiting

theorem declare_paired (twins : p.twin i.env j.env) (name : Token) {v w : Value}
    (values : Value.Paired p v w) :
    Paired p base base' (declare name v k i) (declare name w l j) := by
  have binds : i.binds name.lexeme = j.binds name.lexeme := paired.store.binds twins name.lexeme
  simp only [declare, binds]
  split
  · exact ⟨.abandon _ waiting, paired⟩
  · exact ⟨.finish .normal waiting, paired.define twins _ values⟩

theorem execute_goes (s : Stmt)
    (room : ∀ name, (Control.execute s k).Declares name → p.twin i.env j.env) :
    Goes p base base' (execute s k i) (execute s l j) := by
  cases s with
  | expression e => exact Paired.goes ⟨.evaluate e (.discard waiting), paired⟩
  | print e => exact Paired.goes ⟨.evaluate e (.print waiting), paired⟩
  | declare name initializer =>
      cases initializer with
      | none =>
          exact (declare_paired paired waiting (room _ (.missing name k)) name (.plain rfl)).goes
      | some e => exact Paired.goes ⟨.evaluate e (.declare name waiting), paired⟩
  | block body =>
      have grows := p.addTwin_grows i.store.size j.store.size
      have home := paired.env.extend grows.extends_
      have later := waiting.extend grows.extends_
      exact ⟨_, grows, .finish .normal (.sequence body (.leaveBlock home later)),
        paired.enter paired.env⟩
  | ifThen condition s => exact Paired.goes ⟨.evaluate condition (.branch s none waiting), paired⟩
  | ifElse condition s other =>
      exact Paired.goes ⟨.evaluate condition (.branch s (some other) waiting), paired⟩
  | loop condition body =>
      exact Paired.goes ⟨.evaluate condition (.test condition body waiting), paired⟩
  | function name params body =>
      have twins := room _ (.function name params body k)
      have supplies := paired.supply
      have values : Value.Paired p (.callable i.supply (.function ⟨name, params, body⟩ i.env))
          (.callable j.supply (.function ⟨name, params, body⟩ j.env)) := by
        rw [supplies]
        exact .function _ _ (.inl twins)
      exact (declare_paired paired.fresh waiting twins name values).goes
  | giveBack keyword value =>
      cases value with
      | none => exact Paired.goes ⟨.finish (.returned (.plain rfl)) waiting, paired⟩
      | some e => exact Paired.goes ⟨.evaluate e (.giveBack waiting), paired⟩

end Statements

section Outcomes

theorem deliver_paired (paired : Interpreter.Paired p i j) {v w : Value}
    (values : Value.Paired p v w) {k l : ValueCont}
    (waiting : Waiting.Paired p base base' (.value k) (.value l))
    (room : ∀ name, (Control.deliver v k).Declares name → p.twin i.env j.env) :
    Control.Met p base base' (.deliver v k) (.deliver w l) ∨
      Goes p base base' (deliver v k i) (deliver w l j) := by
  cases waiting with
  | base => exact .inl (.deliver values k l)
  | discard later => exact .inr (Paired.goes ⟨.finish .normal later, paired⟩)
  | print later =>
      simp only [deliver, values.text]
      exact .inr (Paired.goes ⟨.finish .normal later, paired.printAll [_]⟩)
  | @declare name k l later =>
      exact .inr (declare_paired paired later (room _ (.given v name k)) name values).goes
  | branch s other later =>
      refine .inr ?_
      simp only [deliver, values.isTruthy]
      split
      · exact Paired.goes ⟨.execute s later, paired⟩
      · cases other with
        | none => exact Paired.goes ⟨.finish .normal later, paired⟩
        | some other => exact Paired.goes ⟨.execute other later, paired⟩
  | test condition body later =>
      refine .inr ?_
      simp only [deliver, values.isTruthy]
      split
      · exact Paired.goes ⟨.execute body (.again condition body later), paired⟩
      · exact Paired.goes ⟨.finish .normal later, paired⟩
  | giveBack later => exact .inr (Paired.goes ⟨.finish (.returned values) later, paired⟩)
  | unary op operator later =>
      simp only [deliver, op.apply_paired values]
      exact .inr (deliverOr_paired paired later
        (fun _ came => Value.closure?_eq_none (UnaryOp.apply_data came)) operator).goes
  | left op operator right later =>
      exact .inr (Paired.goes ⟨.evaluate right (.right op operator values later), paired⟩)
  | right op operator left later =>
      simp only [deliver, op.apply_paired left values]
      exact .inr (deliverOr_paired paired later
        (fun _ came => Value.closure?_eq_none (BinaryOp.apply_data came)) operator).goes
  | decide op right later =>
      refine .inr ?_
      simp only [deliver, op.decidedBy_paired values]
      split
      · exact Paired.goes ⟨.deliver values later, paired⟩
      · exact Paired.goes ⟨.evaluate right later, paired⟩
  | assign name later =>
      refine .inr ?_
      have homes := paired.store.resolve paired.env name.lexeme
      simp only [deliver]
      revert homes
      generalize i.store.resolve i.env name.lexeme = x
      generalize j.store.resolve j.env name.lexeme = y
      intro homes
      cases homes with
      | none => exact (raiseAt_paired paired later _ _).goes
      | some twins =>
          exact Paired.goes ⟨.deliver values later,
            { paired with store := paired.store.update values twins _ }⟩
  | callee paren args later => exact .inr (callNext_goes paired later values .nil args paren)
  | argument rest paren called done later =>
      exact .inr (callNext_goes paired later called (.cons values done) rest paren)

theorem raise_paired (paired : Interpreter.Paired p i j) (f : Fault) {k l : ValueCont}
    (waiting : Waiting.Paired p base base' (.value k) (.value l)) :
    Control.Met p base base' (.raise f k) (.raise f l) ∨
      Paired p base base' (raise f k i) (raise f l j) := by
  cases waiting with
  | base => exact .inl (.raise f k l)
  | discard later => exact .inr ⟨.abandon f later, paired⟩
  | print later => exact .inr ⟨.abandon f later, paired⟩
  | declare _ later => exact .inr ⟨.abandon f later, paired⟩
  | branch _ _ later => exact .inr ⟨.abandon f later, paired⟩
  | test _ _ later => exact .inr ⟨.abandon f later, paired⟩
  | giveBack later => exact .inr ⟨.abandon f later, paired⟩
  | unary _ _ later => exact .inr ⟨.raise f later, paired⟩
  | left _ _ _ later => exact .inr ⟨.raise f later, paired⟩
  | right _ _ _ later => exact .inr ⟨.raise f later, paired⟩
  | decide _ _ later => exact .inr ⟨.raise f later, paired⟩
  | assign _ later => exact .inr ⟨.raise f later, paired⟩
  | callee _ _ later => exact .inr ⟨.raise f later, paired⟩
  | argument _ _ _ _ later => exact .inr ⟨.raise f later, paired⟩

theorem finish_paired (paired : Interpreter.Paired p i j) {c d : Completion}
    (ends : Completion.Paired p c d) {k l : StmtCont}
    (waiting : Waiting.Paired p base base' (.stmt k) (.stmt l)) :
    Control.Met p base base' (.finish c k) (.finish d l) ∨
      Paired p base base' (finish c k i) (finish d l j) := by
  cases waiting with
  | base => exact .inl (.finish ends k l)
  | sequence rest later =>
      refine .inr ?_
      cases ends with
      | normal =>
          cases rest with
          | nil => exact ⟨.finish .normal later, paired⟩
          | cons s rest => exact ⟨.execute s (.sequence rest later), paired⟩
      | returned values => exact ⟨.finish (.returned values) later, paired⟩
  | again condition body later =>
      refine .inr ?_
      cases ends with
      | normal => exact ⟨.evaluate condition (.test condition body later), paired⟩
      | returned values => exact ⟨.finish (.returned values) later, paired⟩
  | leaveBlock home later => exact .inr ⟨.finish ends later, paired.moveTo home⟩
  | leaveCall home later =>
      refine .inr ?_
      cases ends with
      | normal => exact ⟨.deliver (.plain rfl) later, paired.endCall home⟩
      | returned values => exact ⟨.deliver values later, paired.endCall home⟩

theorem abandon_paired (paired : Interpreter.Paired p i j) (f : Fault) {k l : StmtCont}
    (waiting : Waiting.Paired p base base' (.stmt k) (.stmt l)) :
    Control.Met p base base' (.abandon f k) (.abandon f l) ∨
      Paired p base base' (abandon f k i) (abandon f l j) := by
  cases waiting with
  | base => exact .inl (.abandon f k l)
  | sequence _ later => exact .inr ⟨.abandon f later, paired⟩
  | again _ _ later => exact .inr ⟨.abandon f later, paired⟩
  | leaveBlock home later => exact .inr ⟨.abandon f later, paired.moveTo home⟩
  | leaveCall home later => exact .inr ⟨.raise f later, paired.endCall home⟩

end Outcomes

/-- Machines that are paired have come to outcomes that are alike, or one step of each pairs them
again, if a name is declared in twins only. -/
theorem step_paired {m n : Machine} (paired : Paired p base base' m n)
    (room : ∀ name, m.control.Declares name → p.twin m.interpreter.env n.interpreter.env) :
    Control.Met p base base' m.control n.control ∨ Goes p base base' m.step n.step := by
  obtain ⟨control, i⟩ := m
  obtain ⟨control', j⟩ := n
  obtain ⟨controls, interpreters⟩ := paired
  cases controls with
  | evaluate e waiting => exact .inr (evaluate_paired interpreters waiting e).goes
  | execute s waiting => exact .inr (execute_goes interpreters waiting s room)
  | deliver values waiting => exact deliver_paired interpreters values waiting room
  | finish ends waiting => exact (finish_paired interpreters ends waiting).imp_right Paired.goes
  | raise f waiting => exact (raise_paired interpreters f waiting).imp_right Paired.goes
  | abandon f waiting => exact (abandon_paired interpreters f waiting).imp_right Paired.goes

/-- Two machines in step, the first of which declares no name before it has its outcome, but in
scopes that were not there, and are not loosely paired. -/
structure Abreast (p : Pairing) (base base' : Waiting) (first home : Nat) (m n : Machine) :
    Prop where
  paired : Paired p base base' m n
  sheltered : m.Sheltered first base home
  old : first ≤ m.interpreter.store.size
  near : ∀ {x y}, p.loose x y → x < first

def Come (p : Pairing) (base base' : Waiting) (m n : Machine) : Prop :=
  ∃ q m' n', p.Grows q ∧ Reaches m m' ∧ Reaches n n' ∧
    Control.Met q base base' m'.control n'.control ∧
    Interpreter.Paired q m'.interpreter n'.interpreter

end Machine

inductive Waiting.IsStop : Waiting → Prop
  | value : IsStop (.value .stop)
  | stmt : IsStop (.stmt .stop)

namespace Machine

variable {first home : Nat} {m n : Machine}

theorem meets_stop (stop : base.IsStop) (meets : m.control.Meets base) :
    (∀ name, ¬m.control.Declares name) ∧ m.step.IsHalted := by
  obtain ⟨control, i⟩ := m
  cases stop with
  | value => cases meets <;> exact ⟨nofun, ⟨_, rfl⟩⟩
  | stmt => cases meets <;> exact ⟨nofun, ⟨_, rfl⟩⟩

theorem Paired.not_halted (paired : Paired p base base' m n) : ¬m.IsHalted := by
  obtain ⟨control, i⟩ := m
  obtain ⟨control', j⟩ := n
  rintro ⟨a, rfl⟩
  cases paired.control

theorem Paired.not_halted_second (paired : Paired p base base' m n) : ¬n.IsHalted := by
  obtain ⟨control, i⟩ := m
  obtain ⟨control', j⟩ := n
  rintro ⟨a, rfl⟩
  cases paired.control

theorem Abreast.step (abreast : Abreast p base base' first home m n) (stop : base.IsStop) :
    Control.Met p base base' m.control n.control ∨
      ∃ q, p.Grows q ∧ Abreast q base base' first home m.step n.step := by
  have room : ∀ name, m.control.Declares name →
      p.twin m.interpreter.env n.interpreter.env := by
    intro name declares
    have apart : ¬(m.control.Meets base ∧ m.interpreter.env = home) :=
      fun met => (meets_stop stop met.1).1 name declares
    have fresh := declares_sheltered abreast.sheltered apart declares
    apply abreast.paired.interpreter.env.resolve_right
    intro loose
    exact absurd (abreast.near loose) (Nat.not_lt.mpr fresh)
  obtain met | ⟨q, grows, paired⟩ := step_paired abreast.paired room
  · exact .inl met
  · have sheltered := (step_sheltered abreast.sheltered abreast.old).resolve_left
      fun met => paired.not_halted (meets_stop stop met.1).2
    have old := Nat.le_trans abreast.old (step_edits m).grows.size
    exact .inr ⟨q, grows, paired, sheltered, old, fun loose => abreast.near (grows.loose ▸ loose)⟩

theorem Abreast.comes (abreast : Abreast p base base' first home m n)
    (met : Control.Met p base base' m.control n.control) : Come p base base' m n :=
  ⟨p, m, n, .refl p, .refl, .refl, met, abreast.paired.interpreter⟩

theorem Come.before (comes : Come q base base' m.step n.step) (grows : p.Grows q) :
    Come p base base' m n := by
  obtain ⟨q', m', n', later, way, way', met, interpreters⟩ := comes
  exact ⟨q', m', n', grows.trans later, .step way, .step way', met, interpreters⟩

theorem come_of_first {a : Answer} {i : Interpreter} (reaches : Reaches m ⟨.halted a, i⟩)
    (stop : base.IsStop) (abreast : Abreast p base base' first home m n) :
    Come p base base' m n := by
  generalize same : (⟨.halted a, i⟩ : Machine) = halted at reaches
  induction reaches generalizing p n with
  | refl =>
      subst same
      exact absurd ⟨a, rfl⟩ abreast.paired.not_halted
  | step _ ih =>
      obtain met | ⟨q, grows, abreast⟩ := abreast.step stop
      · exact abreast.comes met
      · exact (ih abreast same).before grows

theorem come_of_second {a : Answer} {j : Interpreter} (reaches : Reaches n ⟨.halted a, j⟩)
    (stop : base.IsStop) (abreast : Abreast p base base' first home m n) :
    Come p base base' m n := by
  generalize same : (⟨.halted a, j⟩ : Machine) = halted at reaches
  induction reaches generalizing p m with
  | refl =>
      subst same
      exact absurd ⟨a, rfl⟩ abreast.paired.not_halted_second
  | step _ ih =>
      obtain met | ⟨q, grows, abreast⟩ := abreast.step stop
      · exact abreast.comes met
      · exact (ih abreast same).before grows

end Machine

end Jess
