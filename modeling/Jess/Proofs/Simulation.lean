import Jess.Proofs.MachineLikeness

/-!
# Machines that behave alike come to answers that are alike

Every function of the machine takes states that are alike to states that are
alike. Where the second machine takes more than one step, the step lemma says
that it takes at least one, so the second one halts exactly when the first one
does.
-/

namespace Jess

variable {free : Freedom} {base : List String} {c : Chart}

section Values

variable {v w v' w' : Value}

theorem Value.Like.isTruthy (like : Value.Like free c v w) : v.isTruthy = w.isTruthy := by
  cases like <;> rfl

theorem Value.Like.type (like : Value.Like free c v w) : v.type = w.type := by
  cases like <;> rfl

theorem Value.Like.text (like : Value.Like free c v w) : v.text = w.text := by
  cases like with
  | function identity like closure =>
      simp only [Value.text, Callable.text, Callable.name, like.name.1]
  | _ => rfl

theorem Value.Like.glimpse (like : Value.Like free c v w) : v.glimpse = w.glimpse := by
  have texts := like.text
  cases like with
  | function identity like closure =>
      simp only [Value.text] at texts
      simp only [Value.glimpse, texts, Callable.name, Callable.arity, like.name.1,
        like.params.length_eq]
  | _ => rfl

theorem Value.Like.equals (first : Value.Like free c v w) (second : Value.Like free c v' w') :
    v.equals v' = w.equals w' := by
  cases first <;> cases second <;> rfl

inductive ResultsLike (free : Freedom) (c : Chart) :
    Except Fault.Cause Value → Except Fault.Cause Value → Prop
  | ok {v w : Value} (values : Value.Like free c v w) : ResultsLike free c (.ok v) (.ok w)
  | error (cause : Fault.Cause) : ResultsLike free c (.error cause) (.error cause)

theorem onNumbers_like (op : BinaryOp) {f : Float → Float → Value}
    (plain : ∀ x y, Value.Like free c (f x y) (f x y)) (first : Value.Like free c v w)
    (second : Value.Like free c v' w') :
    ResultsLike free c (Value.onNumbers op f v v') (Value.onNumbers op f w w') := by
  cases first with
  | number x =>
      cases second with
      | number y => exact .ok (plain x y)
      | _ => exact .error _
  | _ => exact .error _

theorem plus_like (first : Value.Like free c v w) (second : Value.Like free c v' w') :
    ResultsLike free c (v.plus v') (w.plus w') := by
  have texts := second.text
  have types := second.type
  cases first with
  | number x =>
      cases second with
      | number y => exact .ok (.number _)
      | _ => exact .error _
  | string s =>
      simp only [Value.plus, texts]
      exact .ok (.string _)
  | _ =>
      simp only [Value.plus, types]
      exact .error _

theorem BinaryOp.apply_like (op : BinaryOp) (first : Value.Like free c v w)
    (second : Value.Like free c v' w') :
    ResultsLike free c (op.apply v v') (op.apply w w') := by
  cases op with
  | add => exact plus_like first second
  | sub => exact onNumbers_like _ (fun _ _ => .number _) first second
  | mul => exact onNumbers_like _ (fun _ _ => .number _) first second
  | div => exact onNumbers_like _ (fun _ _ => .number _) first second
  | lt => exact onNumbers_like _ (fun _ _ => .boolean _) first second
  | ltEq => exact onNumbers_like _ (fun _ _ => .boolean _) first second
  | gt => exact onNumbers_like _ (fun _ _ => .boolean _) first second
  | gtEq => exact onNumbers_like _ (fun _ _ => .boolean _) first second
  | eq =>
      simp only [BinaryOp.apply, first.equals second]
      exact .ok (.boolean _)
  | notEq =>
      simp only [BinaryOp.apply, first.equals second]
      exact .ok (.boolean _)

theorem UnaryOp.apply_like (op : UnaryOp) (operand : Value.Like free c v w) :
    ResultsLike free c (op.apply v) (op.apply w) := by
  cases op with
  | negate =>
      cases operand with
      | number x => exact .ok (.number _)
      | _ => exact .error _
  | not =>
      simp only [UnaryOp.apply, operand.isTruthy]
      exact .ok (.boolean _)

theorem LogicalOp.decidedBy_like (op : LogicalOp) (left : Value.Like free c v w) :
    op.decidedBy v = op.decidedBy w := by
  cases op <;> simp only [LogicalOp.decidedBy, left.isTruthy]

theorem Value.Like.ofLiteral (value : Literal) :
    Value.Like free c (.ofLiteral value) (.ofLiteral value) := by
  cases value with
  | number x => exact .number x
  | string s => exact .string s
  | boolean b => exact .boolean b
  | nil => exact .nil

end Values

section Interpreters

variable {i j : Interpreter}

theorem Interpreter.Like.room (like : Interpreter.Like free c base i j) {s : Stmt}
    (plain : free.Branch s) : s.declares = true → c.own j.env = true := by
  intro declares
  by_cases blocks : free = .blocks
  · rw [plain blocks] at declares
    cases declares
  · exact (like.store.fixed blocks).2.2 _

theorem Interpreter.Like.printAll (like : Interpreter.Like free c base i j) (lines : List String) :
    Interpreter.Like free c base (i.printAll lines) (j.printAll lines) :=
  { like with printed := by simp [Interpreter.printAll, like.printed] }

theorem Interpreter.Like.define (like : Interpreter.Like free c base i j) (own : c.own j.env = true)
    (name : String) {v w : Value} (values : Value.Like free c v w) :
    Interpreter.Like free c base (i.define name v) (j.define name w) :=
  { like with store := like.store.insert like.env own name values }

theorem Interpreter.Like.binds (like : Interpreter.Like free c base i j)
    (own : c.own j.env = true) (name : String) : i.binds name = j.binds name :=
  like.store.binds name like.env own

theorem Interpreter.Like.fresh (like : Interpreter.Like free c base i j) :
    Interpreter.Like free c base { i with supply := i.supply + 1 }
      { j with supply := j.supply + 1 } :=
  { like with supply := by simp [like.supply] }

theorem Interpreter.Like.moveTo (like : Interpreter.Like free c base i j) {home home' : Nat}
    (seats : c.Seats free home home') :
    Interpreter.Like free c base (i.moveTo home) (j.moveTo home') :=
  { like with env := seats }

theorem Interpreter.Like.endCall (like : Interpreter.Like free c base i j) {home home' : Nat}
    (seats : c.Seats free home home') :
    Interpreter.Like free c base (i.endCall home) (j.endCall home') :=
  { like with
    env := seats
    depth := by simp [Interpreter.endCall, like.depth] }

theorem Interpreter.Like.enter (like : Interpreter.Like free c base i j) {home home' : Nat}
    (seats : c.Seats free home home') :
    Interpreter.Like free (c.grow i.store.size) base (i.enter home) (j.enter home') where
  store := like.store.openScope seats
  env := by
    have size := like.store.size
    constructor
    · simp [Interpreter.enter, Chart.grow, size]
    · intro _
      simp [Interpreter.enter, Chart.grow, size]
  depth := like.depth
  limit := like.limit
  supply := like.supply
  printed := like.printed

theorem Interpreter.Like.own_enter (like : Interpreter.Like free c base i j) (home : Nat) :
    (c.grow i.store.size).own (j.enter home).env = true := by
  simp [Interpreter.enter, Chart.grow, like.store.size]

theorem Interpreter.Like.pad (like : Interpreter.Like free c base i j) (blocks : free = .blocks) :
    Interpreter.Like free (c.pad j.env) base i (j.enter j.env) where
  store := like.store.pad blocks (like.env.inside blocks)
  env := by
    have size := like.store.size
    have seat := like.env.seat
    constructor
    · simp [Interpreter.enter, Chart.pad, size, seat]
    · intro _
      simp [Interpreter.enter, Chart.pad, size]
  depth := like.depth
  limit := like.limit
  supply := like.supply
  printed := like.printed

theorem Interpreter.Like.bindParams {pairs others : List (Token × Value)} :
    ∀ {i j : Interpreter}, Interpreter.Like free c base i j → c.own j.env = true →
      List.Forall₂ (fun b d => free.Names b.1 d.1 ∧ Value.Like free c b.2 d.2) pairs others →
      Interpreter.Like free c base (i.bindParams pairs).1 (j.bindParams others).1 ∧
        Option.Rel free.Names (i.bindParams pairs).2 (j.bindParams others).2 := by
  intro i j like own alike
  induction alike generalizing i j with
  | nil => exact ⟨like, .none⟩
  | @cons b d _ _ first _ ih =>
      obtain ⟨param, arg⟩ := b
      obtain ⟨param', arg'⟩ := d
      obtain ⟨names, values⟩ := first
      simp only at names values
      simp only [Interpreter.bindParams, names.1, like.binds own]
      split
      · exact ⟨like, .some names⟩
      · exact ih (like.define own _ values) own

theorem Interpreter.env_bindParams (pairs : List (Token × Value)) (i : Interpreter) :
    (i.bindParams pairs).1.env = i.env := by
  induction pairs generalizing i with
  | nil => rfl
  | cons b rest ih =>
      simp only [Interpreter.bindParams]
      split
      · rfl
      · rw [ih]
        rfl

end Interpreters

theorem zip_like {ts us : List Token} {vs ws : List Value}
    (names : List.Forall₂ free.Names ts us) (values : List.Forall₂ (Value.Like free c) vs ws) :
    List.Forall₂ (fun b d => free.Names b.1 d.1 ∧ Value.Like free c b.2 d.2) (ts.zip vs)
      (us.zip ws) := by
  induction names generalizing vs ws with
  | nil => exact .nil
  | cons first _ ih =>
      cases values with
      | nil => exact .nil
      | cons value later => exact .cons ⟨first, value⟩ (ih later)

theorem getD_like {vs ws : List Value} (values : List.Forall₂ (Value.Like free c) vs ws)
    (index : Nat) : Value.Like free c (vs.getD index .nil) (ws.getD index .nil) := by
  induction values generalizing index with
  | nil => exact .nil
  | cons first _ ih =>
      cases index with
      | zero => exact first
      | succ index => exact ih index

theorem glimpses_like {vs ws : List Value} (values : List.Forall₂ (Value.Like free c) vs ws) :
    vs.map Value.glimpse = ws.map Value.glimpse := by
  induction values with
  | nil => rfl
  | cons first _ ih => rw [List.map_cons, List.map_cons, first.glimpse, ih]

theorem reverse_like {vs ws : List Value} (values : List.Forall₂ (Value.Like free c) vs ws) :
    List.Forall₂ (Value.Like free c) vs.reverse ws.reverse :=
  List.rel_reverse values

namespace Machine

variable {i j : Interpreter} {k l : ValueCont}

section Values

variable (like : Interpreter.Like free c base i j)
  (waiting : Waiting.Like free c i.env j.env (.value k) (.value l))

include like waiting

theorem raiseAt_like (cause : Fault.Cause) (line line' : Nat) :
    Machine.Like free base (raiseAt cause line k i) (raiseAt cause line' l j) :=
  ⟨c, like, .raise rfl waiting⟩

theorem deliverOr_like {x y : Except Fault.Cause Value} (results : ResultsLike free c x y)
    (t u : Token) : Machine.Like free base (deliverOr x t k i) (deliverOr y u l j) := by
  cases results with
  | ok values => exact ⟨c, like, .deliver values waiting⟩
  | error cause => exact raiseAt_like like waiting cause t.line u.line

theorem callFunction_like {f g : Function} (functions : f.Like free g) {closure closure' : Nat}
    (seats : c.Seats free closure closure') {vs ws : List Value}
    (args : List.Forall₂ (Value.Like free c) vs ws) :
    Machine.Like free base (callFunction f closure vs k i) (callFunction g closure' ws l j) := by
  have entered := like.enter seats
  have grows := like.store.grow_extends
  have own := like.own_enter closure'
  have home := like.env.extend grows
  have later := waiting.extend grows like.env
  have pairs : List.Forall₂ (fun b d => free.Names b.1 d.1 ∧
      Value.Like free (c.grow i.store.size) b.2 d.2) (f.params.zip vs) (g.params.zip ws) :=
    zip_like functions.params (values_extend args grows)
  have bound := entered.bindParams own pairs
  have envs := Interpreter.env_bindParams (g.params.zip ws) (j.enter closure')
  simp only [callFunction]
  revert bound envs
  generalize (i.enter closure).bindParams (f.params.zip vs) = x
  generalize (j.enter closure').bindParams (g.params.zip ws) = y
  obtain ⟨i', clash⟩ := x
  obtain ⟨j', clash'⟩ := y
  rintro ⟨both, clashes⟩ envs
  simp only at both clashes envs ⊢
  cases clashes with
  | none =>
      refine ⟨c.grow i.store.size, { both with depth := by simp [both.depth] }, ?_⟩
      refine .finish .normal (.sequence ?_ functions.body (.leaveCall home later))
      simp only [envs]
      exact own
  | some names =>
      simp only [names.1]
      exact raiseAt_like (both.moveTo home) later _ _ _

theorem callNative_like (n : Native) {vs ws : List Value}
    (args : List.Forall₂ (Value.Like free c) vs ws) :
    Machine.Like free base (callNative n vs k i) (callNative n ws l j) := by
  simp only [callNative, glimpses_like args]
  refine ⟨c, like.printAll _, ?_⟩
  cases (n.action (ws.map Value.glimpse)).answer with
  | data l => exact .deliver (.ofLiteral l) waiting
  | argument index => exact .deliver (getD_like args index) waiting
  | fault f own => exact .raise rfl waiting

theorem call_like {v w : Value} (callee : Value.Like free c v w) {vs ws : List Value}
    (args : List.Forall₂ (Value.Like free c) vs ws) (t u : Token) :
    Machine.Like free base (call v vs t k i) (call w ws u l j) := by
  have count := args.length_eq
  cases callee with
  | native identity n =>
      simp only [call, count, like.limit, like.depth]
      split
      · exact raiseAt_like like waiting _ _ _
      split
      · exact raiseAt_like like waiting _ _ _
      · exact callNative_like like waiting n args
  | function identity functions closure =>
      have arity := functions.params.length_eq
      simp only [call, Callable.arity, arity, count, like.limit, like.depth]
      split
      · exact raiseAt_like like waiting _ _ _
      split
      · exact raiseAt_like like waiting _ _ _
      · exact callFunction_like like waiting functions closure args
  | _ => exact raiseAt_like like waiting _ _ _

theorem callNext_like {v w : Value} (callee : Value.Like free c v w) {vs ws : List Value}
    (done : List.Forall₂ (Value.Like free c) vs ws) {rest others : List Expr}
    (given : Fragment.Like free (.exprs rest) (.exprs others)) (t u : Token) :
    Machine.Like free base (callNext v vs rest t k i) (callNext w ws others u l j) := by
  cases given with
  | noExprs => exact call_like like waiting callee (reverse_like done) t u
  | moreExprs first later => exact ⟨c, like, .evaluate first (.argument callee done later waiting)⟩

end Values

theorem declare_like {k l : StmtCont} (like : Interpreter.Like free c base i j)
    (waiting : Waiting.Like free c i.env j.env (.stmt k) (.stmt l)) (own : c.own j.env = true)
    {t u : Token} (names : free.Names t u) {v w : Value} (values : Value.Like free c v w) :
    Machine.Like free base (declare t v k i) (declare u w l j) := by
  simp only [declare, names.1, like.binds own]
  split
  · exact ⟨c, like, .abandon rfl waiting⟩
  · exact ⟨c, like.define own _ values, .finish .normal waiting⟩

theorem deliver_like (like : Interpreter.Like free c base i j) {v w : Value}
    (values : Value.Like free c v w)
    (waiting : Waiting.Like free c i.env j.env (.value k) (.value l)) :
    Machine.Like free base (deliver v k i) (deliver w l j) := by
  cases waiting with
  | stop => exact ⟨c, like, .halted (.value values)⟩
  | discard later => exact ⟨c, like, .finish .normal later⟩
  | print later =>
      simp only [deliver, values.text]
      exact ⟨c, like.printAll [_], .finish .normal later⟩
  | giveBack later => exact ⟨c, like, .finish (.returned values) later⟩
  | declare names own later => exact declare_like like later own names values
  | branch first plain later =>
      simp only [deliver, values.isTruthy]
      split
      · exact ⟨c, like, .execute first (like.room plain) later⟩
      · exact ⟨c, like, .finish .normal later⟩
  | branches first plain second plain' later =>
      simp only [deliver, values.isTruthy]
      split
      · exact ⟨c, like, .execute first (like.room plain) later⟩
      · exact ⟨c, like, .execute second (like.room plain') later⟩
  | test condition body plain later =>
      simp only [deliver, values.isTruthy]
      split
      · exact ⟨c, like, .execute body (like.room plain) (.again condition body plain later)⟩
      · exact ⟨c, like, .finish .normal later⟩
  | unary op later => exact deliverOr_like like later (op.apply_like values) _ _
  | left op right later => exact ⟨c, like, .evaluate right (.right op values later)⟩
  | right op left later => exact deliverOr_like like later (op.apply_like left values) _ _
  | decide op right later =>
      simp only [deliver, op.decidedBy_like values]
      split
      · exact ⟨c, like, .deliver values later⟩
      · exact ⟨c, like, .evaluate right later⟩
  | @assign _ _ t u k l names later =>
      have homes := like.store.resolve u.lexeme j.env i.env like.env
      simp only [deliver, names.1]
      revert homes
      generalize i.store.resolve i.env u.lexeme = x
      generalize j.store.resolve j.env u.lexeme = y
      intro homes
      cases homes with
      | none => exact raiseAt_like like later _ _ _
      | some own inside =>
          exact ⟨c, { like with store := like.store.update own inside _ values },
            .deliver values later⟩
  | callee given later => exact callNext_like like later values .nil given _ _
  | argument called done given later =>
      exact callNext_like like later called (.cons values done) given _ _

theorem raise_like (like : Interpreter.Like free c base i j) {f g : Fault}
    (cause : f.cause = g.cause)
    (waiting : Waiting.Like free c i.env j.env (.value k) (.value l)) :
    Machine.Like free base (raise f k i) (raise g l j) := by
  cases waiting with
  | stop => exact ⟨c, like, .halted (.failed cause)⟩
  | discard later => exact ⟨c, like, .abandon cause later⟩
  | print later => exact ⟨c, like, .abandon cause later⟩
  | giveBack later => exact ⟨c, like, .abandon cause later⟩
  | declare _ _ later => exact ⟨c, like, .abandon cause later⟩
  | branch _ _ later => exact ⟨c, like, .abandon cause later⟩
  | branches _ _ _ _ later => exact ⟨c, like, .abandon cause later⟩
  | test _ _ _ later => exact ⟨c, like, .abandon cause later⟩
  | unary _ later => exact ⟨c, like, .raise cause later⟩
  | left _ _ later => exact ⟨c, like, .raise cause later⟩
  | right _ _ later => exact ⟨c, like, .raise cause later⟩
  | decide _ _ later => exact ⟨c, like, .raise cause later⟩
  | assign _ later => exact ⟨c, like, .raise cause later⟩
  | callee _ later => exact ⟨c, like, .raise cause later⟩
  | argument _ _ _ later => exact ⟨c, like, .raise cause later⟩

theorem computes_passes {x : Float} {e : Expr} (computes : Computes x e) (l : ValueCont)
    (j : Interpreter) : Passes ⟨.evaluate e l, j⟩ ⟨.deliver (.number x) l, j⟩ := by
  induction computes generalizing l with
  | number x => exact .refl
  | @negation x operator e _ ih =>
      have operand : Reaches ⟨.evaluate e (.unary .negate operator l), j⟩ _ :=
        (ih (.unary .negate operator l)).reaches
      exact operand.trans (.step .refl)
  | @quotient x y operator a b _ _ ihFirst ihSecond =>
      have first := (ihFirst (.left .div operator b l)).reaches
      have second := (ihSecond (.right .div operator (.number x) l)).reaches
      exact first.trans (.step (second.trans (.step .refl)))

/-- An expression starts in one step, and one in more parentheses in some more. -/
theorem evaluate_like (like : Interpreter.Like free c base i j) {a b : Expr}
    (trees : Expr.Like free a b)
    (waiting : Waiting.Like free c i.env j.env (.value k) (.value l)) :
    ∃ n, Passes ⟨.evaluate b l, j⟩ n ∧ Machine.Like free base (evaluate a k i) n := by
  change Fragment.Like free (.expr a) (.expr b) at trees
  generalize first : Fragment.expr a = x at trees
  generalize second : Fragment.expr b = y at trees
  induction trees generalizing a b with
  | literal value =>
      cases first
      cases second
      exact ⟨_, .refl, c, like, .deliver (.ofLiteral value) waiting⟩
  | grouping inner =>
      cases first
      cases second
      exact ⟨_, .refl, c, like, .evaluate inner waiting⟩
  | unary op _ operand =>
      cases first
      cases second
      exact ⟨_, .refl, c, like, .evaluate operand (.unary op waiting)⟩
  | binary op _ left right =>
      cases first
      cases second
      exact ⟨_, .refl, c, like, .evaluate left (.left op right waiting)⟩
  | logical op _ left right =>
      cases first
      cases second
      exact ⟨_, .refl, c, like, .evaluate left (.decide op right waiting)⟩
  | @named t u names =>
      cases first
      cases second
      refine ⟨_, .refl, ?_⟩
      have found := like.store.get u.lexeme like.env
      simp only [step, evaluate, names.1]
      revert found
      generalize i.store.get? i.env u.lexeme = x
      generalize j.store.get? j.env u.lexeme = y
      intro found
      cases found with
      | none => exact raiseAt_like like waiting _ _ _
      | some values => exact ⟨c, like, .deliver values waiting⟩
  | assign names value =>
      cases first
      cases second
      exact ⟨_, .refl, c, like, .evaluate value (.assign names waiting)⟩
  | call _ callee given =>
      cases first
      cases second
      exact ⟨_, .refl, c, like, .evaluate callee (.callee given waiting)⟩
  | regrouped _ _ ih =>
      cases first
      cases second
      obtain ⟨n, passes, alike⟩ := ih rfl rfl
      exact ⟨n, passes.reaches, alike⟩
  | computed _ computes =>
      cases first
      cases second
      exact ⟨_, computes_passes computes l j, c, like, .deliver (.number _) waiting⟩
  | _ => cases first

theorem execute_like {k l : StmtCont} (like : Interpreter.Like free c base i j) {s r : Stmt}
    (trees : Stmt.Like free s r) (room : s.declares = true → c.own j.env = true)
    (waiting : Waiting.Like free c i.env j.env (.stmt k) (.stmt l)) :
    ∃ n, Passes ⟨.execute r l, j⟩ n ∧ Machine.Like free base (execute s k i) n := by
  change Fragment.Like free (.stmt s) (.stmt r) at trees
  generalize first : Fragment.stmt s = x at trees
  generalize second : Fragment.stmt r = y at trees
  induction trees generalizing s r c j l with
  | expression value =>
      cases first
      cases second
      exact ⟨_, .refl, c, like, .evaluate value (.discard waiting)⟩
  | print value =>
      cases first
      cases second
      exact ⟨_, .refl, c, like, .evaluate value (.print waiting)⟩
  | declare names =>
      cases first
      cases second
      exact ⟨_, .refl, declare_like like waiting (room rfl) names .nil⟩
  | declareValue names value =>
      cases first
      cases second
      exact ⟨_, .refl, c, like, .evaluate value (.declare names (room rfl) waiting)⟩
  | block inner =>
      cases first
      cases second
      have grows := like.store.grow_extends
      have later := waiting.extend grows like.env
      exact ⟨_, .refl, c.grow i.store.size, like.enter like.env,
        .finish .normal (.sequence (like.own_enter _) inner
          (.leaveBlock (like.env.extend grows) later))⟩
  | ifThen condition plain branch =>
      cases first
      cases second
      exact ⟨_, .refl, c, like, .evaluate condition (.branch branch plain waiting)⟩
  | ifElse condition plain branch plain' branch' =>
      cases first
      cases second
      exact ⟨_, .refl, c, like,
        .evaluate condition (.branches branch plain branch' plain' waiting)⟩
  | loop condition plain body =>
      cases first
      cases second
      exact ⟨_, .refl, c, like, .evaluate condition (.test condition body plain waiting)⟩
  | function names bound inner =>
      cases first
      cases second
      have fresh := like.fresh
      refine ⟨_, .refl, declare_like fresh waiting (room rfl) names ?_⟩
      rw [like.supply]
      exact .function _ ⟨names, bound, inner⟩ like.env
  | giveBack _ =>
      cases first
      cases second
      exact ⟨_, .refl, c, like, .finish (.returned .nil) waiting⟩
  | giveBackValue _ value =>
      cases first
      cases second
      exact ⟨_, .refl, c, like, .evaluate value (.giveBack waiting)⟩
  | @wrapped s r allowed plain inner ih =>
      cases first
      cases second
      have grows := Chart.pad_extends allowed (c := c) j.env
      have later := waiting.extend grows like.env
      have absent : s.declares = true → (c.pad j.env).own (j.enter j.env).env = true := by
        intro declares
        rw [plain] at declares
        cases declares
      obtain ⟨n, passes, alike⟩ := ih (like.pad allowed) absent
        (.padded (like.env.extend grows) later) rfl rfl
      -- The block is entered and its only statement is taken up.
      have enters : Reaches (execute (.block [r]) l j)
          ⟨.execute r (.sequence [] (.leaveBlock j.env l)), j.enter j.env⟩ := .step .refl
      exact ⟨n, enters.trans passes.reaches, alike⟩
  | _ => cases first

theorem finish_like {k l : StmtCont} (like : Interpreter.Like free c base i j) {x y : Completion}
    (ends : Completion.Like free c x y)
    (waiting : Waiting.Like free c i.env j.env (.stmt k) (.stmt l)) :
    ∃ n, Passes ⟨.finish y l, j⟩ n ∧ Machine.Like free base (finish x k i) n := by
  generalize home : j.env = d at waiting
  generalize first : Waiting.stmt k = p at waiting
  generalize second : Waiting.stmt l = q at waiting
  generalize current : i.env = e at waiting
  induction waiting generalizing j l with
  | done =>
      cases first
      cases second
      exact ⟨_, .refl, c, like, .halted (.completed ends)⟩
  | program own left =>
      cases first
      cases second
      subst home
      subst current
      cases left with
      | noStmts => exact ⟨_, .refl, c, like, .halted (.completed .normal)⟩
      | moreStmts next left =>
          exact ⟨_, .refl, c, like, .execute next (fun _ => own) (.program own left)⟩
  | sequence own left later _ =>
      cases first
      cases second
      subst home
      subst current
      cases ends with
      | normal =>
          cases left with
          | noStmts => exact ⟨_, .refl, c, like, .finish .normal later⟩
          | moreStmts next left =>
              exact ⟨_, .refl, c, like, .execute next (fun _ => own) (.sequence own left later)⟩
      | returned values =>
          exact ⟨_, .refl, c, like, .finish (.returned values) later⟩
  | again condition body plain later _ =>
      cases first
      cases second
      subst home
      subst current
      cases ends with
      | normal => exact ⟨_, .refl, c, like, .evaluate condition (.test condition body plain later)⟩
      | returned values => exact ⟨_, .refl, c, like, .finish (.returned values) later⟩
  | leaveBlock seats later _ =>
      cases first
      cases second
      exact ⟨_, .refl, c, like.moveTo seats, .finish ends later⟩
  | leaveCall seats later _ =>
      cases first
      cases second
      cases ends with
      | normal => exact ⟨_, .refl, c, like.endCall seats, .deliver .nil later⟩
      | returned values => exact ⟨_, .refl, c, like.endCall seats, .deliver values later⟩
  | @padded e d home' k l seats later ih =>
      cases first
      cases second
      subst current
      -- The second run leaves an added block, while the first one stands where it is.
      have moved : Interpreter.Like free c base i (j.moveTo home') := { like with env := seats }
      obtain ⟨n, passes, alike⟩ := ih moved rfl rfl rfl rfl
      have leaves : Reaches (finish y (.sequence [] (.leaveBlock home' l)) j)
          ⟨.finish y l, j.moveTo home'⟩ := by
        cases y with
        | normal => exact .step .refl
        | returned v => exact .step .refl
      exact ⟨n, leaves.trans passes.reaches, alike⟩
  | _ => cases first

theorem abandon_like {k l : StmtCont} (like : Interpreter.Like free c base i j) {f g : Fault}
    (cause : f.cause = g.cause)
    (waiting : Waiting.Like free c i.env j.env (.stmt k) (.stmt l)) :
    ∃ n, Passes ⟨.abandon g l, j⟩ n ∧ Machine.Like free base (abandon f k i) n := by
  generalize home : j.env = d at waiting
  generalize first : Waiting.stmt k = p at waiting
  generalize second : Waiting.stmt l = q at waiting
  generalize current : i.env = e at waiting
  induction waiting generalizing j l with
  | done =>
      cases first
      cases second
      exact ⟨_, .refl, c, like, .halted (.failed cause)⟩
  | program own left =>
      cases first
      cases second
      exact ⟨_, .refl, c, like, .halted (.failed cause)⟩
  | sequence own left later _ =>
      cases first
      cases second
      subst home
      subst current
      exact ⟨_, .refl, c, like, .abandon cause later⟩
  | again condition body plain later _ =>
      cases first
      cases second
      subst home
      subst current
      exact ⟨_, .refl, c, like, .abandon cause later⟩
  | leaveBlock seats later _ =>
      cases first
      cases second
      exact ⟨_, .refl, c, like.moveTo seats, .abandon cause later⟩
  | leaveCall seats later _ =>
      cases first
      cases second
      exact ⟨_, .refl, c, like.endCall seats, .raise cause later⟩
  | @padded e d home' k l seats later ih =>
      cases first
      cases second
      subst current
      have moved : Interpreter.Like free c base i (j.moveTo home') := { like with env := seats }
      obtain ⟨n, passes, alike⟩ := ih moved rfl rfl rfl rfl
      have leaves : Reaches (abandon g (.sequence [] (.leaveBlock home' l)) j)
          ⟨.abandon g l, j.moveTo home'⟩ := .step .refl
      exact ⟨n, leaves.trans passes.reaches, alike⟩
  | _ => cases first

/-- One step of the first machine is at least one step of the second. -/
theorem step_like {m n : Machine} (like : Machine.Like free base m n) (running : ¬m.IsHalted) :
    ∃ n', Passes n n' ∧ Machine.Like free base m.step n' := by
  obtain ⟨control, i⟩ := m
  obtain ⟨control', j⟩ := n
  obtain ⟨c, like, controls⟩ := like
  simp only at like controls
  cases controls with
  | evaluate trees waiting => exact evaluate_like like trees waiting
  | execute trees room waiting => exact execute_like like trees room waiting
  | deliver values waiting => exact ⟨_, .refl, deliver_like like values waiting⟩
  | finish ends waiting => exact finish_like like ends waiting
  | raise cause waiting => exact ⟨_, .refl, raise_like like cause waiting⟩
  | abandon cause waiting => exact abandon_like like cause waiting
  | halted answers => exact absurd ⟨_, rfl⟩ running

theorem reaches_like {m n : Machine} {a : Answer} {i : Interpreter}
    (like : Machine.Like free base m n) (reaches : Reaches m ⟨.halted a, i⟩) :
    ∃ c b j, Reaches n ⟨.halted b, j⟩ ∧ Answer.Like free c a b ∧
      Interpreter.Like free c base i j := by
  generalize same : (⟨.halted a, i⟩ : Machine) = stop at reaches
  induction reaches generalizing n with
  | refl =>
      subst same
      obtain ⟨control, j⟩ := n
      obtain ⟨c, alike, controls⟩ := like
      cases controls with
      | halted answers => exact ⟨c, _, j, .refl, answers, alike⟩
  | @step m stop later ih =>
      subst same
      by_cases halted : m.IsHalted
      · obtain ⟨b, halted⟩ := halted
        obtain ⟨control, i'⟩ := m
        cases halted
        exact ih like rfl
      · obtain ⟨n', passes, alike⟩ := step_like like halted
        obtain ⟨c, b, j, rest, answers, both⟩ := ih alike rfl
        exact ⟨c, b, j, passes.reaches.trans rest, answers, both⟩

theorem isHalted_like {m n : Machine} (like : Machine.Like free base m n) :
    m.IsHalted ↔ n.IsHalted := by
  obtain ⟨control, i⟩ := m
  obtain ⟨control', j⟩ := n
  obtain ⟨c, _, controls⟩ := like
  simp only at controls
  constructor
  · rintro ⟨a, rfl⟩
    cases controls with
    | halted _ => exact ⟨_, rfl⟩
  · rintro ⟨b, rfl⟩
    cases controls with
    | halted _ => exact ⟨_, rfl⟩

/-- The second machine halts with an answer that the first one comes to as well. -/
theorem like_reaches {m n : Machine} {b : Answer} {j : Interpreter}
    (like : Machine.Like free base m n) (reaches : Reaches n ⟨.halted b, j⟩) :
    ∃ c a i, Reaches m ⟨.halted a, i⟩ ∧ Answer.Like free c a b ∧
      Interpreter.Like free c base i j := by
  obtain ⟨steps, runs⟩ := run_of_reaches reaches
  have ran := runs steps (Nat.le_refl _)
  clear runs reaches
  induction steps using Nat.strongRecOn generalizing m n with
  | ind steps ih =>
      by_cases halted : m.IsHalted
      · obtain ⟨a, halted⟩ := halted
        obtain ⟨control, i⟩ := m
        cases halted
        have stays := reaches_of_run ran
        obtain ⟨c, b', j', reaches, answers, both⟩ := reaches_like like .refl
        obtain ⟨rfl, rfl⟩ := stays.unique reaches
        exact ⟨c, a, i, .refl, answers, both⟩
      · obtain ⟨n', passes, alike⟩ := step_like like halted
        have running : ¬n.IsHalted := fun h => halted ((isHalted_like like).mpr h)
        obtain ⟨fewer, less, ran⟩ := run_passes running passes ran
        obtain ⟨c, a, i, rest, answers, both⟩ := ih fewer less alike ran
        exact ⟨c, a, i, .step rest, answers, both⟩

end Machine

end Jess
