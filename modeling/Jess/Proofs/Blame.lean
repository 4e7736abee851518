import Jess.Proofs.Activations
import Jess.Proofs.Records

/-!
# What a fault is blamed on

A fault is raised at a node of a tree and has the line of a token of that very
node. What waits for a value keeps such a token, and it was put there by the
node that it belongs to, so the machine that raises a fault can be traced back
to the node. From there on the fault is passed on as it is, through whatever
is around the node and through all calls, to the diagnostic of the run.
-/

namespace Jess

/-- The faults of an expression, with the line of the token that each one is blamed on. -/
inductive Expr.Blames : Expr → Fault → Prop
  | operand (op : UnaryOp) (operator : Token) (operand : Expr) :
      Blames (.unary op operator operand) ⟨.operandMustBeNumber, some operator.line⟩
  | operands (op : BinaryOp) (operator : Token) (left right : Expr) :
      Blames (.binary op operator left right) ⟨.operandsMustBeNumbers op, some operator.line⟩
  | plus (operator : Token) (left right : Expr) (first second : ValueType) :
      Blames (.binary .add operator left right)
        ⟨.invalidPlusOperands first second, some operator.line⟩
  | unbound (name : Token) :
      Blames (.variable name) ⟨.undefinedVariable name.lexeme, some name.line⟩
  | unassigned (name : Token) (value : Expr) :
      Blames (.assign name value) ⟨.undefinedVariable name.lexeme, some name.line⟩
  | notCallable (callee : Expr) (paren : Token) (args : List Expr) (type : ValueType) :
      Blames (.call callee paren args) ⟨.notCallable type, some paren.line⟩
  | mismatch (callee : Expr) (paren : Token) (args : List Expr) (expected got : Nat) :
      Blames (.call callee paren args) ⟨.arityMismatch expected got, some paren.line⟩
  | overflow (callee : Expr) (paren : Token) (args : List Expr) (limit : Nat) :
      Blames (.call callee paren args) ⟨.stackOverflow limit, some paren.line⟩

inductive Stmt.Blames : Stmt → Fault → Prop
  | declare (name : Token) (initializer : Option Expr) :
      Blames (.declare name initializer) ⟨.alreadyDefined name.lexeme, some name.line⟩
  | function (name : Token) (params : List Token) (body : List Stmt) :
      Blames (.function name params body) ⟨.alreadyDefined name.lexeme, some name.line⟩

/-- A function is to blame for a parameter that has the name of an earlier one. -/
inductive Function.Blames (f : Function) : Fault → Prop
  | repeated {front back : List Token} {clash : Token} (listed : f.params = front ++ clash :: back)
      (taken : ∃ param ∈ front, param.lexeme = clash.lexeme) :
      Blames f ⟨.alreadyDefined clash.lexeme, some clash.line⟩

/-- A function was declared by known statements. -/
def Function.IsDeclared (known : List Stmt → Prop) (f : Function) : Prop :=
  ∃ body, known body ∧ (Stmt.function f.name f.params f.body).Within body

def Value.IsDeclared (known : List Stmt → Prop) (v : Value) : Prop :=
  ∀ c, v.callable? = some c → ∃ f closure, c = .function f closure ∧ f.IsDeclared known

theorem Value.IsDeclared.mono {known more : List Stmt → Prop} (grows : ∀ body, known body → more body)
    {v : Value} (declared : v.IsDeclared known) : v.IsDeclared more := by
  intro c called
  obtain ⟨f, closure, same, body, tree, inside⟩ := declared c called
  exact ⟨f, closure, same, body, grows body tree, inside⟩

theorem Interpreter.bindParams_clash {i j : Interpreter} {params : List Token} {args : List Value}
    {clash : Token} (bound : i.bindParams (params.zip args) = (j, some clash)) :
    ∃ front back, params = front ++ clash :: back ∧
      (i.binds clash.lexeme = true ∨ ∃ param ∈ front, param.lexeme = clash.lexeme) := by
  induction params generalizing i args with
  | nil => cases bound
  | cons param rest ih =>
      cases args with
      | nil => cases bound
      | cons arg args =>
          simp only [List.zip_cons_cons, bindParams] at bound
          split at bound
          · rename_i taken
            cases bound
            exact ⟨[], rest, rfl, .inl taken⟩
          · obtain ⟨front, back, rfl, taken⟩ := ih bound
            refine ⟨param :: front, back, rfl, ?_⟩
            obtain taken | ⟨other, member, same⟩ := taken
            · obtain taken | ⟨_, _, same⟩ := (i.store.insert_binds ..).mp taken
              · exact .inl taken
              · exact .inr ⟨param, List.mem_cons_self .., same.symm⟩
            · exact .inr ⟨other, List.mem_cons_of_mem _ member, same⟩

namespace Machine

/-- The fault of the next step is blamed on a token of the node that raises it: the machine has
started this node and ends it with the fault, and the node is a part of known statements. -/
inductive Blames (start : Machine) (known : List Stmt → Prop) (m : Machine) (f : Fault) : Prop
  | expression {body : List Stmt} {e : Expr} {k : ValueCont} {i : Interpreter} (tree : known body)
      (inside : e.Within body) (reaches : Reaches start ⟨.evaluate e k, i⟩)
      (later : Reaches ⟨.evaluate e k, i⟩ m) (ends : m.step.control = .raise f k)
      (blames : e.Blames f) : Blames start known m f
  | statement {body : List Stmt} {s : Stmt} {k : StmtCont} {i : Interpreter} (tree : known body)
      (inside : s.Within body) (reaches : Reaches start ⟨.execute s k, i⟩)
      (later : Reaches ⟨.execute s k, i⟩ m) (ends : m.step.control = .abandon f k)
      (blames : s.Blames f) : Blames start known m f
  | parameter {body : List Stmt} {callee : Expr} {paren : Token} {args : List Expr} {k : ValueCont}
      {i : Interpreter} {identity closure : Nat} {values : List Value} {g : Function}
      (tree : known body) (inside : (Expr.call callee paren args).Within body)
      (reaches : Reaches start ⟨.evaluate (.call callee paren args) k, i⟩)
      (later : Reaches ⟨.evaluate (.call callee paren args) k, i⟩ m)
      (ends : m.step.control = .raise f k) (declared : g.IsDeclared known)
      (calls : m.Calls (.callable identity (.function g closure)) values) (blames : g.Blames f) :
      Blames start known m f

theorem Blames.line {start m : Machine} {known : List Stmt → Prop} {f : Fault}
    (blames : Blames start known m f) : ∃ line, f.line = some line := by
  cases blames with
  | expression _ _ _ _ _ blames => cases blames <;> exact ⟨_, rfl⟩
  | statement _ _ _ _ _ blames => cases blames <;> exact ⟨_, rfl⟩
  | parameter _ _ _ _ _ _ _ blames => cases blames; exact ⟨_, rfl⟩

def accountOfTrees (program : List Stmt) (known : List Stmt → Prop) (start m : Machine) :
    Account where
  program := program
  seen c := ∃ i, Reaches start ⟨c, i⟩ ∧ Reaches ⟨c, i⟩ m
  begun a := known a.function.body
  owns _ _ := True
  holds := Value.IsDeclared known

section Functions

variable {i : Interpreter} {k : ValueCont} {f : Fault}

theorem deliverOr_fault {result : Except Fault.Cause Value} {operator : Token}
    (raises : (deliverOr result operator k i).control.fault? = some f) :
    ∃ cause, result = .error cause ∧ f = ⟨cause, some operator.line⟩ ∧
      (deliverOr result operator k i).control = .raise f k := by
  cases result with
  | ok v => cases raises
  | error cause =>
      cases raises
      exact ⟨cause, rfl, rfl, rfl⟩

theorem unary_blames {op : UnaryOp} {v : Value} {cause : Fault.Cause}
    (failed : op.apply v = .error cause) (operator : Token) (operand : Expr) :
    (Expr.unary op operator operand).Blames ⟨cause, some operator.line⟩ := by
  unfold UnaryOp.apply at failed
  split at failed <;> cases failed
  exact .operand _ operator operand

theorem onNumbers_blames {op : BinaryOp} {compute : Float → Float → Value} {v w : Value}
    {cause : Fault.Cause} (failed : Value.onNumbers op compute v w = .error cause) (operator : Token)
    (left right : Expr) :
    (Expr.binary op operator left right).Blames ⟨cause, some operator.line⟩ := by
  unfold Value.onNumbers at failed
  split at failed <;> cases failed
  exact .operands op operator left right

theorem binary_blames {op : BinaryOp} {v w : Value} {cause : Fault.Cause}
    (failed : op.apply v w = .error cause) (operator : Token) (left right : Expr) :
    (Expr.binary op operator left right).Blames ⟨cause, some operator.line⟩ := by
  cases op with
  | add =>
      simp only [BinaryOp.apply, Value.plus] at failed
      split at failed <;> cases failed
      exact .plus operator left right _ _
  | eq => cases failed
  | notEq => cases failed
  | _ => exact onNumbers_blames failed operator left right

theorem call_blames {known : List Stmt → Prop} {callee : Value} (declared : callee.IsDeclared known)
    {values : List Value} {paren : Token}
    (raises : (call callee values paren k i).control.fault? = some f) :
    (call callee values paren k i).control = .raise f k ∧
      ((∀ e args, (Expr.call e paren args).Blames f) ∨
        ∃ identity g closure, callee = .callable identity (.function g closure) ∧
          g.IsDeclared known ∧ g.Blames f) := by
  cases callee with
  | callable identity c =>
      obtain ⟨g, closure, rfl, known⟩ := declared c rfl
      by_cases suits : (Callable.function g closure).arity = values.length
      · by_cases room : i.depth < i.limit
        · rw [call_allowed suits room] at raises ⊢
          simp only at raises ⊢
          cases bound : (i.enter closure).bindParams (g.params.zip values) with
          | mk j clash =>
              cases clash with
              | none =>
                  rw [callFunction_bound bound] at raises
                  cases raises
              | some clash =>
                  rw [callFunction_clash bound] at raises ⊢
                  cases raises
                  obtain ⟨front, back, listed, taken⟩ := Interpreter.bindParams_clash bound
                  have fresh := i.store.openScope_binds_fresh (some closure) clash.lexeme
                  have repeated := taken.resolve_left fun bound =>
                    Bool.false_ne_true (fresh.symm.trans bound)
                  exact ⟨rfl, .inr ⟨identity, g, closure, rfl, known, .repeated listed repeated⟩⟩
        · rw [call_full suits (Nat.not_lt.mp room)] at raises ⊢
          cases raises
          exact ⟨rfl, .inl fun e args => .overflow e paren args i.limit⟩
      · rw [call_mismatched suits] at raises ⊢
        cases raises
        exact ⟨rfl, .inl fun e args => .mismatch e paren args _ _⟩
  | _ =>
      cases raises
      exact ⟨rfl, .inl fun e args => .notCallable e paren args _⟩

theorem declare_fault {name : Token} {v : Value} {k : StmtCont}
    (raises : (declare name v k i).control.fault? = some f) :
    f = ⟨.alreadyDefined name.lexeme, some name.line⟩ ∧
      (declare name v k i).control = .abandon f k := by
  cases bound : i.binds name.lexeme with
  | true =>
      rw [declare_taken bound] at raises ⊢
      cases raises
      exact ⟨rfl, rfl⟩
  | false =>
      rw [declare_free bound] at raises
      cases raises

theorem finish_calm (c : Completion) (k : StmtCont) : (finish c k i).control.fault? = none := by
  unfold finish
  split <;> try rfl
  all_goals split <;> rfl

end Functions

section Runs

variable {program : List Stmt} {known : List Stmt → Prop} {start m : Machine}
  {r : Option Activation} {f : Fault}

/-- Known statements come with the bodies of the functions that they declare. -/
def IsClosed (known : List Stmt → Prop) : Prop :=
  ∀ body name params inner, known body → (Stmt.function name params inner).Within body → known inner

theorem Traced.tree (traced : m.Traced (accountOfTrees program known start m) r)
    (root : known program) : known ((accountOfTrees program known start m).body r) := by
  cases r with
  | none => exact root
  | some a => exact traced.region.1 a rfl

theorem deliver_blames {v : Value} {k : ValueCont} {i : Interpreter}
    (tree : known ((accountOfTrees program known start ⟨.deliver v k, i⟩).body r))
    (held : v.IsDeclared known)
    (later : Waiting.Traced (accountOfTrees program known start ⟨.deliver v k, i⟩) r (.value k))
    (raises : (deliver v k i).control.fault? = some f) : Blames start known ⟨.deliver v k, i⟩ f := by
  have blames {e : Expr} {l : ValueCont}
      (began : (accountOfTrees program known start ⟨.deliver v k, i⟩).Began r e l)
      (ends : (deliver v k i).control = .raise f l) (blamed : e.Blames f) :
      Blames start known ⟨.deliver v k, i⟩ f := by
    obtain ⟨⟨j, reaches, later⟩, inside⟩ := began
    exact .expression tree inside reaches later ends blamed
  have calls {callee : Expr} {paren : Token} {args : List Expr} {l : ValueCont} {function : Value}
      {values : List Value}
      (began : (accountOfTrees program known start ⟨.deliver v k, i⟩).Began r
        (.call callee paren args) l)
      (calls : Calls ⟨.deliver v k, i⟩ function values) (declared : function.IsDeclared known)
      (step : deliver v k i = call function values paren l i) :
      Blames start known ⟨.deliver v k, i⟩ f := by
    rw [step] at raises
    obtain ⟨ends, blamed | ⟨identity, g, closure, rfl, known, blamed⟩⟩ := call_blames declared raises
    · exact blames began ((congrArg Machine.control step).trans ends) (blamed callee args)
    · obtain ⟨⟨j, reaches, later⟩, inside⟩ := began
      exact .parameter tree inside reaches later ((congrArg Machine.control step).trans ends) known
        calls blamed
  cases later with
  | @declare _ name e k seen inside later =>
      obtain ⟨j, reaches, later⟩ := seen
      obtain ⟨rfl, ends⟩ := declare_fault raises
      exact .statement tree inside reaches later ends (.declare name (some e))
  | @branch _ s other k _ _ _ =>
      obtain next | ⟨t, _, next⟩ | next := branch_cases v s other k
      all_goals
        rw [next] at raises
        cases raises
  | @test _ condition body k _ _ =>
      obtain next | next := test_cases v condition body k
      all_goals
        rw [next] at raises
        cases raises
  | @unary _ op operator operand k began _ =>
      obtain ⟨cause, failed, rfl, ends⟩ := deliverOr_fault raises
      exact blames began ends (unary_blames failed operator operand)
  | @right _ op operator left right w k began _ _ =>
      obtain ⟨cause, failed, rfl, ends⟩ := deliverOr_fault raises
      exact blames began ends (binary_blames failed operator left right)
  | @decide _ op right k _ _ =>
      obtain next | next := decide_cases v op right k
      all_goals
        rw [next] at raises
        cases raises
  | @assign _ name value k began _ =>
      cases found : i.store.resolve i.env name.lexeme with
      | some home =>
          rw [assign_found found] at raises
          cases raises
      | none =>
          have ends := congrArg Machine.control (assign_unfound found v k)
          rw [ends] at raises
          cases raises
          exact blames began ends (.unassigned name value)
  | @callee _ callee paren args k began _ =>
      cases args with
      | nil => exact calls began (.bare v paren k i) held rfl
      | cons arg rest => cases raises
  | @argument _ callee paren args rest function done k began _ function_ _ _ =>
      cases rest with
      | nil => exact calls began (.given function v done paren k i) function_ rfl
      | cons arg rest => cases raises
  | _ => cases raises

theorem Traced.blames (traced : m.Traced (accountOfTrees program known start m) r)
    (reaches : Reaches start m) (root : known program) (raises : m.Raises f) :
    Blames start known m f := by
  have tree := traced.tree root
  obtain ⟨sound, raised⟩ := raises
  obtain ⟨control, i⟩ := m
  -- Names, declarations and delivered values are all that raises a fault.
  cases control with
  | evaluate e k =>
      cases traced.control with
      | evaluate inside _ =>
          cases e with
          | «variable» name =>
              cases found : i.store.get? i.env name.lexeme with
              | some v =>
                  have next := congrArg Machine.control (evaluate_found found k)
                  cases (congrArg Control.fault? next).symm.trans raised
              | none =>
                  have next := congrArg Machine.control (evaluate_unfound found k)
                  cases (congrArg Control.fault? next).symm.trans raised
                  exact .expression tree inside reaches .refl next (.unbound name)
          | _ => cases raised
  | execute s k =>
      cases traced.control with
      | execute inside _ =>
          cases s with
          | declare name initializer =>
              cases initializer with
              | none =>
                  obtain ⟨rfl, ends⟩ := declare_fault raised
                  exact .statement tree inside reaches .refl ends (.declare name none)
              | some e => cases raised
          | function name params body =>
              obtain ⟨rfl, ends⟩ := declare_fault raised
              exact .statement tree inside reaches .refl ends (.function name params body)
          | giveBack keyword value => cases value <;> cases raised
          | _ => cases raised
  | deliver v k =>
      cases traced.control with
      | deliver held later => exact deliver_blames tree held later raised
  | finish c k => cases (finish_calm c k).symm.trans raised
  | raise g k => cases sound
  | abandon g k => cases sound
  | halted a => cases sound.symm.trans raised

theorem Reaches.traced_to_trees (reaches : Reaches start m) (closed : IsClosed known)
    (root : known program) (begins : start.control.Traced (accountOfTrees program known start start) r)
    (declared : start.interpreter.store.Holds (Value.IsDeclared known)) :
    ∃ r, m.Traced (accountOfTrees program known start m) r := by
  refine reaches.traced (h := accountOfTrees program known start) ⟨begins, trivial, declared⟩ ?_ ?_
  · intro n r reached traced
    have tree := traced.tree root
    refine ⟨⟨n.interpreter, reached, .refl⟩, ?_, ?_, fun _ _ _ => trivial, ?_⟩
    · intro v plain c called
      rw [plain] at called
      cases called
    · intro name params body k runs c same
      cases same
      have control := traced.control
      rw [runs] at control
      cases control with
      | execute inside _ => exact ⟨_, _, rfl, _, tree, inside⟩
    · intro a begins
      obtain ⟨identity, args, calls⟩ := begins.calls
      obtain ⟨f, closure, same, body, tree, inside⟩ := traced.callee_held calls _ rfl
      cases same
      exact ⟨closed body _ _ _ tree inside, trivial⟩
  · intro n reached
    refine ⟨rfl, ?_, fun _ _ => id, fun _ _ => id, fun _ => id⟩
    rintro c ⟨i, first, later⟩
    exact ⟨i, first, later.next⟩

theorem Reaches.exists_raises {j : Interpreter} (reaches : Reaches m ⟨.halted (.failed f), j⟩)
    (sound : m.control.fault? = none) :
    ∃ n, Reaches m n ∧ n.Raises f ∧ Reaches n.step ⟨.halted (.failed f), j⟩ := by
  generalize same : (⟨.halted (.failed f), j⟩ : Machine) = stop at reaches
  induction reaches with
  | refl =>
      subst same
      cases sound
  | @step m stop later ih =>
      cases next : m.step.control.fault? with
      | none =>
          obtain ⟨n, reached, raises, ends⟩ := ih next same
          exact ⟨n, .step reached, raises, ends⟩
      | some g =>
          subst same
          obtain ⟨ends, _⟩ := later.ends_with next
          cases ends
          exact ⟨m, .refl, ⟨sound, next⟩, later⟩

end Runs

end Machine

namespace Session

open Source Machine

/-- Nothing that an interpreter holds is a function of the host. -/
def OnlyFunctions (i : Interpreter) : Prop :=
  i.store.Holds fun v => ∀ n, v.callable? ≠ some (.native n)

/-- The statements that runs of sources come to in a session: those of the sources, the functions
that it held before, and the bodies of functions in all of these. -/
inductive Knows (i : Interpreter) (sources : List String) : List Stmt → Prop
  | source {source : String} (ran : source ∈ sources) : Knows i sources (statements source)
  | held {id identity closure : Nat} {scope : Scope} {name : String} {f : Function}
      (found : i.store.scopes[id]? = some scope)
      (bound : scope.get? name = some (.callable identity (.function f closure))) :
      Knows i sources [.function f.name f.params f.body]
  | body {outer inner : List Stmt} {name : Token} {params : List Token}
      (around : Knows i sources outer)
      (inside : (Stmt.function name params inner).Within outer) : Knows i sources inner

/-- The sessions that come from another one by runs of sources, resets and drains. -/
inductive Follows (s : Session) : List String → Session → Prop
  | start : Follows s [] s
  | run {sources : List String} {t u : Session} {steps : Nat} {source : String} {outcome : Outcome}
      (follows : Follows s sources t) (ran : t.run steps source = some (outcome, u)) :
      Follows s (sources ++ [source]) u
  | reset {sources : List String} {t : Session} (follows : Follows s sources t) :
      Follows s sources t.forgetStatic
  | take {sources : List String} {t : Session} (follows : Follows s sources t) :
      Follows s sources t.drain.2

section Follows

variable {i : Interpreter} {s t u : Session} {sources : List String} {source : String} {steps : Nat}

theorem Knows.mono {more : List String} (grows : ∀ source ∈ sources, source ∈ more) {body : List Stmt}
    (knows : Knows i sources body) : Knows i more body := by
  induction knows with
  | source ran => exact .source (grows _ ran)
  | held found bound => exact .held found bound
  | body _ inside ih => exact .body ih inside

theorem knows_closed : IsClosed (Knows i sources) := fun _ _ _ _ knows inside => .body knows inside

theorem declared_start (plain : OnlyFunctions i) :
    i.store.Holds (Value.IsDeclared (Knows i [])) := by
  intro id scope name v found bound c called
  cases v with
  | callable identity d =>
      cases called
      cases c with
      | native n => exact absurd rfl (plain id scope name _ found bound n)
      | function f closure =>
          exact ⟨f, closure, rfl, _, .held found bound, .listed (List.mem_singleton_self _)⟩
  | _ => cases called

theorem traced_run (declared : t.interpreter.store.Holds (Value.IsDeclared (Knows i sources)))
    {m : Machine} (reaches : Reaches (ofProgram (statements source) t.interpreter) m) :
    ∃ r, m.Traced (accountOfTrees (statements source) (Knows i (sources ++ [source]))
      (ofProgram (statements source) t.interpreter) m) r := by
  have grown : t.interpreter.store.Holds (Value.IsDeclared (Knows i (sources ++ [source]))) :=
    declared.mono fun v => Value.IsDeclared.mono fun body =>
      Knows.mono fun source ran => List.mem_append_left _ ran
  have root : Knows i (sources ++ [source]) (statements source) :=
    .source (List.mem_append_right _ (List.mem_singleton_self _))
  exact reaches.traced_to_trees knows_closed root (.finish (.program fun _ => id)) grown

theorem Follows.declared (plain : OnlyFunctions s.interpreter) (follows : s.Follows sources t) :
    t.interpreter.store.Holds (Value.IsDeclared (Knows s.interpreter sources)) := by
  induction follows with
  | start => exact declared_start plain
  | @run sources t u steps source outcome _ ran ih =>
      obtain ⟨reported, reports, _⟩ := run_concludes ran
      have kept : t.interpreter.store.Holds
          (Value.IsDeclared (Knows s.interpreter (sources ++ [source]))) :=
        (traced_run ih .refl).elim fun _ traced => traced.stored
      have executed {fault : Option Fault} {j : Interpreter}
          (ran : t.interpreter.interpret steps (statements source) = some (fault, j)) :
          j.store.Holds (Value.IsDeclared (Knows s.interpreter (sources ++ [source]))) := by
        obtain ⟨a, runs, _⟩ := runs_of_interpret ran
        exact (traced_run ih runs).elim fun _ traced => traced.stored
      generalize same : u.interpreter = j at reports ⊢
      cases reports with
      | misspelled | blocked | ungrammatical => exact kept
      | ended _ _ _ ran => exact executed ran
      | failed _ _ _ ran => exact executed ran
  | reset _ ih => exact ih
  | take _ ih => exact ih

/-- A run that ends with a runtime error has one fault, which some node raised on the way. It is
blamed on the line of a token of that node, and this line and the message of the fault are what the
one diagnostic tells that is added. -/
theorem runtime_error_blamed (plain : OnlyFunctions s.interpreter) (follows : s.Follows sources t)
    (ran : t.run steps source = some (.runtimeError, u)) :
    ∃ f line m, f.line = some line ∧
      t.interpreter.interpret steps (statements source) = some (some f, u.interpreter) ∧
      Reaches (ofProgram (statements source) t.interpreter) m ∧ m.Raises f ∧
      Reaches m.step ⟨.halted (.failed f), u.interpreter⟩ ∧
      Blames (ofProgram (statements source) t.interpreter)
        (Knows s.interpreter (sources ++ [source])) m f ∧
      u.log.held.toList = t.log.held.toList ++ [⟨.runtime, line, .line, f.cause.message⟩] := by
  obtain ⟨reported, reports, concludes⟩ := run_concludes ran
  have held := concludes.held
  generalize same : u.interpreter = j at reports ⊢
  cases reports with
  | @failed _ _ _ j f executed =>
      obtain ⟨a, runs, failed⟩ := runs_of_interpret executed
      cases a with
      | failed g =>
          cases failed
          obtain ⟨m, reaches, raises, ends⟩ := Reaches.exists_raises runs rfl
          obtain ⟨r, traced⟩ := traced_run (follows.declared plain) reaches
          have root : Knows s.interpreter (sources ++ [source]) (statements source) :=
            .source (List.mem_append_right _ (List.mem_singleton_self _))
          have blames := traced.blames reaches root raises
          obtain ⟨line, known⟩ := blames.line
          have report : f.diagnostic = ⟨.runtime, line, .line, f.cause.message⟩ := by
            rw [Fault.diagnostic, known]
            rfl
          exact ⟨f, line, m, known, executed, reaches, raises, ends, blames, report ▸ held⟩
      | _ => cases failed

end Follows

/-- A sum in a function that fails on the second line, called from the third one. -/
def brokenSum : String := "func f(n) { return n
+ nil; } print
f(1);"

theorem new_onlyFunctions (limit : Nat) : OnlyFunctions (.new limit) :=
  Interpreter.new_holds limit _

theorem runtime_error_blamed_sum :
    OnlyFunctions (.new 2) ∧ Follows (.new (.new 2)) [] (.new (.new 2)) ∧
      ∃ u, (Session.new (.new 2)).run 60 brokenSum = some (.runtimeError, u) ∧
        ∃ f m, f.line = some 2 ∧
          Reaches (ofProgram (statements brokenSum) (.new 2)) m ∧ m.Raises f ∧
          Blames (ofProgram (statements brokenSum) (.new 2)) (Knows (.new 2) [brokenSum]) m f := by
  have ends : ((Session.new (.new 2)).run 60 brokenSum).map
      (fun r => (r.1, r.2.log.held.toList.map Diagnostic.line)) = some (.runtimeError, [2]) := by
    decide +kernel
  obtain ⟨⟨outcome, u⟩, ran, came⟩ := Option.map_eq_some_iff.mp ends
  simp only [Prod.mk.injEq] at came
  obtain ⟨rfl, lines⟩ := came
  obtain ⟨f, line, m, known, _, reaches, raises, _, blames, held⟩ :=
    runtime_error_blamed (new_onlyFunctions 2) .start ran
  rw [held] at lines
  cases lines
  exact ⟨new_onlyFunctions 2, .start, u, ran, f, m, known, reaches, raises, blames⟩

end Session

end Jess
