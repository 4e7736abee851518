import Jess.Proofs.Simulation

/-!
# Trees that are the same up to places

Trees that only differ in the places of their tokens are alike in every way,
and trees that are alike in the strictest way differ in nothing else. The same
holds for values and scopes, so a run from one state with such trees goes on
alike and ends in states that are the same up to places.
-/

namespace Jess

variable {free : Freedom}

def Fragment.placeless : Fragment → Fragment
  | .expr e => .expr e.placeless
  | .exprs es => .exprs (Expr.placelessAll es)
  | .stmt s => .stmt s.placeless
  | .stmts body => .stmts (Stmt.placelessAll body)

theorem Freedom.marks_of_placeless {t u : Token} (same : t.placeless = u.placeless) :
    free.Marks t u := fun _ => same

theorem Freedom.names_of_placeless {t u : Token} (same : t.placeless = u.placeless) :
    free.Names t u := ⟨Token.lexeme_of_placeless same, fun _ => same⟩

theorem names_of_map_placeless {ts us : List Token}
    (same : ts.map Token.placeless = us.map Token.placeless) :
    List.Forall₂ free.Names ts us := by
  induction ts generalizing us with
  | nil =>
      cases us with
      | nil => exact .nil
      | cons u us => cases same
  | cons t ts ih =>
      cases us with
      | nil => cases same
      | cons u us =>
          obtain ⟨first, later⟩ := List.cons.inj same
          exact .cons (Freedom.names_of_placeless first) (ih later)

section Trees

mutual

theorem Expr.like_of_placeless (a b : Expr) (same : a.placeless = b.placeless) :
    Expr.Like free a b := by
  cases a with
  | literal value =>
      cases b with
      | literal value' =>
          cases Expr.literal.inj same
          exact .literal value
      | _ => cases same
  | grouping inner =>
      cases b with
      | grouping inner' => exact .grouping (Expr.like_of_placeless _ _ (Expr.grouping.inj same))
      | _ => cases same
  | unary op operator operand =>
      cases b with
      | unary op' operator' operand' =>
          obtain ⟨rfl, marks, inner⟩ := Expr.unary.inj same
          exact .unary op (Freedom.marks_of_placeless marks) (Expr.like_of_placeless _ _ inner)
      | _ => cases same
  | binary op operator left right =>
      cases b with
      | binary op' operator' left' right' =>
          obtain ⟨rfl, marks, first, second⟩ := Expr.binary.inj same
          exact .binary op (Freedom.marks_of_placeless marks) (Expr.like_of_placeless _ _ first)
            (Expr.like_of_placeless _ _ second)
      | _ => cases same
  | logical op operator left right =>
      cases b with
      | logical op' operator' left' right' =>
          obtain ⟨rfl, marks, first, second⟩ := Expr.logical.inj same
          exact .logical op (Freedom.marks_of_placeless marks) (Expr.like_of_placeless _ _ first)
            (Expr.like_of_placeless _ _ second)
      | _ => cases same
  | «variable» name =>
      cases b with
      | «variable» name' => exact .named (Freedom.names_of_placeless (Expr.variable.inj same))
      | _ => cases same
  | assign name value =>
      cases b with
      | assign name' value' =>
          obtain ⟨names, inner⟩ := Expr.assign.inj same
          exact .assign (Freedom.names_of_placeless names) (Expr.like_of_placeless _ _ inner)
      | _ => cases same
  | call callee paren args =>
      cases b with
      | call callee' paren' args' =>
          obtain ⟨first, marks, given⟩ := Expr.call.inj same
          exact .call (Freedom.marks_of_placeless marks) (Expr.like_of_placeless _ _ first)
            (Expr.likeAll_of_placeless _ _ given)
      | _ => cases same

theorem Expr.likeAll_of_placeless (args others : List Expr)
    (same : Expr.placelessAll args = Expr.placelessAll others) :
    Fragment.Like free (.exprs args) (.exprs others) := by
  cases args with
  | nil =>
      cases others with
      | nil => exact .noExprs
      | cons b others => cases same
  | cons a args =>
      cases others with
      | nil => cases same
      | cons b others =>
          obtain ⟨first, later⟩ := List.cons.inj same
          exact .moreExprs (Expr.like_of_placeless _ _ first) (Expr.likeAll_of_placeless _ _ later)

end

theorem Freedom.branch_of_ne (plain : free ≠ .blocks) (s : Stmt) : free.Branch s :=
  fun blocks => absurd blocks plain

theorem Stmt.like_declare {t u : Token} {initializer initializer' : Option Expr}
    (names : t.placeless = u.placeless)
    (same : initializer.map Expr.placeless = initializer'.map Expr.placeless) :
    Stmt.Like free (.declare t initializer) (.declare u initializer') := by
  cases initializer with
  | none =>
      cases initializer' with
      | none => exact .declare (Freedom.names_of_placeless names)
      | some b => cases same
  | some a =>
      cases initializer' with
      | none => cases same
      | some b =>
          exact .declareValue (Freedom.names_of_placeless names)
            (Expr.like_of_placeless a b (Option.some.inj same))

theorem Stmt.like_giveBack {t u : Token} {value value' : Option Expr}
    (marks : t.placeless = u.placeless)
    (same : value.map Expr.placeless = value'.map Expr.placeless) :
    Stmt.Like free (.giveBack t value) (.giveBack u value') := by
  cases value with
  | none =>
      cases value' with
      | none => exact .giveBack (Freedom.marks_of_placeless marks)
      | some b => cases same
  | some a =>
      cases value' with
      | none => cases same
      | some b =>
          exact .giveBackValue (Freedom.marks_of_placeless marks)
            (Expr.like_of_placeless a b (Option.some.inj same))

mutual

theorem Stmt.like_of_placeless (plain : free ≠ .blocks) (s r : Stmt)
    (same : s.placeless = r.placeless) : Stmt.Like free s r := by
  cases s with
  | expression e =>
      cases r with
      | expression e' =>
          exact .expression (Expr.like_of_placeless _ _ (Stmt.expression.inj same))
      | _ => cases same
  | print e =>
      cases r with
      | print e' => exact .print (Expr.like_of_placeless _ _ (Stmt.print.inj same))
      | _ => cases same
  | declare name initializer =>
      cases r with
      | declare name' initializer' =>
          obtain ⟨names, value⟩ := Stmt.declare.inj same
          exact Stmt.like_declare names value
      | _ => cases same
  | block body =>
      cases r with
      | block body' => exact .block (Stmt.likeAll_of_placeless plain _ _ (Stmt.block.inj same))
      | _ => cases same
  | ifThen condition thenBranch =>
      cases r with
      | ifThen condition' thenBranch' =>
          obtain ⟨first, branch⟩ := Stmt.ifThen.inj same
          exact .ifThen (Expr.like_of_placeless _ _ first) (Freedom.branch_of_ne plain _)
            (Stmt.like_of_placeless plain _ _ branch)
      | _ => cases same
  | ifElse condition thenBranch elseBranch =>
      cases r with
      | ifElse condition' thenBranch' elseBranch' =>
          obtain ⟨first, branch, other⟩ := Stmt.ifElse.inj same
          exact .ifElse (Expr.like_of_placeless _ _ first) (Freedom.branch_of_ne plain _)
            (Stmt.like_of_placeless plain _ _ branch) (Freedom.branch_of_ne plain _)
            (Stmt.like_of_placeless plain _ _ other)
      | _ => cases same
  | loop condition body =>
      cases r with
      | loop condition' body' =>
          obtain ⟨first, inner⟩ := Stmt.loop.inj same
          exact .loop (Expr.like_of_placeless _ _ first) (Freedom.branch_of_ne plain _)
            (Stmt.like_of_placeless plain _ _ inner)
      | _ => cases same
  | function name params body =>
      cases r with
      | function name' params' body' =>
          obtain ⟨names, bound, inner⟩ := Stmt.function.inj same
          exact .function (Freedom.names_of_placeless names) (names_of_map_placeless bound)
            (Stmt.likeAll_of_placeless plain _ _ inner)
      | _ => cases same
  | giveBack keyword value =>
      cases r with
      | giveBack keyword' value' =>
          obtain ⟨marks, inner⟩ := Stmt.giveBack.inj same
          exact Stmt.like_giveBack marks inner
      | _ => cases same

theorem Stmt.likeAll_of_placeless (plain : free ≠ .blocks) (body others : List Stmt)
    (same : Stmt.placelessAll body = Stmt.placelessAll others) :
    Fragment.Like free (.stmts body) (.stmts others) := by
  cases body with
  | nil =>
      cases others with
      | nil => exact .noStmts
      | cons r others => cases same
  | cons s body =>
      cases others with
      | nil => cases same
      | cons r others =>
          obtain ⟨first, later⟩ := List.cons.inj same
          exact .moreStmts (Stmt.like_of_placeless plain _ _ first)
            (Stmt.likeAll_of_placeless plain _ _ later)

end

end Trees

theorem map_placeless_of_names {ts us : List Token}
    (names : List.Forall₂ (Freedom.Names .place) ts us) :
    ts.map Token.placeless = us.map Token.placeless := by
  induction names with
  | nil => rfl
  | cons first _ ih => rw [List.map_cons, List.map_cons, first.2 rfl, ih]

/-- Fragments that are alike in the strictest way are the same up to places. -/
theorem Fragment.Like.placeless_eq {x y : Fragment} (like : Fragment.Like .place x y) :
    x.placeless = y.placeless := by
  induction like with
  | regrouped allowed _ _ => exact absurd rfl allowed
  | computed allowed _ => exact absurd rfl allowed
  | wrapped allowed _ _ _ => cases allowed
  | literal value => rfl
  | noExprs => rfl
  | noStmts => rfl
  | grouping _ ih =>
      have inner := Fragment.expr.inj ih
      simp only [placeless, Expr.placeless, inner]
  | unary op marks _ ih =>
      have operand := Fragment.expr.inj ih
      simp only [placeless, Expr.placeless, marks rfl, operand]
  | binary op marks _ _ ihLeft ihRight =>
      have left := Fragment.expr.inj ihLeft
      have right := Fragment.expr.inj ihRight
      simp only [placeless, Expr.placeless, marks rfl, left, right]
  | logical op marks _ _ ihLeft ihRight =>
      have left := Fragment.expr.inj ihLeft
      have right := Fragment.expr.inj ihRight
      simp only [placeless, Expr.placeless, marks rfl, left, right]
  | named names => simp only [placeless, Expr.placeless, names.2 rfl]
  | assign names _ ih =>
      have value := Fragment.expr.inj ih
      simp only [placeless, Expr.placeless, names.2 rfl, value]
  | call marks _ _ ihCallee ihArgs =>
      have callee := Fragment.expr.inj ihCallee
      have args := Fragment.exprs.inj ihArgs
      simp only [placeless, Expr.placeless, marks rfl, callee, args]
  | moreExprs _ _ ihFirst ihLater =>
      have first := Fragment.expr.inj ihFirst
      have later := Fragment.exprs.inj ihLater
      simp only [placeless, Expr.placelessAll, first, later]
  | expression _ ih =>
      have value := Fragment.expr.inj ih
      simp only [placeless, Stmt.placeless, value]
  | print _ ih =>
      have value := Fragment.expr.inj ih
      simp only [placeless, Stmt.placeless, value]
  | declare names => simp only [placeless, Stmt.placeless, names.2 rfl, Option.map_none]
  | declareValue names _ ih =>
      have value := Fragment.expr.inj ih
      simp only [placeless, Stmt.placeless, names.2 rfl, Option.map_some, value]
  | block _ ih =>
      have inner := Fragment.stmts.inj ih
      simp only [placeless, Stmt.placeless, inner]
  | ifThen _ _ _ ihCondition ihBranch =>
      have condition := Fragment.expr.inj ihCondition
      have branch := Fragment.stmt.inj ihBranch
      simp only [placeless, Stmt.placeless, condition, branch]
  | ifElse _ _ _ _ _ ihCondition ihBranch ihOther =>
      have condition := Fragment.expr.inj ihCondition
      have branch := Fragment.stmt.inj ihBranch
      have other := Fragment.stmt.inj ihOther
      simp only [placeless, Stmt.placeless, condition, branch, other]
  | loop _ _ _ ihCondition ihBody =>
      have condition := Fragment.expr.inj ihCondition
      have body := Fragment.stmt.inj ihBody
      simp only [placeless, Stmt.placeless, condition, body]
  | function names bound _ ih =>
      have inner := Fragment.stmts.inj ih
      simp only [placeless, Stmt.placeless, names.2 rfl, map_placeless_of_names bound, inner]
  | giveBack marks => simp only [placeless, Stmt.placeless, marks rfl, Option.map_none]
  | giveBackValue marks _ ih =>
      have value := Fragment.expr.inj ih
      simp only [placeless, Stmt.placeless, marks rfl, Option.map_some, value]
  | moreStmts _ _ ihFirst ihLater =>
      have first := Fragment.stmt.inj ihFirst
      have later := Fragment.stmts.inj ihLater
      simp only [placeless, Stmt.placelessAll, first, later]

def Function.placeless (f : Function) : Function :=
  ⟨f.name.placeless, f.params.map Token.placeless, Stmt.placelessAll f.body⟩

def Value.placeless : Value → Value
  | .callable identity (.function f closure) => .callable identity (.function f.placeless closure)
  | v => v

def Scope.placeless (s : Scope) : Scope :=
  { s with bindings := s.bindings.map fun b => (b.1, b.2.placeless) }

section States

variable {c : Chart}

theorem Value.Like.placeless_eq {v w : Value} (like : Value.Like .place c v w)
    (fixed : c.seat = id) : v.placeless = w.placeless := by
  cases like with
  | function identity functions closure =>
      have seat := closure.seat
      rw [fixed] at seat
      have names := functions.name.2 rfl
      have params := map_placeless_of_names functions.params
      have body := Fragment.stmts.inj functions.body.placeless_eq
      simp only [id_eq] at seat
      simp only [Value.placeless, Function.placeless, names, params, body, seat]
  | _ => rfl

theorem Scope.Like.placeless_eq {s r : Scope} (like : Scope.Like .place c s r)
    (fixed : c.seat = id) : s.placeless = r.placeless := by
  obtain ⟨bindings, parent⟩ := s
  obtain ⟨bindings', parent'⟩ := r
  obtain ⟨bound, parents⟩ := like
  simp only at bound parents
  have same : parent = parent' := by
    cases parents with
    | none => rfl
    | some seats =>
        have seat := seats.seat
        rw [fixed] at seat
        rw [← seat]
        rfl
  have values : bindings.map (fun b => (b.1, b.2.placeless)) =
      bindings'.map (fun b => (b.1, b.2.placeless)) := by
    induction bound with
    | nil => rfl
    | cons first _ ih =>
        rw [List.map_cons, List.map_cons, ih, first.1, first.2.placeless_eq fixed]
  simp only [Scope.placeless, same, values]

theorem Store.Like.placeless_eq {s r : Store} (like : Store.Like .place c s r) (home : Nat) :
    s.scopes[home]?.map Scope.placeless = r.scopes[home]?.map Scope.placeless := by
  have strict : Freedom.place ≠ .blocks := by decide
  obtain ⟨_, fixed, own⟩ := like.fixed strict
  cases found : r.scopes[home]? with
  | none =>
      have seats : c.Seats .place home home := ⟨by rw [fixed]; rfl, fun blocks => by cases blocks⟩
      rw [like.missing seats found]
  | some scope =>
      obtain ⟨first, foundFirst, alike⟩ := like.owned home scope found (own home)
      rw [fixed] at foundFirst
      simp only [id_eq] at foundFirst
      rw [foundFirst, Option.map_some, Option.map_some, alike.placeless_eq fixed]

end States

theorem Value.like_refl (plain : free ≠ .blocks) (size : Nat) (v : Value) :
    Value.Like free (Chart.same size) v v := by
  cases v with
  | number x => exact .number x
  | string s => exact .string s
  | boolean b => exact .boolean b
  | nil => exact .nil
  | callable identity called =>
      cases called with
      | native n => exact .native identity n
      | function f closure =>
          refine .function identity ⟨Freedom.names_of_placeless rfl, names_of_map_placeless rfl,
            Stmt.likeAll_of_placeless plain _ _ rfl⟩ ⟨rfl, ?_⟩
          intro blocks
          exact absurd blocks plain

theorem Store.like_refl (s : Store)
    (values : ∀ (n : Nat) (scope : Scope), s.scopes[n]? = some scope →
      List.Forall₂ (BindsLike free (Chart.same s.size)) scope.bindings scope.bindings) :
    Store.Like free (Chart.same s.size) s s where
  size := rfl
  fixed _ := ⟨rfl, rfl, fun _ => rfl⟩
  inside _ known := known
  single _ _ _ _ _ _ same := same
  owned n scope found _ := by
    refine ⟨scope, found, values n scope found, ?_⟩
    cases enclosed : scope.parent with
    | none => exact .none
    | some parent =>
        refine .some ⟨rfl, fun _ => ?_⟩
        have below := s.parent_lt n scope parent found enclosed
        have inside : n < s.scopes.size := (Array.getElem?_eq_some_iff.mp found).1
        exact Nat.lt_trans below inside
  padded _ _ _ other := by cases other

theorem Interpreter.like_refl (plain : free ≠ .blocks) (i : Interpreter) :
    Interpreter.Like free (Chart.same i.store.size) [] i i where
  store := by
    apply Store.like_refl
    intro n scope _
    rw [List.forall₂_same]
    intro b _
    exact ⟨rfl, Value.like_refl plain _ b.2⟩
  env := ⟨rfl, fun blocks => absurd blocks plain⟩
  depth := rfl
  limit := rfl
  supply := rfl
  printed := rfl

theorem Interpreter.like_new (limit : Nat) :
    Interpreter.Like free (Chart.same (Interpreter.new limit).store.size) [] (Interpreter.new limit)
      (Interpreter.new limit) where
  store := by
    apply Store.like_refl
    intro n scope found
    simp only [Interpreter.new, Store.openScope_scope] at found
    split at found
    · cases found
      exact .nil
    · simp [Store.empty] at found
  env := ⟨rfl, fun _ => Nat.zero_lt_one⟩
  depth := rfl
  limit := rfl
  supply := rfl
  printed := rfl

theorem Machine.ofProgram_like {base : List String} {c : Chart} {i j : Interpreter}
    {first second : List Stmt} (trees : Fragment.Like free (.stmts first) (.stmts second))
    (like : Interpreter.Like free c base i j) (own : c.own j.env = true) :
    Machine.Like free base (ofProgram first i) (ofProgram second j) :=
  ⟨c, like, .finish .normal (.program own trees)⟩

end Jess
