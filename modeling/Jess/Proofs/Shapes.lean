import Jess.Proofs.Likeness
import Jess.Proofs.Steps

/-!
# Shapes of statements

The parser reads declarations at the top of a program, in blocks and in the
bodies of functions, and nowhere else. So no branch of a conditional and no
body of a loop is a declaration, however deep it stands, and whether or not
there were mistakes elsewhere.
-/

namespace Jess

/-- A statement without a declaration as a branch or as the body of a loop. -/
inductive Stmt.IsShaped : Stmt → Prop
  | expression (e : Expr) : IsShaped (.expression e)
  | print (e : Expr) : IsShaped (.print e)
  | declare (name : Token) (initializer : Option Expr) : IsShaped (.declare name initializer)
  | block {body : List Stmt} (inner : ∀ s ∈ body, IsShaped s) : IsShaped (.block body)
  | ifThen (condition : Expr) {s : Stmt} (plain : s.declares = false) (first : IsShaped s) :
      IsShaped (.ifThen condition s)
  | ifElse (condition : Expr) {s r : Stmt} (plain : s.declares = false) (first : IsShaped s)
      (other : r.declares = false) (second : IsShaped r) : IsShaped (.ifElse condition s r)
  | loop (condition : Expr) {s : Stmt} (plain : s.declares = false) (body : IsShaped s) :
      IsShaped (.loop condition s)
  | function (name : Token) (params : List Token) {body : List Stmt}
      (inner : ∀ s ∈ body, IsShaped s) : IsShaped (.function name params body)
  | giveBack (keyword : Token) (value : Option Expr) : IsShaped (.giveBack keyword value)

structure Stmt.IsPlain (s : Stmt) : Prop where
  shaped : s.IsShaped
  plain : s.declares = false

namespace Parser

variable {α β : Type} {P : α → Prop} {Q : β → Prop}

/-- What is true of everything that a parser gives. -/
def Gives (p : Parser α) (P : α → Prop) : Prop := ∀ s v s', p s = .ok v s' → P v

theorem gives_pure {v : α} (holds : P v) : Gives (pure v : Parser α) P := by
  intro s w s' came
  rw [pure_apply] at came
  cases came
  exact holds

theorem gives_tooDeep : Gives (tooDeep : Parser α) P := by
  intro s v s' came
  simp only [tooDeep, reduceCtorEq] at came

theorem Gives.bind {p : Parser α} {f : α → Parser β} (first : Gives p P)
    (later : ∀ v, P v → Gives (f v) Q) : Gives (p >>= f) Q := by
  intro s w s' came
  rw [bind_apply] at came
  cases run : p s with
  | ok v t =>
      rw [run] at came
      exact later v (first s v t run) t w s' came
  | error stop t =>
      rw [run] at came
      cases came

theorem Gives.after {p : Parser α} {f : α → Parser β} (later : ∀ v, Gives (f v) Q) :
    Gives (p >>= f) Q := by
  have any : Gives p fun _ => True := fun _ _ _ _ => trivial
  exact any.bind fun v _ => later v

theorem Gives.map {p : Parser α} {f : α → β} (first : Gives p P) (holds : ∀ v, P v → Q (f v)) :
    Gives (f <$> p) Q := by
  rw [map_eq_pure_bind]
  exact first.bind fun v known => gives_pure (holds v known)

theorem Gives.recovering {p : Parser α} (first : Gives p P) :
    Gives (recovering p) fun found => ∀ v, found = some v → P v := by
  intro s found s' came w same
  subst same
  cases run : p s with
  | ok v t =>
      simp only [Parser.recovering, run] at came
      cases came
      exact first s _ _ run
  | error stop t => cases stop <;> simp [Parser.recovering, run] at came

theorem gives_variableDeclaration (depth : Nat) :
    Gives (variableDeclaration depth) Stmt.IsShaped := by
  unfold variableDeclaration
  refine .after fun name => .after fun found => ?_
  split
  · exact .after fun _ => .after fun _ => gives_pure (.declare ..)
  · exact .after fun _ => gives_pure (.declare ..)

theorem gives_expressionStatement (depth : Nat) :
    Gives (expressionStatement depth) Stmt.IsPlain :=
  .after fun e => .after fun _ => gives_pure ⟨.expression e, rfl⟩

theorem gives_printStatement (depth : Nat) : Gives (printStatement depth) Stmt.IsPlain :=
  .after fun e => .after fun _ => gives_pure ⟨.print e, rfl⟩

theorem gives_returnStatement (inFunction : Bool) (keyword : Token) (depth : Nat) :
    Gives (returnStatement inFunction keyword depth) Stmt.IsPlain := by
  have ends : Gives (do
      if ← check (.symbol .semicolon) then
        closedBy .semicolonAfterReturnValue
        pure (.giveBack keyword none)
      else
        let value ← expression depth
        closedBy .semicolonAfterReturnValue
        pure (.giveBack keyword (some value))) Stmt.IsPlain := by
    refine .after fun found => ?_
    split
    · exact .after fun _ => gives_pure ⟨.giveBack .., rfl⟩
    · exact .after fun _ => .after fun _ => gives_pure ⟨.giveBack .., rfl⟩
  unfold returnStatement
  split
  · exact .after fun _ => ends
  · exact ends

theorem gives_loopInitializer (depth : Nat) :
    Gives (loopInitializer depth) fun found => ∀ s, found = some s → s.IsShaped := by
  unfold loopInitializer
  refine .after fun missing => ?_
  split
  · exact gives_pure nofun
  · refine .after fun declares => ?_
    split
    · refine (gives_variableDeclaration depth).map ?_
      rintro s shaped _ ⟨⟩
      exact shaped
    · refine (gives_expressionStatement depth).map ?_
      rintro s plain _ ⟨⟩
      exact plain.shaped

theorem isPlain_loop (condition : Expr) {body : Stmt} (plain : body.IsPlain) :
    (Stmt.loop condition body).IsPlain :=
  ⟨.loop condition plain.plain plain.shaped, rfl⟩

theorem isPlain_pair {s r : Stmt} (first : s.IsShaped) (second : r.IsShaped) :
    (Stmt.block [s, r]).IsPlain :=
  ⟨.block (List.forall_mem_cons.mpr ⟨first, List.forall_mem_singleton.mpr second⟩), rfl⟩

theorem isPlain_desugarFor {initializer : Option Stmt}
    (first : ∀ s, initializer = some s → s.IsShaped) (condition increment : Option Expr)
    {body : Stmt} (plain : body.IsPlain) :
    (desugarFor initializer condition increment body).IsPlain := by
  have loops : ∀ {s : Stmt}, s.IsPlain →
      (Stmt.loop (condition.getD (.literal (.boolean true))) s).IsPlain := isPlain_loop _
  have repeats (e : Expr) := isPlain_pair plain.shaped (.expression e)
  cases initializer with
  | none =>
      cases increment with
      | none => exact loops plain
      | some e => exact loops (repeats e)
  | some s =>
      cases increment with
      | none => exact isPlain_pair (first s rfl) (loops plain).shaped
      | some e => exact isPlain_pair (first s rfl) (loops (repeats e)).shaped

structure GivesShapes (depth : Nat) : Prop where
  declaration : ∀ inFunction, Gives (declaration depth inFunction) Stmt.IsShaped
  block : ∀ inFunction done, (∀ s ∈ done, Stmt.IsShaped s) →
    Gives (block depth inFunction done) fun body => ∀ s ∈ body, s.IsShaped
  statement : ∀ inFunction, Gives (statement depth inFunction) Stmt.IsPlain

theorem gives_declaration {depth : Nat} (deeper : GivesShapes depth) (inFunction : Bool) :
    Gives (declaration (depth + 1) inFunction) Stmt.IsShaped := by
  unfold declaration
  refine .after fun isFunction => ?_
  split
  · refine .after fun name => .after fun _ => .after fun empty => ?_
    have ends : ∀ params, Gives (do
        let _ ← expect (.symbol .rightParen) .parenAfterParameters
        let _ ← expect (.symbol .leftBrace) .braceBeforeBody
        let body ← block depth true #[]
        pure (.function name params body)) Stmt.IsShaped := fun params =>
      .after fun _ => .after fun _ =>
        (deeper.block true #[] (by simp)).bind fun body inner =>
          gives_pure (.function name params inner)
    split
    · exact ends []
    · exact .after ends
  · refine .after fun isVariable => ?_
    split
    · exact gives_variableDeclaration depth
    · intro s v s' came
      exact (deeper.statement inFunction s v s' came).shaped

theorem gives_block {depth : Nat} (deeper : GivesShapes depth) (inFunction : Bool)
    {done : Array Stmt} (before : ∀ s ∈ done, Stmt.IsShaped s) :
    Gives (block (depth + 1) inFunction done) fun body => ∀ s ∈ body, s.IsShaped := by
  unfold block
  refine .after fun closes => .after fun ends => ?_
  split
  · refine .after fun _ => gives_pure ?_
    simpa using before
  · refine (deeper.declaration inFunction).recovering.bind fun found shaped => ?_
    cases found with
    | none => exact deeper.block inFunction done before
    | some stmt =>
        have more := Array.forall_mem_push.mpr ⟨shaped stmt rfl, before⟩
        exact deeper.block inFunction (done.push stmt) more

theorem gives_statement {depth : Nat} (deeper : GivesShapes depth) (inFunction : Bool) :
    Gives (statement (depth + 1) inFunction) Stmt.IsPlain := by
  have branch := deeper.statement inFunction
  unfold statement
  refine .after fun token => ?_
  split
  · refine .after fun _ => .after fun _ => ?_
    refine (gives_loopInitializer depth).bind fun initializer first => ?_
    refine .after fun condition => .after fun increment => ?_
    exact branch.bind fun body plain =>
      gives_pure (isPlain_desugarFor first condition increment plain)
  · refine .after fun _ => .after fun _ => .after fun condition => .after fun _ => ?_
    refine branch.bind fun s one => .after fun more => ?_
    split
    · exact branch.bind fun r other =>
        gives_pure ⟨.ifElse condition one.plain one.shaped other.plain other.shaped, rfl⟩
    · exact gives_pure ⟨.ifThen condition one.plain one.shaped, rfl⟩
  · exact .after fun _ => gives_printStatement depth
  · exact .after fun keyword => gives_returnStatement inFunction keyword depth
  · refine .after fun _ => .after fun _ => .after fun condition => .after fun _ => ?_
    exact branch.bind fun body plain => gives_pure ⟨.loop condition plain.plain plain.shaped, rfl⟩
  · refine .after fun _ => ?_
    exact (deeper.block inFunction #[] (by simp)).map fun body inner => ⟨.block inner, rfl⟩
  · exact gives_expressionStatement depth

theorem gives_shapes (depth : Nat) : GivesShapes depth := by
  induction depth with
  | zero =>
      constructor
      · intro inFunction
        unfold declaration
        exact gives_tooDeep
      · intro inFunction done before
        unfold block
        exact gives_tooDeep
      · intro inFunction
        unfold statement
        exact gives_tooDeep
  | succ depth deeper =>
      exact ⟨gives_declaration deeper, fun inFunction _ before => gives_block deeper inFunction before,
        gives_statement deeper⟩

theorem gives_declarations (depth : Nat) {done : Array Stmt}
    (before : ∀ s ∈ done, Stmt.IsShaped s) :
    Gives (declarations depth done) fun program => ∀ s ∈ program, s.IsShaped := by
  induction depth generalizing done with
  | zero =>
      unfold declarations
      exact gives_tooDeep
  | succ depth ih =>
      unfold declarations
      refine .after fun ends => ?_
      split
      · refine gives_pure ?_
        simpa using before
      · refine ((gives_shapes depth).declaration false).recovering.bind fun found shaped => ?_
        cases found with
        | none => exact ih before
        | some stmt =>
            exact ih (Array.forall_mem_push.mpr ⟨shaped stmt rfl, before⟩)

/-- All statements that the parser gives are shaped, also where it complains. -/
theorem shaped_of_read (tokens : List Token) : ∀ s ∈ (read tokens).statements, s.IsShaped := by
  unfold read
  cases Cursor.ofList? tokens with
  | none => exact nofun
  | some cursor =>
      have empty : ∀ s ∈ (#[] : Array Stmt), Stmt.IsShaped s := by simp
      have gives := gives_declarations (enoughDepth tokens.length) empty
      simp only [readFrom]
      cases run : declarations (enoughDepth tokens.length) #[] ⟨cursor, #[]⟩ with
      | ok program s => exact gives _ program s run
      | error stop s => exact nofun

end Parser
end Jess
