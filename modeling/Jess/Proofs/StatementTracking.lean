import Jess.Proofs.ExpressionTracking
import Jess.Proofs.StatementSoundness

/-!
# The parsers of statements track their languages

What comes behind a statement may begin with `else` only if the statement can
take that `else` for itself. Given that, every parser of statements tracks its
language, and so does the reading of a block, which recovers after a mistake but
keeps the complaint.
-/

namespace Jess.Parser

open Token (Kind)
open Grammar.Lenient
open scoped Computability

section Simple

variable {K : Language Kind} [Productive K] {depth : Nat} {before rest : List Token} {t : Token}

theorem Tracks.closes {β : Type} {what : Expectation} {f : Unit → Parser β}
    (closed : Closed (t :: rest)) (later : Follows (f ()) 1 K) :
    Tracks (closedBy what >>= f) (just (.symbol .semicolon)) K before (t :: rest) := by
  rw [closedBy_bind]
  exact Tracks.ends closed (by simp) fun _ => later

theorem closed_expression_tracks {what : Expectation} (make : Expr → Stmt) :
    Follows (do
        let e ← expression depth
        closedBy what
        pure (make e)) (expressions * just (.symbol .semicolon)) K := by
  intro before pending closed
  have next : Heads (just (.symbol .semicolon) * K) Stops := (begins_just_mul stops_semicolon).heads
  refine Tracks.bind ((expressions_track depth).expression next closed) fun e => ?_
  intro before pending closed
  obtain ⟨t, rest, rfl⟩ := List.exists_cons_of_ne_nil closed.ne_nil
  exact Tracks.closes closed fun closed => tracks_pure closed

theorem variableDeclaration_tracks : Follows (variableDeclaration depth) bindings K := by
  intro before pending closed
  obtain ⟨name, rest, rfl⟩ := List.exists_cons_of_ne_nil closed.ne_nil
  rw [variableDeclaration, bindings]
  refine Tracks.expects closed (by simp) fun _ closedRest => ?_
  obtain ⟨t, later, rfl⟩ := List.exists_cons_of_ne_nil closedRest.ne_nil
  by_cases sign : t.kind = .symbol .equal
  · refine Tracks.within ?_ fun w => (begins_only _).mul.heads.not_mem (by simp [sign])
    rw [mul_assoc]
    exact Tracks.eats closedRest sign (by simp) fun closedLater =>
      closed_expression_tracks (fun e => .declare name (some e)) closedLater
  · refine Tracks.without ?_ fun w => (begins_only _).mul.mul.mul.heads.not_mem sign
    exact Tracks.skips sign (Tracks.closes closedRest fun closed => tracks_pure closed)

theorem returnStatement_tracks (inFunction : Bool) (keyword : Token) :
    Follows (returnStatement inFunction keyword depth) (clauses * just (.symbol .semicolon)) K := by
  intro before pending closed
  obtain ⟨t, rest, rfl⟩ := List.exists_cons_of_ne_nil closed.ne_nil
  have tail : Tracks (do
      if ← check (.symbol .semicolon) then
        closedBy .semicolonAfterReturnValue
        pure (Stmt.giveBack keyword none)
      else
        let value ← expression depth
        closedBy .semicolonAfterReturnValue
        pure (.giveBack keyword (some value))) (clauses * just (.symbol .semicolon)) K before
          (t :: rest) := by
    rw [clauses]
    apply Tracks.checks
    · intro semicolon
      refine Tracks.without (Tracks.closes closed fun closed => tracks_pure closed) fun w => ?_
      exact begins_expressions.mul.mul.heads.not_mem
        (by simp [semicolon, BeginsExpression, BeginsPrimary])
    · intro other
      refine Tracks.within ?_ fun w => (begins_only _).mul.heads.not_mem other
      exact closed_expression_tracks (fun e => .giveBack keyword (some e)) closed
  rw [returnStatement]
  cases inFunction with
  | false => exact Tracks.report rfl tail
  | true => exact tail

theorem parameters_track (done : Array Token) (stops : Heads K (· ≠ .symbol .comma)) :
    Follows (parameters depth done) names K := by
  induction depth generalizing done with
  | zero =>
      intro before pending _
      rw [parameters]
      exact tracks_tooDeep
  | succ depth ih =>
      intro before pending closed
      obtain ⟨name, rest, rfl⟩ := List.exists_cons_of_ne_nil closed.ne_nil
      -- the part that is the same on both sides of the limit
      have listed : Tracks (do
          let param ← expect .identifier .parameterName
          if ← eat (.symbol .comma) then
            parameters depth (done.push param)
          else
            pure (done.push param).toList) names K before (name :: rest) := by
        rw [names_eq]
        refine Tracks.expects closed (by simp) fun _ closedRest => ?_
        obtain ⟨t, later, rfl⟩ := List.exists_cons_of_ne_nil closedRest.ne_nil
        by_cases comma : t.kind = .symbol .comma
        · refine Tracks.present ?_ fun w => stops.not_mem (not_not_intro comma)
          exact Tracks.eats closedRest comma (by simp) fun closedLater => ih _ closedLater
        · refine Tracks.absent (Tracks.skips comma (tracks_pure closedRest)) fun w => ?_
          exact (begins_only _).mul.mul.heads.not_mem comma
      rw [parameters]
      split
      · refine Tracks.look (fun _ => current_over ..) ?_
        exact Tracks.report rfl listed
      · exact listed

theorem loopInitializer_tracks : Follows (loopInitializer depth) initializers K := by
  intro before pending closed
  obtain ⟨t, rest, rfl⟩ := List.exists_cons_of_ne_nil closed.ne_nil
  have begins : Begins initializers fun _ => True :=
    .add (.add (begins_just trivial) (begins_just_mul trivial))
      (begins_expressions.mul.mono fun _ _ => trivial)
  have noClause (other : t.kind ≠ .symbol .semicolon) :
      ∀ w, t.kind :: w ∉ just (.symbol .semicolon) :=
    fun w => (begins_only _).heads.not_mem other
  have noVariable (other : t.kind ≠ .keyword .kwVar) :
      ∀ w, t.kind :: w ∉ just (.keyword .kwVar) * bindings :=
    fun w => (begins_only _).mul.heads.not_mem other
  have noExpression (other : ¬BeginsExpression t.kind) :
      ∀ w, t.kind :: w ∉ expressions * just (.symbol .semicolon) :=
    fun w => begins_expressions.mul.heads.not_mem other
  rw [loopInitializer]
  by_cases semicolon : t.kind = .symbol .semicolon
  · have empty : Tracks (loopInitializer depth) (just (.symbol .semicolon) * 1) K before
        (t :: rest) := Tracks.eats closed semicolon (by simp) tracks_pure
    rw [mul_one] at empty
    refine Tracks.choose empty begins (fun _ member => .inl (.inl member)) fun w member => ?_
    have other : ¬BeginsExpression t.kind := by simp [semicolon, BeginsExpression, BeginsPrimary]
    have first := member.resolve_right (noExpression other w)
    exact first.resolve_right (noVariable (by simp [semicolon]) w)
  refine Tracks.skips semicolon ?_
  by_cases kind : t.kind = .keyword .kwVar
  · refine Tracks.choose (A := just (.keyword .kwVar) * bindings) ?_ begins
      (fun _ member => .inl (.inr member)) fun w member => ?_
    · exact Tracks.eats closed kind (by simp) fun closedRest =>
        (variableDeclaration_tracks closedRest).map
    · have other : ¬BeginsExpression t.kind := by simp [kind, BeginsExpression, BeginsPrimary]
      have first := member.resolve_right (noExpression other w)
      exact first.resolve_left (noClause semicolon w)
  · refine Tracks.choose (A := expressions * just (.symbol .semicolon)) ?_ begins
      (fun _ member => .inr member) fun w member => ?_
    · exact Tracks.skips kind (closed_expression_tracks .expression closed).map
    · exact member.resolve_left fun first => first.elim (noClause semicolon w) (noVariable kind w)

theorem loopClause_tracks {stop : Kind} {what : Expectation} (stops : Stops stop)
    (apart : ¬BeginsExpression stop) (inside : stop ≠ .eof) :
    Follows (loopClause stop what depth) (clauses * just stop) K := by
  intro before pending closed
  obtain ⟨t, rest, rfl⟩ := List.exists_cons_of_ne_nil closed.ne_nil
  have finish : ∀ clause : Option Expr, Follows (do
      let _ ← expect stop what
      pure clause) (just stop) K := by
    intro clause before pending closed
    obtain ⟨t, rest, rfl⟩ := List.exists_cons_of_ne_nil closed.ne_nil
    exact Tracks.ends closed inside fun _ _ _ closed => tracks_pure closed
  rw [loopClause, clauses]
  apply Tracks.checks
  · intro same
    refine Tracks.bind (Tracks.absent (tracks_pure closed) fun w => ?_) finish
    exact begins_expressions.mul.heads.not_mem (same ▸ apart)
  · intro other
    have next : Heads (just stop * K) Stops := (begins_just_mul stops).heads
    refine Tracks.bind (Tracks.present ?_ fun w => ?_) finish
    · exact ((expressions_track depth).expression next closed).map
    · exact (begins_only _).mul.heads.not_mem other

theorem condition_tracks {A : Language Kind} {opens closes : Expectation} {f : Expr → Parser Stmt}
    [Productive A] [∀ e, Keeps (f e)] (later : ∀ e, Follows (f e) A K) :
    Follows (do
        let _ ← expect (.symbol .leftParen) opens
        let condition ← expression depth
        let _ ← expect (.symbol .rightParen) closes
        f condition) (guarded A) K := by
  intro before pending closed
  obtain ⟨opening, rest, rfl⟩ := List.exists_cons_of_ne_nil closed.ne_nil
  rw [guarded]
  refine Tracks.expects closed (by simp) fun _ closedRest => ?_
  have next : Heads (just (.symbol .rightParen) * A * K) Stops :=
    (begins_just_mul stops_rightParen).mul.heads
  refine Tracks.bind ((expressions_track depth).expression next closedRest) fun condition => ?_
  intro before pending closed
  obtain ⟨closing, rest, rfl⟩ := List.exists_cons_of_ne_nil closed.ne_nil
  exact Tracks.expects closed (by simp) fun _ closedRest => later condition closedRest

end Simple

/-- What begins with `else` goes on as a statement and what comes behind. -/
def TakesElse (K : Language Kind) : Prop :=
  ∀ w, .keyword .kwElse :: w ∈ K → w ∈ statements * K

theorem takesElse_of_heads {K : Language Kind} (heads : Heads K (· ≠ .keyword .kwElse)) :
    TakesElse K := fun _ member => absurd member (heads.not_mem (not_not_intro rfl))

theorem declaration_ne_else {kind : Kind} (begins : BeginsDeclaration kind) :
    kind ≠ .keyword .kwElse :=
  begins_declaration_ne _ begins
    (by simp [BeginsDeclaration, BeginsStatement, BeginsExpression, BeginsPrimary])

/-- The branch of a condition may be followed by another one, so it leaves each `else` there. -/
theorem TakesElse.alternatives {K : Language Kind} (takes : TakesElse K) :
    TakesElse (alternatives * K) := by
  intro w member
  have within : K ≤ Grammar.Lenient.alternatives * K := by
    rw [Grammar.Lenient.alternatives, one_add_mul]
    exact fun _ member => .inl member
  refine mul_le_mul_right within statements ?_
  rw [Grammar.Lenient.alternatives, one_add_mul, mul_assoc] at member
  rcases member with behind | other
  · exact takes w behind
  · exact (cons_mem_just_mul.mp other).2

structure StatementsTrack (depth : Nat) : Prop where
  declaration : ∀ {K : Language Kind} [Productive K] (inFunction : Bool), TakesElse K →
    Follows (declaration depth inFunction) (formed .declaration) K
  statement : ∀ {K : Language Kind} [Productive K] (inFunction : Bool), TakesElse K →
    Follows (statement depth inFunction) statements K
  block : ∀ {K : Language Kind} [Productive K] (inFunction : Bool) (done : Array Stmt),
    Follows (block depth inFunction done) (bodies * just (.symbol .rightBrace)) K

section Step

variable {depth : Nat} (below : StatementsTrack depth) {K : Language Kind} [Productive K]
  (inFunction : Bool)

include below

theorem block_tracks (done : Array Stmt) :
    Follows (block (depth + 1) inFunction done) (bodies * just (.symbol .rightBrace)) K := by
  intro before pending closed
  obtain ⟨t, rest, rfl⟩ := List.exists_cons_of_ne_nil closed.ne_nil
  rw [block, bodies_eq]
  refine Tracks.look (fun _ => check_over ..) ?_
  refine Tracks.look (fun _ => atEnd_over ..) ?_
  split
  · rename_i ending
    refine Tracks.without ?_ fun w => begins_declaration.mul.mul.mul.heads.not_mem fun begins => ?_
    · exact Tracks.ends closed (by simp) fun _ _ _ closed => tracks_pure closed
    · rw [Bool.or_eq_true, beq_iff_eq, beq_iff_eq] at ending
      rcases ending with kind | kind <;>
        simp [kind, BeginsDeclaration, BeginsStatement, BeginsExpression, BeginsPrimary] at begins
  · rename_i within
    refine Tracks.within ?_ fun w => (begins_only _).mul.heads.not_mem fun kind => ?_
    · rw [mul_assoc]
      have brace : Heads (just (.symbol .rightBrace) * K) (· ≠ .keyword .kwElse) :=
        (begins_just_mul (by simp)).heads
      have next : TakesElse (bodies * just (.symbol .rightBrace) * K) := by
        rw [mul_assoc]
        exact takesElse_of_heads (brace.bodies fun _ => declaration_ne_else)
      refine Tracks.bindKeeping ?_ (below.declaration inFunction next closed).recovering ?_
      · intro found
        cases found <;> infer_instance
      · intro found
        cases found with
        | none => exact below.block inFunction done
        | some s => exact below.block inFunction (done.push s)
    · simp [kind] at within

theorem functionBody_tracks (name : Token) (params : List Token) :
    Follows (do
        let _ ← expect (.symbol .rightParen) .parenAfterParameters
        let _ ← expect (.symbol .leftBrace) .braceBeforeBody
        let body ← block depth true #[]
        pure (Stmt.function name params body))
      (just (.symbol .rightParen) * (just (.symbol .leftBrace) *
        (bodies * just (.symbol .rightBrace)))) K := by
  intro before pending closed
  obtain ⟨closing, rest, rfl⟩ := List.exists_cons_of_ne_nil closed.ne_nil
  refine Tracks.expects closed (by simp) fun _ closed => ?_
  obtain ⟨brace, rest, rfl⟩ := List.exists_cons_of_ne_nil closed.ne_nil
  refine Tracks.expects closed (by simp) fun _ closed => ?_
  exact (below.block true #[] closed).finish fun _ _ _ closed => tracks_pure closed

theorem function_tracks : Follows (do
    let name ← expect .identifier .functionName
    let _ ← expect (.symbol .leftParen) .parenAfterFunctionName
    let params ← if ← check (.symbol .rightParen) then pure [] else parameters depth #[]
    let _ ← expect (.symbol .rightParen) .parenAfterParameters
    let _ ← expect (.symbol .leftBrace) .braceBeforeBody
    let body ← block depth true #[]
    pure (Stmt.function name params body)) functions K := by
  intro before pending closed
  obtain ⟨name, rest, rfl⟩ := List.exists_cons_of_ne_nil closed.ne_nil
  rw [functions]
  refine Tracks.expects closed (by simp) fun _ closed => ?_
  obtain ⟨opening, rest, rfl⟩ := List.exists_cons_of_ne_nil closed.ne_nil
  refine Tracks.expects closed (by simp) fun _ closed => ?_
  obtain ⟨t, rest, rfl⟩ := List.exists_cons_of_ne_nil closed.ne_nil
  have identifier : Begins names (· = .identifier) := (begins_only _).mul
  rw [Grammar.Lenient.parameters]
  apply Tracks.checks
  · intro right
    refine Tracks.bind (Tracks.absent (tracks_pure closed) fun w => ?_)
      (functionBody_tracks below _)
    exact identifier.mul.heads.not_mem (by simp [right])
  · intro other
    have next : Heads (just (.symbol .rightParen) * (just (.symbol .leftBrace) *
        (bodies * just (.symbol .rightBrace))) * K) (· ≠ .symbol .comma) :=
      (begins_just_mul (by simp)).mul.heads
    refine Tracks.bind (Tracks.present (parameters_track #[] next closed) fun w => ?_)
      (functionBody_tracks below _)
    exact (begins_only _).mul.mul.heads.not_mem other

theorem declaration_tracks (takes : TakesElse K) :
    Follows (declaration (depth + 1) inFunction) (formed .declaration) K := by
  intro before pending closed
  obtain ⟨t, rest, rfl⟩ := List.exists_cons_of_ne_nil closed.ne_nil
  have noStatement (other : ¬BeginsStatement t.kind) : ∀ w, t.kind :: w ∉ statements :=
    fun w => begins_statements.heads.not_mem other
  have noVariable (other : t.kind ≠ .keyword .kwVar) :
      ∀ w, t.kind :: w ∉ just (.keyword .kwVar) * bindings :=
    fun w => (begins_only _).mul.heads.not_mem other
  have noFunction (other : t.kind ≠ .keyword .kwFunc) :
      ∀ w, t.kind :: w ∉ just (.keyword .kwFunc) * functions :=
    fun w => (begins_only _).mul.heads.not_mem other
  rw [declaration, declaration_eq]
  have begins := declaration_eq ▸ begins_declaration
  by_cases isFunction : t.kind = .keyword .kwFunc
  · refine Tracks.choose (A := just (.keyword .kwFunc) * functions) ?_ begins
      (fun _ member => .inl (.inl member)) fun w member => ?_
    · exact Tracks.eats closed isFunction (by simp) fun closed => function_tracks below closed
    · have other : ¬BeginsStatement t.kind := by
        simp [isFunction, BeginsStatement, BeginsExpression, BeginsPrimary]
      have first := member.resolve_right (noStatement other w)
      exact first.resolve_right (noVariable (by simp [isFunction]) w)
  refine Tracks.skips isFunction ?_
  by_cases isVariable : t.kind = .keyword .kwVar
  · refine Tracks.choose (A := just (.keyword .kwVar) * bindings) ?_ begins
      (fun _ member => .inl (.inr member)) fun w member => ?_
    · exact Tracks.eats closed isVariable (by simp) fun closed => variableDeclaration_tracks closed
    · have other : ¬BeginsStatement t.kind := by
        simp [isVariable, BeginsStatement, BeginsExpression, BeginsPrimary]
      have first := member.resolve_right (noStatement other w)
      exact first.resolve_left (noFunction isFunction w)
  refine Tracks.skips isVariable ?_
  refine Tracks.choose (below.statement inFunction takes closed) begins
    (fun _ member => .inr member) fun w member => ?_
  exact member.resolve_left fun first =>
    first.elim (noFunction isFunction w) (noVariable isVariable w)

theorem if_tracks (takes : TakesElse K) : Follows (do
    let _ ← expect (.symbol .leftParen) .parenAfterIf
    let condition ← expression depth
    let _ ← expect (.symbol .rightParen) .parenAfterIfCondition
    let thenBranch ← statement depth inFunction
    if ← eat (.keyword .kwElse) then
      let elseBranch ← statement depth inFunction
      pure (Stmt.ifElse condition thenBranch elseBranch)
    else
      pure (Stmt.ifThen condition thenBranch)) (guarded (statements * alternatives)) K := by
  refine condition_tracks fun condition => ?_
  intro before pending closed
  refine Tracks.bind (below.statement inFunction takes.alternatives closed) fun branch => ?_
  intro before pending closed
  obtain ⟨t, rest, rfl⟩ := List.exists_cons_of_ne_nil closed.ne_nil
  by_cases divider : t.kind = .keyword .kwElse
  · refine Tracks.narrow (A := just (.keyword .kwElse) * statements) ?_
      (fun _ member => .inr member) fun w member => ?_
    · refine Tracks.eats closed divider (by simp) fun closed => ?_
      exact (below.statement inFunction takes closed).finish fun _ _ _ closed => tracks_pure closed
    · rw [divider] at member ⊢
      rw [alternatives, one_add_mul] at member
      rw [mul_assoc] at member ⊢
      exact member.elim (fun behind => cons_mem (takes w behind)) id
  · refine Tracks.absent (Tracks.skips divider (tracks_pure closed)) fun w => ?_
    exact (begins_only _).mul.mul.heads.not_mem divider

theorem while_tracks (takes : TakesElse K) : Follows (do
    let _ ← expect (.symbol .leftParen) .parenAfterWhile
    let condition ← expression depth
    let _ ← expect (.symbol .rightParen) .parenAfterCondition
    let body ← statement depth inFunction
    pure (Stmt.loop condition body)) (guarded statements) K := by
  refine condition_tracks fun condition => ?_
  intro before pending closed
  exact (below.statement inFunction takes closed).finish fun _ _ _ closed => tracks_pure closed

theorem for_tracks (takes : TakesElse K) : Follows (do
    let _ ← expect (.symbol .leftParen) .parenAfterFor
    let initializer ← loopInitializer depth
    let condition ← loopClause (.symbol .semicolon) .semicolonAfterLoopCondition depth
    let increment ← loopClause (.symbol .rightParen) .parenAfterForClauses depth
    let body ← statement depth inFunction
    pure (desugarFor initializer condition increment body)) looped K := by
  intro before pending closed
  obtain ⟨opening, rest, rfl⟩ := List.exists_cons_of_ne_nil closed.ne_nil
  rw [looped, ← mul_assoc clauses (just _) (_ * _), ← mul_assoc clauses (just _) statements]
  refine Tracks.expects closed (by simp) fun _ closed => ?_
  refine Tracks.bind (loopInitializer_tracks closed) fun initializer => ?_
  intro before pending closed
  refine Tracks.bind (loopClause_tracks stops_semicolon
    (by simp [BeginsExpression, BeginsPrimary]) (by simp) closed) fun condition => ?_
  intro before pending closed
  refine Tracks.bind (loopClause_tracks stops_rightParen
    (by simp [BeginsExpression, BeginsPrimary]) (by simp) closed) fun increment => ?_
  intro before pending closed
  exact (below.statement inFunction takes closed).finish fun _ _ _ closed => tracks_pure closed

theorem statement_tracks (takes : TakesElse K) :
    Follows (statement (depth + 1) inFunction) statements K := by
  intro before pending closed
  obtain ⟨t, rest, rfl⟩ := List.exists_cons_of_ne_nil closed.ne_nil
  -- a statement that its first token tells
  have told : ∀ {kind : Kind} {p : Parser Stmt}, t.kind = kind → ¬BeginsExpression kind →
      Tracks p (just kind * behind kind) K before (t :: rest) →
      Tracks p statements K before (t :: rest) := by
    intro kind p same other tracks
    refine tracks.choose begins_statements (just_mul_behind_le kind) fun w member => ?_
    rw [same] at member ⊢
    refine cons_mem ((statements_head member).resolve_right ?_)
    exact begins_expressions.mul.heads.not_mem other
  rw [statement]
  refine Tracks.look (fun _ => current_over ..) ?_
  split
  · rename_i kind
    refine told kind (by simp [BeginsExpression, BeginsPrimary]) ?_
    exact Tracks.advance closed kind (by simp) fun closed =>
      for_tracks below inFunction takes closed
  · rename_i kind
    refine told kind (by simp [BeginsExpression, BeginsPrimary]) ?_
    exact Tracks.advance closed kind (by simp) fun closed => if_tracks below inFunction takes closed
  · rename_i kind
    refine told kind (by simp [BeginsExpression, BeginsPrimary]) ?_
    exact Tracks.advance closed kind (by simp) fun closed => closed_expression_tracks .print closed
  · rename_i kind
    refine told kind (by simp [BeginsExpression, BeginsPrimary]) ?_
    exact Tracks.advance closed kind (by simp) fun closed =>
      returnStatement_tracks inFunction _ closed
  · rename_i kind
    refine told kind (by simp [BeginsExpression, BeginsPrimary]) ?_
    exact Tracks.advance closed kind (by simp) fun closed =>
      while_tracks below inFunction takes closed
  · rename_i kind
    refine told kind (by simp [BeginsExpression, BeginsPrimary]) ?_
    exact Tracks.advance closed kind (by simp) fun closed => (below.block inFunction #[] closed).map
  · rename_i notFor notIf notPrint notReturn notWhile notBlock
    refine Tracks.choose (closed_expression_tracks .expression closed) begins_statements ?_ ?_
    · exact fun _ member => statements_eq ▸ .inr member
    · intro w member
      refine (statements_head member).resolve_left fun known => ?_
      unfold behind at known
      split at known <;> contradiction

end Step

/-- The parsers of statements track their languages at every depth. -/
theorem statements_track (depth : Nat) : StatementsTrack depth := by
  induction depth with
  | zero =>
      refine ⟨?_, ?_, ?_⟩
      · intro K _ _ _ before pending _
        rw [declaration]
        exact tracks_tooDeep
      · intro K _ _ _ before pending _
        rw [statement]
        exact tracks_tooDeep
      · intro K _ _ _ before pending _
        rw [block]
        exact tracks_tooDeep
  | succ depth below =>
      exact {
        declaration := declaration_tracks below
        statement := statement_tracks below
        block := block_tracks below }

theorem declarations_track (depth : Nat) (done : Array Stmt) :
    Follows (declarations depth done) bodies (just .eof) := by
  induction depth generalizing done with
  | zero =>
      intro before pending _
      rw [declarations]
      exact tracks_tooDeep
  | succ depth ih =>
      intro before pending closed
      obtain ⟨t, rest, rfl⟩ := List.exists_cons_of_ne_nil closed.ne_nil
      rw [declarations, bodies_eq]
      refine Tracks.look (fun _ => atEnd_over ..) ?_
      split
      · rename_i isEnd
        refine Tracks.absent (tracks_pure closed) fun w => ?_
        refine begins_declaration.mul.mul.heads.not_mem ?_
        rw [beq_iff_eq.mp isEnd]
        simp [BeginsDeclaration, BeginsStatement, BeginsExpression, BeginsPrimary]
      · rename_i inside
        refine Tracks.present ?_ fun w => (begins_only _).heads.not_mem fun isEnd => ?_
        · have last : Heads (just .eof) (· ≠ .keyword .kwElse) := (begins_just (by simp)).heads
          have next : TakesElse (bodies * just .eof) :=
            takesElse_of_heads (last.bodies fun _ => declaration_ne_else)
          refine Tracks.bindKeeping ?_
            ((statements_track depth).declaration false next closed).recovering ?_
          · intro found
            cases found <;> infer_instance
          · intro found
            cases found with
            | none => exact ih done
            | some s => exact ih (done.push s)
        · simp [isEnd] at inside

end Jess.Parser
