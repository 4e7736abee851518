import Jess.Proofs.Nesting
import Jess.Proofs.Resumption

/-!
# A missing semicolon before a closing brace

The semicolon that should end the last statement of a block is missed at the
brace that closes the block. Recovery skips the brace, as it skips any token
that it starts at, and goes on to the next boundary. So the block stays open,
and what stands behind that boundary is read as if it belonged to the block.
There is one complaint only if the tokens that lead into the block, and those
from the boundary on, are without mistake when they stand together.
-/

namespace Jess.Parser

open Token (Kind)
open Grammar

/-- A simple statement or the declaration of a variable without its semicolon, and what is expected
behind it. Behind `return` that is an expression as well. -/
inductive Unended : (inFunction : Bool) → Expectation → List Token → Prop
  | print {inFunction : Bool} {keyword : Token} {e : Expr} {tokens : List Token}
      (kind : keyword.kind = .keyword .kwPrint) (value : IsExpression e tokens) :
      Unended inFunction .semicolonAfterValue (keyword :: tokens)
  | declared {inFunction : Bool} {keyword name : Token} (kind : keyword.kind = .keyword .kwVar)
      (named : name.kind = .identifier) :
      Unended inFunction .semicolonAfterDeclaration [keyword, name]
  | initialized {inFunction : Bool} {keyword name equals : Token} {e : Expr} {tokens : List Token}
      (kind : keyword.kind = .keyword .kwVar) (named : name.kind = .identifier)
      (sign : equals.kind = .symbol .equal) (value : IsExpression e tokens) :
      Unended inFunction .semicolonAfterDeclaration (keyword :: name :: equals :: tokens)
  | giveBack {keyword : Token} (kind : keyword.kind = .keyword .kwReturn) :
      Unended true .expression [keyword]
  | giveBackValue {keyword : Token} {e : Expr} {tokens : List Token}
      (kind : keyword.kind = .keyword .kwReturn) (value : IsExpression e tokens) :
      Unended true .semicolonAfterReturnValue (keyword :: tokens)
  | expression {inFunction : Bool} {e : Expr} {tokens : List Token}
      (value : IsExpression e tokens) :
      Unended inFunction .semicolonAfterExpression tokens

theorem unended_begins {inFunction : Bool} {what : Expectation} {tokens : List Token}
    (unended : Unended inFunction what tokens) :
    ∃ t rest, tokens = t :: rest ∧ BeginsDeclaration t.kind := by
  cases unended with
  | print kind value => exact ⟨_, _, rfl, .inl (.inr (by simp [kind]))⟩
  | declared kind _ => exact ⟨_, _, rfl, .inr (.inr kind)⟩
  | initialized kind _ _ _ => exact ⟨_, _, rfl, .inr (.inr kind)⟩
  | giveBack kind => exact ⟨_, _, rfl, .inl (.inr (by simp [kind]))⟩
  | giveBackValue kind _ => exact ⟨_, _, rfl, .inl (.inr (by simp [kind]))⟩
  | expression value =>
      obtain ⟨t, rest, rfl, begins⟩ := begins_of_expression value
      exact ⟨t, rest, rfl, .inl (.inl begins)⟩

section Missing

variable {brace : Token} {before rest : List Token} {complaints : Array Complaint}

theorem stops_rightBrace : Stops (.symbol .rightBrace) := by
  simp [Stops, StopsChain, InfixOp.ofKind?]

theorem closedBy_misses {what : Expectation} (other : brace.kind ≠ .symbol .semicolon) :
    closedBy what (.over before (brace :: rest) complaints) =
      .error .unwound (.over before (brace :: rest) (complaints.push ⟨brace, .expected what⟩)) := by
  rw [closedBy, bind_apply, expect_over_of_ne _ _ _ _ other]
  rfl

variable (right : brace.kind = .symbol .rightBrace)

include right

theorem closed_misses {α : Type} {what : Expectation} {k : Expr → Parser α} {depth : Nat} {e : Expr}
    {tokens : List Token} (value : IsExpression e tokens) (enough : 8 * tokens.length + 4 ≤ depth) :
    (expression depth >>= fun e => closedBy what >>= fun _ => k e)
      (.over before (tokens ++ brace :: rest) complaints) =
    .error .unwound (.over (tokens.reverse ++ before) (brace :: rest)
      (complaints.push ⟨brace, .expected what⟩)) := by
  have read := expression_reads value depth before brace rest complaints enough
    (right ▸ stops_rightBrace)
  rw [bind_of_ok read, bind_apply, closedBy_misses (by simp [right])]

theorem expression_misses (depth : Nat) :
    expression (depth + 4) (.over before (brace :: rest) complaints) =
      .error .unwound (.over before (brace :: rest)
        (complaints.push ⟨brace, .expected .expression⟩)) := by
  have none : prefixes (.over before (brace :: rest) complaints) =
      .ok [] (.over before (brace :: rest) complaints) := by
    have noPrefix : UnaryOp.ofKind? brace.kind = none := by simp [right, UnaryOp.ofKind?]
    cases rest <;> simp [prefixes, skipPrefixes, Cursor.over, noPrefix]
  have noLiteral : literalOf? brace = Option.none := by simp [literalOf?, right]
  have missed : primary (depth + 1) (.over before (brace :: rest) complaints) =
      .error .unwound (.over before (brace :: rest)
        (complaints.push ⟨brace, .expected .expression⟩)) := by
    rw [primary, bind_of_ok (current_over ..), noLiteral]
    simp only [right]
    rfl
  rw [expression, chain, operand, bind_apply, bind_apply, bind_of_ok none, bind_apply, missed]

variable {inFunction : Bool} {what : Expectation} {tokens : List Token}

theorem declaration_misses_brace (unended : Unended inFunction what tokens) {depth : Nat}
    (enough : 8 * tokens.length + 6 ≤ depth) :
    declaration depth inFunction (.over before (tokens ++ brace :: rest) complaints) =
      .error .unwound (.over (tokens.reverse ++ before) (brace :: rest)
        (complaints.push ⟨brace, .expected what⟩)) := by
  obtain ⟨depth, rfl⟩ : ∃ d, depth = d + 2 := ⟨depth - 2, by omega⟩
  cases unended with
  | @print _ keyword e tokens kind value =>
      simp only [List.length_cons] at enough
      have begins : BeginsStatement keyword.kind := .inr (by simp [kind])
      rw [List.cons_append, declaration_of_statement begins,
        print_enters kind depth before _ complaints (by simp), printStatement,
        closed_misses right value (by omega)]
      simp
  | @declared _ keyword name kind named =>
      simp only [List.cons_append, List.nil_append]
      rw [declaration, bind_of_ok (eat_over_of_ne _ _ _ _ (by simp [kind]))]
      simp only [Bool.false_eq_true, if_false]
      rw [bind_of_ok (eat_over _ _ _ _ kind (by simp) (by simp))]
      simp only [if_true, variableDeclaration]
      rw [bind_of_ok (expect_over _ _ _ _ named (by simp) (by simp)),
        bind_of_ok (eat_over_of_ne _ _ _ _ (by simp [right]))]
      simp only [Bool.false_eq_true, if_false]
      rw [bind_apply, closedBy_misses (by simp [right])]
      rfl
  | @initialized _ keyword name equals e tokens kind named sign value =>
      simp only [List.length_cons] at enough
      simp only [List.cons_append]
      rw [declaration, bind_of_ok (eat_over_of_ne _ _ _ _ (by simp [kind]))]
      simp only [Bool.false_eq_true, if_false]
      rw [bind_of_ok (eat_over _ _ _ _ kind (by simp) (by simp))]
      simp only [if_true, variableDeclaration]
      rw [bind_of_ok (expect_over _ _ _ _ named (by simp) (by simp)),
        bind_of_ok (eat_over _ _ _ _ sign (by simp) (by simp))]
      simp only [if_true]
      rw [closed_misses right value (by omega)]
      simp
  | @giveBack keyword kind =>
      obtain ⟨depth, rfl⟩ : ∃ d, depth = d + 4 := ⟨depth - 4, by simp at enough; omega⟩
      have begins : BeginsStatement keyword.kind := .inr (by simp [kind])
      simp only [List.cons_append, List.nil_append]
      rw [declaration_of_statement begins,
        return_enters kind (depth + 4) before _ complaints (by simp), returnStatement]
      simp only [Bool.not_true, Bool.false_eq_true, if_false]
      have notSemicolon : (brace.kind == .symbol .semicolon) = false := by simp [right]
      rw [bind_of_ok (check_over ..), notSemicolon]
      simp only [Bool.false_eq_true, if_false]
      rw [bind_apply, expression_misses right depth]
      rfl
  | @giveBackValue keyword e tokens kind value =>
      simp only [List.length_cons] at enough
      -- A semicolon is looked for before a value is read, and there is none.
      obtain ⟨t, others, rfl, starts⟩ := begins_of_expression value
      have begins : BeginsStatement keyword.kind := .inr (by simp [kind])
      have notSemicolon : (t.kind == .symbol .semicolon) = false := by
        simpa using begins_ne _ starts (by simp [BeginsExpression, BeginsPrimary])
      rw [List.cons_append, declaration_of_statement begins,
        return_enters kind depth before _ complaints (by simp), returnStatement]
      simp only [Bool.not_true, Bool.false_eq_true, if_false, List.cons_append]
      rw [bind_of_ok (check_over ..), notSemicolon]
      simp only [Bool.false_eq_true, if_false]
      rw [← List.cons_append, closed_misses right value
        (by simp only [List.length_cons] at enough ⊢; omega)]
      simp
  | @expression _ e tokens value =>
      obtain ⟨t, others, rfl, starts⟩ := begins_of_expression value
      rw [List.cons_append, declaration_of_statement (.inl starts), statement_of_expression starts,
        expressionStatement, ← List.cons_append, closed_misses right value (by omega)]

end Missing

theorem Closed.alike {tokens : List Token} (closed : Closed tokens) : Alike [] tokens tokens := by
  induction closed with
  | ending isEnd => exact .ended rfl isEnd []
  | more inside _ ih => exact .more inside ih

theorem Closed.exists_end {tokens : List Token} (closed : Closed tokens) :
    ∃ t ∈ tokens, t.kind = .eof := by
  induction closed with
  | @ending t isEnd => exact ⟨t, List.mem_cons_self, isEnd⟩
  | more _ _ ih =>
      obtain ⟨t, member, isEnd⟩ := ih
      exact ⟨t, .tail _ member, isEnd⟩

theorem resumption_closed {t : Token} {rest : List Token} (closed : Closed (t :: rest)) :
    Closed (resumption (t :: rest)) := by
  obtain ⟨used, left, _, closedLeft, moved, _⟩ := toBoundary_closed [] closed
  obtain ⟨u, more, rfl⟩ := List.exists_cons_of_ne_nil closedLeft.ne_nil
  rw [resumption, moved]
  exact closedLeft

section Reading

variable {inner : Bool} {what : Expectation} {brace : Token} {front tokens rest : List Token}

theorem block_misses (right : brace.kind = .symbol .rightBrace)
    (unended : Unended inner what tokens) (closed : Closed rest) {depth : Nat}
    (enough : 8 * tokens.length + 6 ≤ depth) (done : Array Stmt) (before : List Token)
    (complaints : Array Complaint) :
    ∃ before', block (depth + 1) inner done (.over before (tokens ++ brace :: rest) complaints) =
      block depth inner done (.over before' (resumption (brace :: rest))
        (complaints.push ⟨brace, .expected what⟩)) := by
  have inside : brace.kind ≠ .eof := by simp [right]
  have missed : declaration depth inner (.over before (tokens ++ brace :: rest) complaints) = _ :=
    declaration_misses_brace right unended enough
  obtain ⟨t, others, rfl, begins⟩ := unended_begins unended
  obtain ⟨skipped, resumed⟩ : ∃ skipped,
      (Cursor.over ((t :: others).reverse ++ before) (brace :: rest)).toBoundary =
        Cursor.over skipped (resumption (brace :: rest)) :=
    ⟨_, toBoundary_over inside closed.exists_end _⟩
  rw [List.cons_append] at missed ⊢
  have recovered : recovering (declaration depth inner)
      (.over before (t :: (others ++ brace :: rest)) complaints) =
        .ok none (.over skipped (resumption (brace :: rest))
          (complaints.push ⟨brace, .expected what⟩)) := by
    rw [recovering, missed]
    simp only [resumed]
  refine ⟨skipped, (block_each depth done before t _ complaints begins).trans ?_⟩
  rw [bind_of_ok recovered]
  simp

/-- A statement without its semicolon at the end of a block: what is missing is reported at the
brace, and then whatever is reported about the text without the statement, the brace and the tokens
that recovery skips behind it. -/
theorem read_unended (leads : LeadsIn inner front) (unended : Unended inner what tokens)
    (right : brace.kind = .symbol .rightBrace) (closed : Closed rest)
    (apart : ∀ t ∈ (resumption (brace :: rest)).head?, t.kind ≠ .keyword .kwElse) :
    read (front ++ (tokens ++ brace :: rest)) =
      ⟨(read (front ++ resumption (brace :: rest))).statements, ⟨brace, .expected what⟩ ::
        (read (front ++ resumption (brace :: rest))).complaints⟩ := by
  have inside : brace.kind ≠ .eof := by simp [right]
  have closedLeft := resumption_closed (closed.more inside)
  obtain ⟨skipped, whole, _⟩ := resumption_split inside closed.exists_end
  have length := congrArg List.length whole
  rw [List.length_append] at length
  obtain ⟨last, ends, isEnd⟩ := closedLeft.exists_end
  apply read_inStepBut (8 * tokens.length + 7) leads
  · constructor
    · obtain ⟨t, more, same⟩ := List.exists_cons_of_ne_nil closedLeft.ne_nil
      rw [same] at apart
      exact ⟨t, more, same, apart t rfl⟩
    · obtain ⟨t, others, rfl, begins⟩ := unended_begins unended
      exact ⟨t, _, rfl, begins_declaration_ne _ begins
        (by simp [BeginsDeclaration, BeginsStatement, BeginsExpression, BeginsPrimary])⟩
  · intro done depth depth' room before before' c c'
    obtain ⟨d, rfl⟩ : ∃ d, depth' = d + 1 := ⟨depth' - 1, by omega⟩
    obtain ⟨b, same⟩ := block_misses right unended closed (show 8 * tokens.length + 6 ≤ d by omega)
      done before' c'
    have inStep := (statements_inStep (by simp) (show depth ≤ d by omega)).block inner done
      closedLeft.alike
    rw [List.nil_append, List.nil_append, same]
    exact inStep before b c _
  · exact ⟨last, ends, isEnd⟩
  · rw [whole]
    exact ⟨last, by simp [ends], isEnd⟩
  · simp only [List.length_append, List.length_cons]
    omega

/-- There is one error just if the tokens that lead into the block are read without mistake before
what recovery leaves, and what is read of them is read of the whole text. -/
theorem one_error_iff (leads : LeadsIn inner front) (unended : Unended inner what tokens)
    (right : brace.kind = .symbol .rightBrace) (closed : Closed rest)
    (apart : ∀ t ∈ (resumption (brace :: rest)).head?, t.kind ≠ .keyword .kwElse) :
    (read (front ++ (tokens ++ brace :: rest))).statements =
        (read (front ++ resumption (brace :: rest))).statements ∧
      (read (front ++ (tokens ++ brace :: rest))).complaints = ⟨brace, .expected what⟩ ::
        (read (front ++ resumption (brace :: rest))).complaints ∧
      ((read (front ++ (tokens ++ brace :: rest))).errorCount = 1 ↔
        (read (front ++ resumption (brace :: rest))).isClean = true) := by
  rw [read_unended leads unended right closed apart]
  refine ⟨rfl, rfl, ?_⟩
  simp [Outcome.errorCount, Outcome.isClean]

end Reading

theorem two_errors_in_block :
    (read ([bareToken (.symbol .leftBrace)] ++
      ([bareToken (.keyword .kwPrint), bareToken (.keyword .kwNil)] ++
        bareToken (.symbol .rightBrace) :: [bareToken (.keyword .kwPrint),
          bareToken (.keyword .kwNil), bareToken (.symbol .semicolon), Token.eof 1 0]))).errorCount
      ≠ 1 := by
  have leads : LeadsIn false ([] ++ [bareToken (.symbol .leftBrace)]) :=
    .intro .noDeclarations (.statement (.block rfl (.here .noDeclarations)))
  have constant : IsExpression (.literal .nil) [bareToken (.keyword .kwNil)] :=
    (Derives.literal (.nothing rfl)).loosen .assignment (by decide)
  have closed : Closed [bareToken (.keyword .kwPrint), bareToken (.keyword .kwNil),
      bareToken (.symbol .semicolon), Token.eof 1 0] :=
    .more (by decide) (.more (by decide) (.more (by decide) (.ending rfl)))
  intro one
  have clean := (one_error_iff leads (.print rfl constant) rfl closed (by decide)).2.2.mp one
  revert clean
  decide +kernel

/-- With its semicolon the text is read as two statements. Without it no statement is returned, and
the end of the block is missed as well. -/
theorem siblings_discarded :
    (read (Token.scan "{ print nil; } print nil;").1).isClean = true ∧
      (read (Token.scan "{ print nil; } print nil;").1).statements.length = 2 ∧
      (read (Token.scan "{ print nil } print nil;").1).diagnostics.map Diagnostic.text =
        ["[line 1] Error at '" ++ String.singleton '}' ++ "': Expect ';' after value.",
          "[line 1] Error at end: Expect '" ++ String.singleton '}' ++ "' after block."] ∧
      (read (Token.scan "{ print nil } print nil;").1).statements.length = 0 := by
  decide +kernel

end Jess.Parser
