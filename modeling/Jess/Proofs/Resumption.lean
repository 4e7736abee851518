import Jess.Proofs.Concatenation
import Jess.Proofs.StatementReading
import Jess.Token.Reading

/-!
# Where reading resumes after a missing semicolon

The semicolon that should end a print statement is missed at the token behind
the expression. Recovery skips that token in any case, also if a statement
begins there, and goes on to the next boundary. What is read from there on is
read as if it stood alone. So a mistake in the statement that follows is
reported just if it is still one behind that boundary, and the first mistake of
a statement may go unreported.
-/

namespace Jess.Parser

open Token (Kind KindSet)
open Grammar

/-- The tokens from a place on. -/
def Cursor.ahead (c : Cursor) : List Token := c.current :: c.after

/-- What is left of some tokens when recovery from a mistake at the first one is over. -/
def resumption (tokens : List Token) : List Token := (Cursor.over [] tokens).toBoundary.ahead

theorem skip_ahead (u t : Token) (rest before before' : List Token) :
    (Cursor.skip (u :: before) t rest).ahead = (Cursor.skip (u :: before') t rest).ahead := by
  induction rest generalizing u t before before' with
  | nil => rfl
  | cons next rest ih =>
      have same : Cursor.atBoundary ⟨u :: before, t, next :: rest⟩ =
          Cursor.atBoundary ⟨u :: before', t, next :: rest⟩ := rfl
      rw [Cursor.skip, Cursor.skip, same]
      split
      · rfl
      · exact ih t next (u :: before) (u :: before')

theorem skip_split (before : List Token) (t : Token) (rest : List Token) :
    ∃ skipped, t :: rest = skipped ++ (Cursor.skip before t rest).ahead ∧
      ∀ u ∈ skipped, u.kind ≠ .eof := by
  induction rest generalizing t before with
  | nil => exact ⟨[], rfl, List.forall_mem_nil _⟩
  | cons next rest ih =>
      rw [Cursor.skip]
      split
      · exact ⟨[], rfl, List.forall_mem_nil _⟩
      · rename_i within
        have inside : t.kind ≠ .eof := by
          intro eof
          simp [Cursor.atBoundary, Cursor.atEnd, Cursor.kind, eof] at within
        obtain ⟨skipped, whole, none⟩ := ih (t :: before) next
        exact ⟨t :: skipped, congrArg (t :: ·) whole, List.forall_mem_cons.mpr ⟨inside, none⟩⟩

section Recovery

variable {t : Token} {rest : List Token} (inside : t.kind ≠ .eof)
  (closes : ∃ u ∈ rest, u.kind = .eof)

include inside closes

theorem toBoundary_over (before : List Token) :
    (Cursor.over before (t :: rest)).toBoundary =
      Cursor.over (Cursor.over before (t :: rest)).toBoundary.before (resumption (t :: rest)) := by
  have same : (Cursor.over before (t :: rest)).toBoundary.ahead = resumption (t :: rest) := by
    obtain ⟨u, member, _⟩ := closes
    obtain ⟨next, others, rfl⟩ := List.exists_cons_of_ne_nil (List.ne_nil_of_mem member)
    rw [resumption, toBoundary_inside inside, toBoundary_inside inside]
    exact skip_ahead t next others before []
  rw [← same]
  rfl

theorem resumption_split :
    ∃ skipped, rest = skipped ++ resumption (t :: rest) ∧ ∃ u ∈ resumption (t :: rest),
      u.kind = .eof := by
  obtain ⟨last, member, atEnd⟩ := closes
  obtain ⟨next, others, rfl⟩ := List.exists_cons_of_ne_nil (List.ne_nil_of_mem member)
  rw [resumption, toBoundary_inside inside]
  obtain ⟨skipped, whole, none⟩ := skip_split [t] next others
  refine ⟨skipped, whole, last, ?_, atEnd⟩
  rw [whole] at member
  cases List.mem_append.mp member with
  | inl skips => exact absurd atEnd (none last skips)
  | inr ahead => exact ahead

end Recovery

theorem stops_statementStart {kind : Kind} (begins : KindSet.statementStart.contains kind = true) :
    Stops kind := by
  have member := KindSet.contains_statementStart.mp begins
  simp only [List.mem_cons, List.not_mem_nil, or_false] at member
  obtain rfl | rfl | rfl | rfl | rfl | rfl | rfl | rfl | rfl := member <;>
    simp [Stops, StopsChain, InfixOp.ofKind?]

section Missing

variable {keyword next : Token} {e : Expr} {tokens rest : List Token}

theorem declaration_print (prints : keyword.kind = .keyword .kwPrint) (more : rest ≠ [])
    (depth : Nat) (inFunction : Bool) (before : List Token) (complaints : Array Complaint) :
    declaration (depth + 2) inFunction (.over before (keyword :: rest) complaints) =
      printStatement depth (.over (keyword :: before) rest complaints) := by
  have notFunction : keyword.kind ≠ .keyword .kwFunc := by simp [prints]
  have notVariable : keyword.kind ≠ .keyword .kwVar := by simp [prints]
  have inside : keyword.kind ≠ .eof := by simp [prints]
  rw [declaration, bind_of_ok (eat_over_of_ne _ _ _ _ notFunction), if_neg Bool.false_ne_true,
    bind_of_ok (eat_over_of_ne _ _ _ _ notVariable), if_neg Bool.false_ne_true, statement,
    bind_of_ok (current_over ..), prints]
  exact bind_of_ok (advance_over _ _ _ _ inside more)

theorem printStatement_misses (value : IsExpression e tokens)
    (begins : KindSet.statementStart.contains next.kind = true) {depth : Nat}
    (enough : 8 * tokens.length + 4 ≤ depth) (before : List Token) (complaints : Array Complaint) :
    printStatement depth (.over before (tokens ++ next :: rest) complaints) =
      .error .unwound (.over (tokens.reverse ++ before) (next :: rest)
        (complaints.push ⟨next, .expected .semicolonAfterValue⟩)) := by
  have read := expression_reads value depth before next rest complaints enough
    (stops_statementStart begins)
  have other : next.kind ≠ .symbol .semicolon := by
    intro same
    have member := KindSet.contains_statementStart.mp begins
    simp [same] at member
  rw [printStatement, bind_of_ok read, bind_apply, closedBy, bind_apply,
    expect_over_of_ne _ _ _ _ other]
  rfl

theorem declaration_misses (prints : keyword.kind = .keyword .kwPrint)
    (value : IsExpression e tokens) (begins : KindSet.statementStart.contains next.kind = true)
    {depth : Nat} (enough : 8 * tokens.length + 4 ≤ depth) (before : List Token)
    (complaints : Array Complaint) :
    recovering (declaration (depth + 2) false)
        (.over before (keyword :: (tokens ++ next :: rest)) complaints) =
      .ok none ⟨(Cursor.over (tokens.reverse ++ keyword :: before) (next :: rest)).toBoundary,
        complaints.push ⟨next, .expected .semicolonAfterValue⟩⟩ := by
  rw [recovering, declaration_print prints (by simp), printStatement_misses value begins enough]

/-- A print statement without its semicolon, and a statement behind it: what is missing is
reported, and then whatever is reported about what recovery leaves of the statement. -/
theorem read_missing_semicolon (prints : keyword.kind = .keyword .kwPrint)
    (value : IsExpression e tokens) (begins : KindSet.statementStart.contains next.kind = true)
    (closes : ∃ t ∈ rest, t.kind = .eof) :
    read (keyword :: tokens ++ next :: rest) =
      ⟨(read (resumption (next :: rest))).statements, ⟨next, .expected .semicolonAfterValue⟩ ::
        (read (resumption (next :: rest))).complaints⟩ := by
  have inside : next.kind ≠ .eof := by
    intro eof
    have member := KindSet.contains_statementStart.mp begins
    simp [eof] at member
  obtain ⟨skipped, whole, closesLeft⟩ := resumption_split inside closes
  have closesAll : ∃ t ∈ keyword :: tokens ++ next :: rest, t.kind = .eof := by
    obtain ⟨t, member, atEnd⟩ := closes
    exact ⟨t, List.mem_append_right _ (List.mem_cons_of_mem _ member), atEnd⟩
  obtain ⟨n, size⟩ : ∃ n, n = (keyword :: tokens ++ next :: rest).length := ⟨_, rfl⟩
  have longer : tokens.length + (resumption (next :: rest)).length + 2 ≤ n := by
    have left := congrArg List.length whole
    simp only [List.length_append] at left
    simp only [size, List.length_append, List.length_cons]
    omega
  have enough : enoughDepth (resumption (next :: rest)).length ≤ 8 * n + 5 + 2 := by
    simp only [enoughDepth]
    omega
  have depth : enoughDepth (keyword :: tokens ++ next :: rest).length = 8 * n + 5 + 2 + 1 := by
    rw [enoughDepth, size]
  have all := declarations_read closesAll (Nat.le_refl _) #[] [] #[]
  rw [depth, List.cons_append, declarations_inside (by simp [prints]),
    bind_of_ok (declaration_misses prints value begins (by omega) [] #[]),
    toBoundary_over inside closes] at all
  generalize (Cursor.over (tokens.reverse ++ [keyword]) (next :: rest)).toBoundary.before = before
    at all
  have left : Yields _ (#[] ++ [].toArray) (#[] ++ #[⟨next, .expected .semicolonAfterValue⟩]) _ :=
    declarations_read closesLeft enough #[] before #[⟨next, .expected .semicolonAfterValue⟩]
  exact all.unique left.behind

/-- Behind a print statement without its semicolon, something is reported about the next statement
just if what recovery leaves of it is mistaken when it stands alone. -/
theorem next_reported_iff (prints : keyword.kind = .keyword .kwPrint)
    (value : IsExpression e tokens) (begins : KindSet.statementStart.contains next.kind = true)
    (closes : ∃ t ∈ rest, t.kind = .eof) :
    (read (keyword :: tokens ++ next :: rest)).complaints =
        ⟨next, .expected .semicolonAfterValue⟩ ::
          (read (resumption (next :: rest))).complaints ∧
      (2 ≤ (read (keyword :: tokens ++ next :: rest)).errorCount ↔
        (read (resumption (next :: rest))).isClean = false) := by
  rw [read_missing_semicolon prints value begins closes]
  refine ⟨rfl, ?_⟩
  cases left : (read (resumption (next :: rest))).complaints with
  | nil => simp [Outcome.errorCount, Outcome.isClean, left]
  | cons x others => simp [Outcome.errorCount, Outcome.isClean, left]

end Missing

private def mistakenBranch : List Token :=
  [.symbol .leftParen, .keyword .kwNil, .symbol .rightParen, .keyword .kwPrint,
    .symbol .semicolon].map bareToken ++ [Token.eof 1 0]

theorem next_reported_branch :
    2 ≤ (read (bareToken (.keyword .kwPrint) :: [bareToken (.keyword .kwNil)] ++
      bareToken (.keyword .kwIf) :: mistakenBranch)).errorCount := by
  have constant : IsExpression (.literal .nil) [bareToken (.keyword .kwNil)] :=
    (Derives.literal (.nothing rfl)).loosen .assignment (by decide)
  have begins : KindSet.statementStart.contains (bareToken (.keyword .kwIf)).kind = true := by
    decide
  have closes : ∃ t ∈ mistakenBranch, t.kind = .eof := ⟨Token.eof 1 0, by decide, rfl⟩
  exact (next_reported_iff rfl constant begins closes).2.mpr (by decide +kernel)

/-- A mistaken declaration behind a print statement without its semicolon. The declaration alone
is reported, and so is the missing semicolon, but not both of them. -/
theorem declaration_unreported :
    (read (Token.scan "print nil;").1).isClean = true ∧
      (read (Token.scan "var ;").1).errorCount = 1 ∧
      (read (Token.scan "print nil\nvar ;").1).diagnostics.map Diagnostic.text =
        ["[line 2] Error at 'var': Expect ';' after value."] := by
  decide +kernel

end Jess.Parser
