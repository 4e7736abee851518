import Jess.Proofs.ExpressionLocality

/-!
# Statements are read in step

A statement may end right where the texts part, behind its semicolon. There an
`else` would make it go on, so the second text must not go on with one. Whatever
else is to follow inside of a statement cannot follow at the end of the first
text, and recovery from a mistake never skips the token behind a semicolon.
-/

namespace Jess.Parser

open Token (Kind)

variable {later s l : List Token}

theorem skip_behind_semicolon {u : Token} (closes : u.kind = .symbol .semicolon)
    (before : List Token) (t : Token) (rest : List Token) :
    Cursor.skip (u :: before) t rest = Cursor.over (u :: before) (t :: rest) := by
  cases rest with
  | nil => rfl
  | cons next rest =>
      have boundary : Cursor.atBoundary ⟨u :: before, t, next :: rest⟩ = true := by
        simp [Cursor.atBoundary, Cursor.kindBefore, closes]
      rw [Cursor.skip, if_pos boundary]
      rfl

theorem skip_end {t : Token} (isEnd : t.kind = .eof) (before rest : List Token) :
    Cursor.skip before t rest = Cursor.over before (t :: rest) := by
  cases rest with
  | nil => rfl
  | cons next rest =>
      have boundary : Cursor.atBoundary ⟨before, t, next :: rest⟩ = true := by
        simp [Cursor.atBoundary, Cursor.atEnd, Cursor.kind, isEnd]
      rw [Cursor.skip, if_pos boundary]
      rfl

/-- Tokens are skipped alike behind a token that both texts have. -/
theorem skip_alike {t u : Token} (alike : Alike later (t :: s) (t :: l)) :
    ∀ before before', ∃ b b' s' l',
      Cursor.skip (u :: before) t s = Cursor.over b s' ∧
        Cursor.skip (u :: before') t l = Cursor.over b' l' ∧ Beside later s' l' := by
  induction s generalizing t u l with
  | nil =>
      intro before before'
      have isEnd : t.kind = .eof :=
        Decidable.byContradiction fun inside => (alike.tail inside).ne_nil.1 rfl
      exact ⟨_, _, _, _, skip_end isEnd _ _, skip_end isEnd _ _, .alike alike⟩
  | cons next s ih =>
      intro before before'
      have inside : t.kind ≠ .eof := by
        cases alike with
        | parting _ closes => simp [closes]
        | more inside => exact inside
      obtain ⟨next', l, rfl⟩ := List.exists_cons_of_ne_nil (alike.tail inside).ne_nil.2
      have same : Cursor.atBoundary ⟨u :: before, t, next :: s⟩ =
          Cursor.atBoundary ⟨u :: before', t, next' :: l⟩ := rfl
      rw [Cursor.skip, Cursor.skip, same]
      split
      · exact ⟨_, _, _, _, rfl, rfl, .alike alike⟩
      · cases alike with
        | parting cut closes isEnd =>
            exact ⟨_, _, _, _, skip_behind_semicolon closes _ _ _,
              skip_behind_semicolon closes _ _ _, .parted cut isEnd⟩
        | more _ others =>
            obtain ⟨v, s', l', same, same'⟩ := others.heads
            cases same
            cases same'
            exact ih others (u :: before) (u :: before')

theorem toBoundary_inside {t : Token} (inside : t.kind ≠ .eof) (before : List Token) (u : Token)
    (rest : List Token) :
    (Cursor.over before (t :: u :: rest)).toBoundary = Cursor.skip (t :: before) u rest := by
  rw [Cursor.toBoundary, Cursor.advance_over inside (List.cons_ne_nil _ _)]
  rfl

theorem toBoundary_end {t : Token} (isEnd : t.kind = .eof) (before rest : List Token) :
    (Cursor.over before (t :: rest)).toBoundary = Cursor.over before (t :: rest) := by
  have atEnd : (Cursor.over before (t :: rest)).atEnd = true := by
    simp [Cursor.over, Cursor.atEnd, Cursor.kind, isEnd]
  rw [Cursor.toBoundary, Cursor.advance, if_pos atEnd]
  exact skip_end isEnd before rest

theorem toBoundary_alike (alike : Alike later s l) (before before' : List Token) :
    ∃ b b' s' l', (Cursor.over before s).toBoundary = Cursor.over b s' ∧
      (Cursor.over before' l).toBoundary = Cursor.over b' l' ∧ Beside later s' l' := by
  cases alike with
  | ended uncut isEnd beyond =>
      exact ⟨_, _, _, _, toBoundary_end isEnd _ _, toBoundary_end isEnd _ _,
        .alike (.ended uncut isEnd beyond)⟩
  | @parting semicolon _ cut closes isEnd =>
      have inside : semicolon.kind ≠ .eof := by simp [closes]
      obtain ⟨u, others, rfl⟩ := List.exists_cons_of_ne_nil cut
      rw [toBoundary_inside inside, toBoundary_inside inside, skip_behind_semicolon closes,
        skip_behind_semicolon closes]
      exact ⟨_, _, _, _, rfl, rfl, .parted cut isEnd⟩
  | more inside others =>
      obtain ⟨v, s', l', rfl, rfl⟩ := others.heads
      rw [toBoundary_inside inside, toBoundary_inside inside]
      exact skip_alike others before before'

theorem Meets.recovering {α : Type} {p p' : Parser α} {c c' : Array Complaint} {s s' : State}
    (meets : Meets later (Beside later) c c' (p s) (p' s')) :
    Meets later (Beside later) c c' (recovering p s) (recovering p' s') := by
  unfold Parser.recovering
  revert meets
  generalize p s = r
  generalize p' s' = r'
  intro meets
  cases meets with
  | tooDeep s => exact .tooDeep s _
  | @spoiled r _ cut x filed atEnd =>
      refine .spoiled _ cut (x := x) ?_ atEnd
      cases r with
      | ok v t => exact filed
      | error stop t => cases stop <;> exact filed
  | gives v b b' filed related => exact .gives (some v) b b' filed related
  | unwinds b b' filed alike =>
      obtain ⟨d, d', s', l', short, long, beside⟩ := toBoundary_alike alike b b'
      simp only [short, long]
      exact .gives none d d' filed beside

theorem InStep.recovering {α : Type} {p p' : Parser α}
    (inStep : InStep later p p' s l (Beside later)) :
    InStep later (recovering p) (recovering p') s l (Beside later) :=
  fun before before' c c' => (inStep before before' c c').recovering

section Simple

variable {d d' : Nat} (deeper : d ≤ d')

theorem closedBy_inStep {what : Expectation} (alike : Alike later s l) :
    InStep later (closedBy what) (closedBy what) s l (Beside later) := by
  refine InStep.expectLast alike (by decide) fun t s' l' closes behind => inStep_pure ?_
  exact behind.tail (by simp [closes])

include deeper

theorem closedExpression_inStep (what : Expectation) (make : Expr → Stmt)
    (alike : Alike later s l) :
    InStep later
      (do
        let e ← expression d
        closedBy what
        pure (make e))
      (do
        let e ← expression d'
        closedBy what
        pure (make e)) s l (Beside later) := by
  refine (expression_alike deeper alike).bind fun e s' l' behind => ?_
  exact (closedBy_inStep behind).bind fun _ _ _ ends => inStep_pure ends

theorem variableDeclaration_inStep (alike : Alike later s l) :
    InStep later (variableDeclaration d) (variableDeclaration d') s l (Beside later) := by
  unfold variableDeclaration
  refine InStep.expect alike (by decide) fun name s' l' others => ?_
  refine InStep.eat others (by decide) (fun _ _ value => ?_) ?_
  · exact closedExpression_inStep deeper .semicolonAfterDeclaration
      (fun e => .declare name (some e)) value
  · exact (closedBy_inStep others).bind fun _ _ _ ends => inStep_pure ends

theorem returnStatement_inStep (inFunction : Bool) (keyword : Token) (alike : Alike later s l) :
    InStep later (returnStatement inFunction keyword d) (returnStatement inFunction keyword d') s l
      (Beside later) := by
  have ends : InStep (α := Stmt) later
      (do
        if ← check (.symbol .semicolon) then
          closedBy .semicolonAfterReturnValue
          pure (.giveBack keyword none)
        else
          let value ← expression d
          closedBy .semicolonAfterReturnValue
          pure (.giveBack keyword (some value)))
      (do
        if ← check (.symbol .semicolon) then
          closedBy .semicolonAfterReturnValue
          pure (.giveBack keyword none)
        else
          let value ← expression d'
          closedBy .semicolonAfterReturnValue
          pure (.giveBack keyword (some value))) s l (Beside later) := by
    refine InStep.check alike (fun _ => ?_) ?_
    · exact (closedBy_inStep alike).bind fun _ _ _ ends => inStep_pure ends
    · exact closedExpression_inStep deeper .semicolonAfterReturnValue
        (fun e => .giveBack keyword (some e)) alike
  unfold returnStatement
  split
  · exact InStep.report ends
  · exact ends

theorem parameters_inStep (done : Array Token) (alike : Alike later s l) :
    InStep later (parameters d done) (parameters d' done) s l (Alike later) := by
  induction d generalizing d' s l done with
  | zero =>
      unfold parameters
      exact inStep_tooDeep
  | succ d ih =>
      cases d' with
      | zero => cases deeper
      | succ d' =>
          have reads : InStep later
              (do
                let param ← expect .identifier .parameterName
                if ← eat (.symbol .comma) then parameters d (done.push param)
                else pure (done.push param).toList)
              (do
                let param ← expect .identifier .parameterName
                if ← eat (.symbol .comma) then parameters d' (done.push param)
                else pure (done.push param).toList) s l (Alike later) := by
            refine InStep.expect alike (by decide) fun param s' l' others => ?_
            refine InStep.eat others (by decide) (fun _ _ behind => ?_) (inStep_pure others)
            exact ih (Nat.le_of_succ_le_succ deeper) _ behind
          unfold parameters
          split
          · obtain ⟨t, s, l, rfl, rfl⟩ := alike.heads
            exact InStep.current (InStep.report reads)
          · exact reads

theorem loopInitializer_inStep (alike : Alike later s l) :
    InStep later (loopInitializer d) (loopInitializer d') s l (Beside later) := by
  unfold loopInitializer
  refine InStep.eatLast alike (by decide) (fun t s' l' closes behind => ?_) ?_
  · exact inStep_pure (behind.tail (by simp [closes]))
  refine InStep.eat alike (by decide) (fun _ _ others => ?_) ?_
  · exact (variableDeclaration_inStep deeper others).map some
  · exact (closedExpression_inStep deeper .semicolonAfterExpression .expression alike).map some

/-- A clause of a loop is never empty at the end of a text. -/
theorem loopClause_inStep {stop : Kind} (Rest : List Token → List Token → Prop)
    (what : Expectation) (inside : stop ≠ .eof)
    (ends : ∀ {t s l}, t.kind = stop → Alike later (t :: s) (t :: l) → Rest s l)
    (beside : Beside later s l) :
    InStep later (loopClause stop what d) (loopClause stop what d') s l Rest := by
  unfold loopClause
  cases beside with
  | parted cut isEnd =>
      exact (Balks.check inside (expression_balks d).map.bind).inStep cut isEnd
  | alike alike =>
      have closes : ∀ {s' l'} (clause : Option Expr), Alike later s' l' → InStep later
          (do
            let _ ← expect stop what
            pure clause)
          (do
            let _ ← expect stop what
            pure clause) s' l' Rest := by
        intro s' l' clause related
        exact InStep.expectLast related inside fun t _ _ found behind =>
          inStep_pure (ends found behind)
      refine InStep.check alike (fun _ => ?_) ?_
      · exact closes none alike
      · exact ((expression_alike deeper alike).map some).bind fun clause _ _ related =>
          closes clause related

end Simple

structure StatementsInStep (later : List Token) (d d' : Nat) : Prop where
  declaration : ∀ {s l} inFunction, Alike later s l →
    InStep later (declaration d inFunction) (declaration d' inFunction) s l (Beside later)
  block : ∀ {s l} inFunction done, Alike later s l →
    InStep later (block d inFunction done) (block d' inFunction done) s l (Beside later)
  statement : ∀ {s l} inFunction, Alike later s l →
    InStep later (statement d inFunction) (statement d' inFunction) s l (Beside later)

theorem block_balks (depth : Nat) (inFunction : Bool) (done : Array Stmt) :
    Balks (block depth inFunction done) := by
  cases depth with
  | zero =>
      unfold block
      exact balks_tooDeep
  | succ depth =>
      unfold block
      exact Balks.check (by decide) (Balks.atEnd (balks_expect (by decide)).bind)

section Deeper

variable {d d' : Nat} (below : d ≤ d') (deeper : StatementsInStep later d d')

include below deeper

theorem declaration_inStep (inFunction : Bool) (alike : Alike later s l) :
    InStep later (declaration (d + 1) inFunction) (declaration (d' + 1) inFunction) s l
      (Beside later) := by
  unfold declaration
  refine InStep.eat alike (by decide) (fun _ _ others => ?_) ?_
  · refine InStep.expect others (by decide) fun name _ _ paren => ?_
    refine InStep.expect paren (by decide) fun _ _ _ list => ?_
    have ends : ∀ {s' l'} params, Alike later s' l' → InStep (α := Stmt) later
        (do
          let _ ← expect (.symbol .rightParen) .parenAfterParameters
          let _ ← expect (.symbol .leftBrace) .braceBeforeBody
          let body ← block d true #[]
          pure (.function name params body))
        (do
          let _ ← expect (.symbol .rightParen) .parenAfterParameters
          let _ ← expect (.symbol .leftBrace) .braceBeforeBody
          let body ← block d' true #[]
          pure (.function name params body)) s' l' (Beside later) := by
      intro s' l' params related
      refine InStep.expect related (by decide) fun _ _ _ brace => ?_
      refine InStep.expect brace (by decide) fun _ _ _ body => ?_
      exact (deeper.block true #[] body).bind fun _ _ _ ends => inStep_pure ends
    refine InStep.check list (fun _ => ?_) ?_
    · exact ends [] list
    · exact (parameters_inStep below #[] list).bind fun params _ _ related => ends params related
  refine InStep.eat alike (by decide) (fun _ _ others => ?_) ?_
  · exact variableDeclaration_inStep below others
  · exact deeper.statement inFunction alike

omit below in
theorem block_inStep (inFunction : Bool) (done : Array Stmt) (alike : Alike later s l) :
    InStep later (block (d + 1) inFunction done) (block (d' + 1) inFunction done) s l
      (Beside later) := by
  obtain ⟨t, s, l, rfl, rfl⟩ := alike.heads
  unfold block
  refine InStep.look (v := t.kind == .symbol .rightBrace) (fun _ _ => rfl) (fun _ _ => rfl) ?_
  refine InStep.look (v := t.kind == .eof) (fun _ _ => rfl) (fun _ _ => rfl) ?_
  split
  · exact InStep.expect alike (by decide) fun _ _ _ behind => inStep_pure (.alike behind)
  refine InStep.bindKeeping ?_ (deeper.declaration inFunction alike).recovering ?_
  · intro found
    cases found <;> infer_instance
  intro found s' l' beside
  cases beside with
  | parted cut isEnd =>
      refine Balks.inStep ?_ cut isEnd
      cases found with
      | none => exact block_balks d inFunction done
      | some stmt => exact block_balks d inFunction (done.push stmt)
  | alike related =>
      cases found with
      | none => exact deeper.block inFunction done related
      | some stmt => exact deeper.block inFunction (done.push stmt) related

theorem statement_inStep (apart : ∀ t ∈ later.head?, t.kind ≠ .keyword .kwElse)
    (inFunction : Bool) (alike : Alike later s l) :
    InStep later (statement (d + 1) inFunction) (statement (d' + 1) inFunction) s l
      (Beside later) := by
  obtain ⟨t, s, l, rfl, rfl⟩ := alike.heads
  unfold statement
  refine InStep.current ?_
  split
  · rename_i found
    refine InStep.advance alike (found ▸ by decide) fun paren => ?_
    refine InStep.expect paren (by decide) fun _ _ _ clauses => ?_
    refine (loopInitializer_inStep below clauses).bind fun first _ _ beside => ?_
    refine (loopClause_inStep below (Beside later) _ (by decide) ?_ beside).bind
      fun condition _ _ beside => ?_
    · exact fun closes behind => behind.tail (by simp [closes])
    refine (loopClause_inStep below (Alike later) _ (by decide) ?_ beside).bind
      fun increment _ _ body => ?_
    · exact fun closes behind => behind.rest (closes ▸ by decide)
    exact (deeper.statement inFunction body).bind fun _ _ _ ends => inStep_pure ends
  · rename_i found
    refine InStep.advance alike (found ▸ by decide) fun paren => ?_
    refine InStep.expect paren (by decide) fun _ _ _ inner => ?_
    refine (expression_alike below inner).bind fun condition _ _ related => ?_
    refine InStep.expect related (by decide) fun _ _ _ branch => ?_
    refine (deeper.statement inFunction branch).bind fun thenBranch s' l' beside => ?_
    cases beside with
    | parted cut isEnd =>
        obtain ⟨next, others, rfl⟩ := List.exists_cons_of_ne_nil cut
        have long : next.kind ≠ .keyword .kwElse := apart next rfl
        exact InStep.look (fun before c => eat_over_of_ne before [] _ c (by simp [isEnd]))
          (fun before c => eat_over_of_ne before others next c long)
          (inStep_pure (.parted cut isEnd))
    | alike related =>
        refine InStep.eat related (by decide) (fun _ _ other => ?_) (inStep_pure (.alike related))
        exact (deeper.statement inFunction other).bind fun _ _ _ ends => inStep_pure ends
  · rename_i found
    exact InStep.advance alike (found ▸ by decide)
      (closedExpression_inStep below .semicolonAfterValue .print)
  · rename_i found
    exact InStep.advance alike (found ▸ by decide) (returnStatement_inStep below inFunction t)
  · rename_i found
    refine InStep.advance alike (found ▸ by decide) fun paren => ?_
    refine InStep.expect paren (by decide) fun _ _ _ inner => ?_
    refine (expression_alike below inner).bind fun condition _ _ related => ?_
    refine InStep.expect related (by decide) fun _ _ _ body => ?_
    exact (deeper.statement inFunction body).bind fun _ _ _ ends => inStep_pure ends
  · rename_i found
    refine InStep.advance alike (found ▸ by decide) fun body => ?_
    exact (deeper.block inFunction #[] body).map Stmt.block
  · exact closedExpression_inStep below .semicolonAfterExpression .expression alike

end Deeper

theorem statements_inStep (apart : ∀ t ∈ later.head?, t.kind ≠ .keyword .kwElse) {d d' : Nat}
    (below : d ≤ d') : StatementsInStep later d d' := by
  induction d generalizing d' with
  | zero =>
      constructor
      · intro s l inFunction alike
        unfold declaration
        exact inStep_tooDeep
      · intro s l inFunction done alike
        unfold block
        exact inStep_tooDeep
      · intro s l inFunction alike
        unfold statement
        exact inStep_tooDeep
  | succ d ih =>
      cases d' with
      | zero => cases below
      | succ d' =>
          have less := Nat.le_of_succ_le_succ below
          have deeper := ih less
          exact
            { declaration := declaration_inStep less deeper
              block := block_inStep deeper
              statement := statement_inStep less deeper apart }

end Jess.Parser
