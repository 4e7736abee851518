import Jess.Proofs.Placeless
import Jess.Proofs.Steps

/-!
# Reading tokens that stand elsewhere

No rule of the parser looks at the place of a token. A rule over tokens without
their places does what it does over the tokens with them: it moves the cursor
alike, files the same complaints, is unwound where the other one is, and gives
the same tree up to places. So whatever a token list is read as, be it without
mistakes or not, a list that is the same up to places is read as the same up to
places.
-/

namespace Jess

theorem Token.kind_placeless (t : Token) : t.placeless.kind = t.kind := rfl

namespace Chain

def Link.placeless (link : Link) : Link :=
  ⟨link.op, link.operator.placeless, link.right.placeless⟩

def Pending.placeless (p : Pending) : Pending := ⟨p.left.placeless, p.op, p.operator.placeless⟩

theorem placeless_apply (op : InfixOp) (operator : Token) (left right : Expr) :
    (op.apply operator left right).placeless =
      op.apply operator.placeless left.placeless right.placeless := by
  cases op <;> rfl

theorem settle_placeless (rank : Nat) (waiting : List Pending) (right : Expr) :
    settle rank (waiting.map Pending.placeless) right.placeless =
      ((settle rank waiting right).1.map Pending.placeless,
        (settle rank waiting right).2.placeless) := by
  induction waiting generalizing right with
  | nil => rfl
  | cons p rest ih =>
      have applied := ih (p.op.apply p.operator p.left right)
      rw [placeless_apply] at applied
      simp only [List.map_cons, settle, Pending.placeless, applied]
      split <;> rfl

theorem resolve_placeless (waiting : List Pending) (operand : Expr) (links : List Link) :
    (resolve waiting operand links).placeless =
      resolve (waiting.map Pending.placeless) operand.placeless (links.map Link.placeless) := by
  induction links generalizing waiting operand with
  | nil => simp only [List.map_nil, resolve, settle_placeless]
  | cons link rest ih =>
      simp only [List.map_cons, resolve, Link.placeless, settle_placeless, ih]
      rfl

theorem toExpr_placeless (first : Expr) (links : List Link) :
    (toExpr first links).placeless = toExpr first.placeless (links.map Link.placeless) :=
  resolve_placeless [] first links

end Chain

namespace Parser

open Token (Kind kind_of_placeless)

def Cursor.placeless (c : Cursor) : Cursor :=
  ⟨c.before.map Token.placeless, c.current.placeless, c.after.map Token.placeless⟩

def Complaint.placeless (c : Complaint) : Complaint := ⟨c.token.placeless, c.mistake⟩

def State.placeless (s : State) : State :=
  ⟨s.cursor.placeless, s.complaints.map Complaint.placeless⟩

def Outcome.placeless (o : Outcome) : Outcome :=
  ⟨Stmt.placelessAll o.statements, o.complaints.map Complaint.placeless⟩

variable {α β γ δ : Type}

def placelessResult (f : α → β) : EStateM.Result Stop State α → EStateM.Result Stop State β
  | .ok v s => .ok (f v) s.placeless
  | .error stop s => .error stop s.placeless

/-- The second parser does over placeless tokens what the first one does over tokens, and gives
what `f` shows of the value of that. -/
def Blind (f : α → β) (p : Parser α) (q : Parser β) : Prop :=
  ∀ s : State, q s.placeless = placelessResult f (p s)

section Cursors

theorem check_placeless (c : Cursor) (kind : Kind) : c.placeless.check kind = c.check kind := rfl

theorem advance_placeless (c : Cursor) : c.placeless.advance = c.advance.placeless := by
  obtain ⟨before, current, after⟩ := c
  unfold Cursor.advance
  have same : (Cursor.placeless ⟨before, current, after⟩).atEnd =
      (Cursor.mk before current after).atEnd := rfl
  rw [same]
  split
  · rfl
  · cases after <;> rfl

theorem atBoundary_placeless (c : Cursor) : c.placeless.atBoundary = c.atBoundary := by
  obtain ⟨before, current, after⟩ := c
  cases before <;> rfl

theorem skip_placeless (before : List Token) (current : Token) (after : List Token) :
    Cursor.skip (before.map Token.placeless) current.placeless (after.map Token.placeless) =
      (Cursor.skip before current after).placeless := by
  induction after generalizing before current with
  | nil => rfl
  | cons next rest ih =>
      have boundary := atBoundary_placeless ⟨before, current, next :: rest⟩
      simp only [Cursor.placeless, List.map_cons] at boundary
      simp only [List.map_cons, Cursor.skip, boundary]
      split
      · rfl
      · exact ih (current :: before) next

theorem toBoundary_placeless (c : Cursor) : c.placeless.toBoundary = c.toBoundary.placeless := by
  rw [Cursor.toBoundary, advance_placeless]
  exact skip_placeless _ _ _

def placelessPrefixes (ops : List (UnaryOp × Token)) : List (UnaryOp × Token) :=
  ops.map fun op => (op.1, op.2.placeless)

theorem skipPrefixes_placeless (done : List (UnaryOp × Token)) (before : List Token)
    (current : Token) (after : List Token) :
    skipPrefixes (placelessPrefixes done) (before.map Token.placeless) current.placeless
        (after.map Token.placeless) =
      (placelessPrefixes (skipPrefixes done before current after).1,
        (skipPrefixes done before current after).2.placeless) := by
  induction after generalizing done before current with
  | nil => rfl
  | cons next rest ih =>
      rw [List.map_cons, skipPrefixes, skipPrefixes, Token.kind_placeless]
      cases UnaryOp.ofKind? current.kind with
      | none => rfl
      | some op => exact ih ((op, current) :: done) (current :: before) next

theorem applyPrefixes_placeless (ops : List (UnaryOp × Token)) (operand : Expr) :
    (applyPrefixes ops operand).placeless =
      applyPrefixes (placelessPrefixes ops) operand.placeless := by
  unfold applyPrefixes
  induction ops generalizing operand with
  | nil => rfl
  | cons op rest ih => exact ih (.unary op.1 op.2 operand)

end Cursors

namespace Blind

variable {f : α → β} {g : γ → δ} {p : Parser α} {q : Parser β}

theorem pure {v : α} {w : β} (same : f v = w) : Blind f (pure v) (pure w) := by
  intro s
  rw [pure_apply, pure_apply, placelessResult, same]

theorem bind {k : α → Parser γ} {l : β → Parser δ} (first : Blind f p q)
    (later : ∀ v, Blind g (k v) (l (f v))) : Blind g (p >>= k) (q >>= l) := by
  intro s
  rw [bind_apply, bind_apply, first s]
  cases p s with
  | ok v s => exact later v s
  | error stop s => rfl

theorem map {h : α → γ} {h' : β → δ} (blind : Blind f p q) (same : ∀ v, g (h v) = h' (f v)) :
    Blind g (h <$> p) (h' <$> q) := by
  rw [map_eq_pure_bind, map_eq_pure_bind]
  exact blind.bind fun v => .pure (same v)

theorem ite {c : Prop} [Decidable c] {p' : Parser α} {q' : Parser β} (yes : Blind f p q)
    (no : Blind f p' q') : Blind f (if c then p else p') (if c then q else q') := by
  split
  · exact yes
  · exact no

theorem tooDeep : Blind f tooDeep tooDeep := fun _ => rfl

theorem fail {what : Expectation} : Blind f (fail what) (fail what) := by
  intro s
  simp only [Parser.fail, placelessResult, State.placeless, Array.map_push]
  rfl

theorem expect (kind : Kind) (what : Expectation) :
    Blind Token.placeless (expect kind what) (expect kind what) := by
  intro s
  unfold Parser.expect
  rw [State.placeless, check_placeless]
  split
  · simp only [placelessResult, State.placeless, advance_placeless]
    rfl
  · exact Blind.fail s

theorem check {kind : Kind} {k : Bool → Parser γ} {l : Bool → Parser δ}
    (later : ∀ found, Blind g (k found) (l found)) :
    Blind g (check kind >>= k) (check kind >>= l) :=
  fun s => later (s.cursor.check kind) s

theorem atEnd {k : Bool → Parser γ} {l : Bool → Parser δ}
    (later : ∀ ends, Blind g (k ends) (l ends)) : Blind g (atEnd >>= k) (atEnd >>= l) :=
  fun s => later s.cursor.atEnd s

theorem eat {kind : Kind} {k : Bool → Parser γ} {l : Bool → Parser δ}
    (later : ∀ found, Blind g (k found) (l found)) : Blind g (eat kind >>= k) (eat kind >>= l) := by
  have eats : Blind id (Parser.eat kind) (Parser.eat kind) := by
    intro s
    unfold Parser.eat
    rw [State.placeless, check_placeless]
    split
    · simp only [placelessResult, State.placeless, advance_placeless]
      rfl
    · rfl
  exact eats.bind later

theorem current {k : Token → Parser γ} {l : Token → Parser δ}
    (later : ∀ t, Blind g (k t) (l t.placeless)) : Blind g (current >>= k) (current >>= l) :=
  fun s => later s.cursor.current s

theorem advance {k : Token → Parser γ} {l : Token → Parser δ}
    (later : ∀ t, Blind g (k t) (l t.placeless)) : Blind g (advance >>= k) (advance >>= l) := by
  have advances : Blind Token.placeless Parser.advance Parser.advance := by
    intro s
    simp only [Parser.advance, placelessResult, State.placeless, advance_placeless]
    rfl
  exact advances.bind later

theorem report {token : Token} {mistake : Mistake} {k : Unit → Parser γ} {l : Unit → Parser δ}
    (later : Blind g (k ()) (l ())) :
    Blind g (report token mistake >>= k) (report token.placeless mistake >>= l) := by
  have reports :
      Blind id (Parser.report token mistake) (Parser.report token.placeless mistake) := by
    intro s
    simp only [Parser.report, placelessResult, State.placeless, Array.map_push]
    rfl
  exact reports.bind fun _ => later

theorem recovering (blind : Blind f p q) :
    Blind (Option.map f) (recovering p) (recovering q) := by
  intro s
  unfold Parser.recovering
  rw [blind s]
  cases p s with
  | ok v s => rfl
  | error stop s =>
      cases stop with
      | tooDeep => rfl
      | unwound =>
          simp only [placelessResult, State.placeless, toBoundary_placeless]
          rfl

end Blind

theorem prefixes_blind : Blind placelessPrefixes prefixes prefixes := by
  intro s
  have skipped := skipPrefixes_placeless [] s.cursor.before s.cursor.current s.cursor.after
  have none : placelessPrefixes [] = [] := rfl
  rw [none] at skipped
  simp only [prefixes, State.placeless, Cursor.placeless, skipped, placelessResult]

theorem literalOf_placeless (t : Token) : literalOf? t.placeless = literalOf? t := rfl

structure ExpressionsBlind (depth : Nat) : Prop where
  expression : Blind Expr.placeless (expression depth) (expression depth)
  chain : Blind Expr.placeless (chain depth) (chain depth)
  links : ∀ done, Blind (List.map Chain.Link.placeless) (links depth done)
    (links depth (done.map Chain.Link.placeless))
  operand : Blind Expr.placeless (operand depth) (operand depth)
  calls : ∀ callee, Blind Expr.placeless (calls depth callee) (calls depth callee.placeless)
  arguments : ∀ done, Blind Expr.placelessAll (arguments depth done)
    (arguments depth (done.map Expr.placeless))
  primary : Blind Expr.placeless (primary depth) (primary depth)

section Expressions

variable {depth : Nat} (deeper : ExpressionsBlind depth)

include deeper

theorem expression_blind :
    Blind Expr.placeless (expression (depth + 1)) (expression (depth + 1)) := by
  unfold expression
  apply deeper.chain.bind
  intro target
  apply Blind.check
  intro assigns
  apply Blind.ite _ (.pure rfl)
  apply Blind.advance
  intro equals
  apply deeper.expression.bind
  intro value
  cases target with
  | «variable» name => exact .pure rfl
  | _ => exact .report (.pure rfl)

theorem chain_blind : Blind Expr.placeless (chain (depth + 1)) (chain (depth + 1)) := by
  have none := deeper.links #[]
  rw [Array.map_empty] at none
  unfold chain
  apply deeper.operand.bind
  intro first
  apply none.bind
  intro links
  exact .pure (Chain.toExpr_placeless first links)

theorem links_blind (done : Array Chain.Link) :
    Blind (List.map Chain.Link.placeless) (links (depth + 1) done)
      (links (depth + 1) (done.map Chain.Link.placeless)) := by
  unfold links
  apply Blind.current
  intro t
  rw [Token.kind_placeless]
  cases InfixOp.ofKind? t.kind with
  | none => exact .pure Array.toList_map.symm
  | some op =>
      apply Blind.advance
      intro operator
      apply deeper.operand.bind
      intro right
      have others := deeper.links (done.push ⟨op, operator, right⟩)
      rw [Array.map_push] at others
      exact others

theorem operand_blind : Blind Expr.placeless (operand (depth + 1)) (operand (depth + 1)) := by
  unfold operand
  apply prefixes_blind.bind
  intro ops
  apply deeper.primary.bind
  intro callee
  apply (deeper.calls callee).bind
  intro called
  exact .pure (applyPrefixes_placeless ops called)

theorem calls_blind (callee : Expr) :
    Blind Expr.placeless (calls (depth + 1) callee) (calls (depth + 1) callee.placeless) := by
  have closes : ∀ args, Blind Expr.placeless
      (do
        let paren ← expect (.symbol .rightParen) .parenAfterArguments
        calls depth (.call callee paren args))
      (do
        let paren ← expect (.symbol .rightParen) .parenAfterArguments
        calls depth (.call callee.placeless paren (Expr.placelessAll args))) := by
    intro args
    apply (Blind.expect _ _).bind
    intro paren
    exact deeper.calls (.call callee paren args)
  have none := deeper.arguments #[]
  rw [Array.map_empty] at none
  unfold calls
  apply Blind.eat
  intro opens
  apply Blind.ite _ (.pure rfl)
  apply Blind.check
  intro empty
  apply Blind.ite
  · exact closes []
  · apply none.bind
    intro args
    exact closes args

theorem arguments_blind (done : Array Expr) :
    Blind Expr.placelessAll (arguments (depth + 1) done)
      (arguments (depth + 1) (done.map Expr.placeless)) := by
  have reads : Blind Expr.placelessAll
      (do
        let arg ← expression depth
        if ← eat (.symbol .comma) then arguments depth (done.push arg)
        else pure (done.push arg).toList)
      (do
        let arg ← expression depth
        if ← eat (.symbol .comma) then arguments depth ((done.map Expr.placeless).push arg)
        else pure ((done.map Expr.placeless).push arg).toList) := by
    apply deeper.expression.bind
    intro arg
    apply Blind.eat
    intro more
    rw [← Array.map_push]
    apply Blind.ite (deeper.arguments _)
    exact .pure (by rw [Expr.placelessAll_eq_map, Array.toList_map])
  unfold arguments
  rw [Array.size_map]
  apply Blind.ite _ reads
  apply Blind.current
  intro t
  exact .report reads

theorem primary_blind : Blind Expr.placeless (primary (depth + 1)) (primary (depth + 1)) := by
  unfold primary
  apply Blind.current
  intro t
  rw [literalOf_placeless]
  cases literalOf? t with
  | some literal =>
      apply Blind.advance
      intro _
      exact .pure rfl
  | none =>
      simp only [Token.kind_placeless]
      split
      · apply Blind.advance
        intro _
        exact .pure rfl
      · apply Blind.advance
        intro _
        apply deeper.expression.bind
        intro inner
        apply (Blind.expect _ _).bind
        intro _
        exact .pure rfl
      · exact .fail

end Expressions

theorem expressions_blind (depth : Nat) : ExpressionsBlind depth := by
  induction depth with
  | zero =>
      refine ⟨?_, ?_, fun done => ?_, ?_, fun callee => ?_, fun done => ?_, ?_⟩
      · unfold expression
        exact .tooDeep
      · unfold chain
        exact .tooDeep
      · unfold links
        exact .tooDeep
      · unfold operand
        exact .tooDeep
      · unfold calls
        exact .tooDeep
      · unfold arguments
        exact .tooDeep
      · unfold primary
        exact .tooDeep
  | succ depth deeper =>
      exact
        { expression := expression_blind deeper
          chain := chain_blind deeper
          links := links_blind deeper
          operand := operand_blind deeper
          calls := calls_blind deeper
          arguments := arguments_blind deeper
          primary := primary_blind deeper }

section Simple

variable (depth : Nat)

theorem blind_expression : Blind Expr.placeless (expression depth) (expression depth) :=
  (expressions_blind depth).expression

theorem closedBy_blind (what : Expectation) : Blind id (closedBy what) (closedBy what) := by
  unfold closedBy
  apply (Blind.expect _ _).bind
  intro _
  exact .pure rfl

theorem variableDeclaration_blind :
    Blind Stmt.placeless (variableDeclaration depth) (variableDeclaration depth) := by
  unfold variableDeclaration
  apply (Blind.expect _ _).bind
  intro name
  apply Blind.eat
  intro initialized
  apply Blind.ite
  · apply (blind_expression depth).bind
    intro value
    apply (closedBy_blind _).bind
    intro _
    exact .pure rfl
  · apply (closedBy_blind _).bind
    intro _
    exact .pure rfl

theorem expressionStatement_blind :
    Blind Stmt.placeless (expressionStatement depth) (expressionStatement depth) := by
  unfold expressionStatement
  apply (blind_expression depth).bind
  intro e
  apply (closedBy_blind _).bind
  intro _
  exact .pure rfl

theorem printStatement_blind :
    Blind Stmt.placeless (printStatement depth) (printStatement depth) := by
  unfold printStatement
  apply (blind_expression depth).bind
  intro e
  apply (closedBy_blind _).bind
  intro _
  exact .pure rfl

theorem returnStatement_blind (inFunction : Bool) (keyword : Token) :
    Blind Stmt.placeless (returnStatement inFunction keyword depth)
      (returnStatement inFunction keyword.placeless depth) := by
  have rest : Blind Stmt.placeless
      (do
        if ← check (.symbol .semicolon) then
          closedBy .semicolonAfterReturnValue
          pure (.giveBack keyword none)
        else
          let value ← expression depth
          closedBy .semicolonAfterReturnValue
          pure (.giveBack keyword (some value)))
      (do
        if ← check (.symbol .semicolon) then
          closedBy .semicolonAfterReturnValue
          pure (.giveBack keyword.placeless none)
        else
          let value ← expression depth
          closedBy .semicolonAfterReturnValue
          pure (.giveBack keyword.placeless (some value))) := by
    apply Blind.check
    intro closes
    apply Blind.ite
    · apply (closedBy_blind _).bind
      intro _
      exact .pure rfl
    · apply (blind_expression depth).bind
      intro value
      apply (closedBy_blind _).bind
      intro _
      exact .pure rfl
  unfold returnStatement
  apply Blind.ite _ rest
  exact .report rest

theorem parameters_blind (done : Array Token) :
    Blind (List.map Token.placeless) (parameters depth done)
      (parameters depth (done.map Token.placeless)) := by
  induction depth generalizing done with
  | zero =>
      unfold parameters
      exact .tooDeep
  | succ depth deeper =>
      have reads : Blind (List.map Token.placeless)
          (do
            let param ← expect .identifier .parameterName
            if ← eat (.symbol .comma) then parameters depth (done.push param)
            else pure (done.push param).toList)
          (do
            let param ← expect .identifier .parameterName
            if ← eat (.symbol .comma) then
              parameters depth ((done.map Token.placeless).push param)
            else pure ((done.map Token.placeless).push param).toList) := by
        apply (Blind.expect _ _).bind
        intro param
        apply Blind.eat
        intro more
        rw [← Array.map_push]
        apply Blind.ite (deeper _)
        exact .pure Array.toList_map.symm
      unfold parameters
      rw [Array.size_map]
      apply Blind.ite _ reads
      apply Blind.current
      intro t
      exact .report reads

theorem loopInitializer_blind :
    Blind (Option.map Stmt.placeless) (loopInitializer depth) (loopInitializer depth) := by
  unfold loopInitializer
  apply Blind.eat
  intro empty
  apply Blind.ite (.pure rfl)
  apply Blind.eat
  intro declares
  apply Blind.ite
  · exact (variableDeclaration_blind depth).map fun _ => rfl
  · exact (expressionStatement_blind depth).map fun _ => rfl

theorem loopClause_blind (stop : Kind) (what : Expectation) :
    Blind (Option.map Expr.placeless) (loopClause stop what depth) (loopClause stop what depth) := by
  have closes : ∀ clause, Blind (Option.map Expr.placeless)
      (do
        let _ ← expect stop what
        pure clause)
      (do
        let _ ← expect stop what
        pure (clause.map Expr.placeless)) := by
    intro clause
    apply (Blind.expect _ _).bind
    intro _
    exact .pure rfl
  unfold loopClause
  apply Blind.check
  intro missing
  apply Blind.ite
  · exact closes none
  · have clauses : Blind (Option.map Expr.placeless) (some <$> expression depth)
        (some <$> expression depth) := (blind_expression depth).map fun _ => rfl
    exact clauses.bind closes

end Simple

structure StatementsBlind (depth : Nat) : Prop where
  declaration : ∀ inFunction,
    Blind Stmt.placeless (declaration depth inFunction) (declaration depth inFunction)
  block : ∀ inFunction done, Blind Stmt.placelessAll (block depth inFunction done)
    (block depth inFunction (done.map Stmt.placeless))
  statement : ∀ inFunction,
    Blind Stmt.placeless (statement depth inFunction) (statement depth inFunction)

theorem placelessAll_toList (done : Array Stmt) :
    Stmt.placelessAll done.toList = (done.map Stmt.placeless).toList := by
  rw [Stmt.placelessAll_eq_map, Array.toList_map]

section Statements

variable {depth : Nat} (deeper : StatementsBlind depth) (inFunction : Bool)

include deeper

theorem declaration_blind : Blind Stmt.placeless (declaration (depth + 1) inFunction)
    (declaration (depth + 1) inFunction) := by
  have none := deeper.block true #[]
  rw [Array.map_empty] at none
  have body : ∀ name params, Blind Stmt.placeless
      (do
        let _ ← expect (.symbol .rightParen) .parenAfterParameters
        let _ ← expect (.symbol .leftBrace) .braceBeforeBody
        let body ← block depth true #[]
        pure (.function name params body))
      (do
        let _ ← expect (.symbol .rightParen) .parenAfterParameters
        let _ ← expect (.symbol .leftBrace) .braceBeforeBody
        let body ← block depth true #[]
        pure (.function name.placeless (params.map Token.placeless) body)) := by
    intro name params
    apply (Blind.expect _ _).bind
    intro _
    apply (Blind.expect _ _).bind
    intro _
    apply none.bind
    intro body
    exact .pure rfl
  have noParameters := parameters_blind depth #[]
  rw [Array.map_empty] at noParameters
  unfold declaration
  apply Blind.eat
  intro isFunction
  apply Blind.ite
  · apply (Blind.expect _ _).bind
    intro name
    apply (Blind.expect _ _).bind
    intro _
    apply Blind.check
    intro empty
    apply Blind.ite
    · exact body name []
    · apply noParameters.bind
      intro params
      exact body name params
  · apply Blind.eat
    intro isVariable
    apply Blind.ite
    · exact variableDeclaration_blind depth
    · exact deeper.statement inFunction

theorem block_blind (done : Array Stmt) :
    Blind Stmt.placelessAll (block (depth + 1) inFunction done)
      (block (depth + 1) inFunction (done.map Stmt.placeless)) := by
  unfold block
  apply Blind.check
  intro closes
  apply Blind.atEnd
  intro ends
  apply Blind.ite
  · apply (Blind.expect _ _).bind
    intro _
    exact .pure (placelessAll_toList done)
  · apply (deeper.declaration inFunction).recovering.bind
    intro found
    cases found with
    | none => exact deeper.block inFunction done
    | some stmt =>
        have others := deeper.block inFunction (done.push stmt)
        rw [Array.map_push] at others
        exact others

theorem statement_blind : Blind Stmt.placeless (statement (depth + 1) inFunction)
    (statement (depth + 1) inFunction) := by
  have none := deeper.block inFunction #[]
  rw [Array.map_empty] at none
  unfold statement
  apply Blind.current
  intro t
  rw [Token.kind_placeless]
  split
  · apply Blind.advance
    intro _
    apply (Blind.expect _ _).bind
    intro _
    apply (loopInitializer_blind depth).bind
    intro initializer
    apply (loopClause_blind depth _ _).bind
    intro condition
    apply (loopClause_blind depth _ _).bind
    intro increment
    apply (deeper.statement inFunction).bind
    intro body
    exact .pure (Grammar.placeless_desugarFor initializer condition increment body)
  · apply Blind.advance
    intro _
    apply (Blind.expect _ _).bind
    intro _
    apply (blind_expression depth).bind
    intro condition
    apply (Blind.expect _ _).bind
    intro _
    apply (deeper.statement inFunction).bind
    intro thenBranch
    apply Blind.eat
    intro hasElse
    apply Blind.ite _ (.pure rfl)
    apply (deeper.statement inFunction).bind
    intro elseBranch
    exact .pure rfl
  · apply Blind.advance
    intro _
    exact printStatement_blind depth
  · apply Blind.advance
    intro keyword
    exact returnStatement_blind depth inFunction keyword
  · apply Blind.advance
    intro _
    apply (Blind.expect _ _).bind
    intro _
    apply (blind_expression depth).bind
    intro condition
    apply (Blind.expect _ _).bind
    intro _
    apply (deeper.statement inFunction).bind
    intro body
    exact .pure rfl
  · apply Blind.advance
    intro _
    exact none.map fun _ => rfl
  · exact expressionStatement_blind depth

end Statements

theorem statements_blind (depth : Nat) : StatementsBlind depth := by
  induction depth with
  | zero =>
      refine ⟨fun inFunction => ?_, fun inFunction done => ?_, fun inFunction => ?_⟩
      · unfold declaration
        exact .tooDeep
      · unfold block
        exact .tooDeep
      · unfold statement
        exact .tooDeep
  | succ depth deeper =>
      exact
        { declaration := declaration_blind deeper
          block := block_blind deeper
          statement := statement_blind deeper }

theorem declarations_blind (depth : Nat) (done : Array Stmt) :
    Blind Stmt.placelessAll (declarations depth done)
      (declarations depth (done.map Stmt.placeless)) := by
  induction depth generalizing done with
  | zero =>
      unfold declarations
      exact .tooDeep
  | succ depth deeper =>
      unfold declarations
      apply Blind.atEnd
      intro ends
      apply Blind.ite
      · exact .pure (placelessAll_toList done)
      · apply ((statements_blind depth).declaration false).recovering.bind
        intro found
        cases found with
        | none => exact deeper done
        | some stmt =>
            have others := deeper (done.push stmt)
            rw [Array.map_push] at others
            exact others

/-- A token list without its places is read as the token list, without places. -/
theorem read_placeless (tokens : List Token) :
    read (tokens.map Token.placeless) = (read tokens).placeless := by
  cases tokens with
  | nil => rfl
  | cons first rest =>
      have size : ((first :: rest).map Token.placeless).length = (first :: rest).length :=
        List.length_map _
      have same := declarations_blind (enoughDepth (first :: rest).length) #[]
        ⟨⟨[], first, rest⟩, #[]⟩
      have start : readFrom ⟨[], first.placeless, rest.map Token.placeless⟩ (first :: rest).length =
          (readFrom ⟨[], first, rest⟩ (first :: rest).length).placeless := by
        simp only [readFrom]
        simp only [State.placeless, Cursor.placeless, List.map_nil, Array.map_empty] at same
        rw [same]
        cases declarations (enoughDepth (first :: rest).length) #[] ⟨⟨[], first, rest⟩, #[]⟩ with
        | ok statements s => simp only [placelessResult, Outcome.placeless, State.placeless,
            Array.toList_map]
        | error stop s => simp only [placelessResult, Outcome.placeless, State.placeless,
            Array.toList_map, Stmt.placelessAll]
      simp only [read, Cursor.ofList?, List.map_cons, List.length_cons, List.length_map]
      exact start

theorem read_of_same {tokens others : List Token} (same : Grammar.SameUpToPlace tokens others) :
    (read tokens).placeless = (read others).placeless := by
  rw [← read_placeless, ← read_placeless, same]

end Parser

end Jess
