import Jess.Proofs.Onward

/-!
# The calls of a reading

The rules for programs, blocks, declarations and statements call each other. A
call is told by the rule, the depth that it has and the state that it begins in,
and the calls of a reading are those that come out of its first one. Statements
and declarations are split here into what they read on their own and what other
rules read for them.
-/

namespace Jess.Parser

section Heads

def functionHead (depth : Nat) : Parser (Token × List Token) := do
  let name ← expect .identifier .functionName
  let _ ← expect (.symbol .leftParen) .parenAfterFunctionName
  let params ← if ← check (.symbol .rightParen) then pure [] else parameters depth #[]
  let _ ← expect (.symbol .rightParen) .parenAfterParameters
  let _ ← expect (.symbol .leftBrace) .braceBeforeBody
  pure (name, params)

def clausesHead (depth : Nat) : Parser (Option Stmt × Option Expr × Option Expr) := do
  let _ ← expect (.symbol .leftParen) .parenAfterFor
  let initializer ← loopInitializer depth
  let condition ← loopClause (.symbol .semicolon) .semicolonAfterLoopCondition depth
  let increment ← loopClause (.symbol .rightParen) .parenAfterForClauses depth
  pure (initializer, condition, increment)

def conditionHead (opening closing : Expectation) (depth : Nat) : Parser Expr := do
  let _ ← expect (.symbol .leftParen) opening
  let condition ← expression depth
  let _ ← expect (.symbol .rightParen) closing
  pure condition

instance (depth : Nat) : Proceeds (functionHead depth) := by
  unfold functionHead
  refine .after fun name => .after fun _ => .after fun empty => ?_
  split <;> infer_instance

instance (depth : Nat) : Proceeds (clausesHead depth) := by
  unfold clausesHead
  infer_instance

instance (opening closing : Expectation) (depth : Nat) :
    Proceeds (conditionHead opening closing depth) := by
  unfold conditionHead
  infer_instance

/-- A statement by the kind of its first token, with the heads that stand before the statements and
blocks in it. -/
def headedStatement (depth : Nat) (inFunction : Bool) : Token.Kind → Parser Stmt
  | .keyword .kwFor => do
      let _ ← advance
      let head ← clausesHead depth
      desugarFor head.1 head.2.1 head.2.2 <$> statement depth inFunction
  | .keyword .kwIf => do
      let _ ← advance
      let condition ← conditionHead .parenAfterIf .parenAfterIfCondition depth
      let thenBranch ← statement depth inFunction
      if ← eat (.keyword .kwElse) then
        .ifElse condition thenBranch <$> statement depth inFunction
      else pure (.ifThen condition thenBranch)
  | .keyword .kwPrint => do
      let _ ← advance
      printStatement depth
  | .keyword .kwReturn => do
      let keyword ← advance
      returnStatement inFunction keyword depth
  | .keyword .kwWhile => do
      let _ ← advance
      let condition ← conditionHead .parenAfterWhile .parenAfterCondition depth
      .loop condition <$> statement depth inFunction
  | .symbol .leftBrace => do
      let _ ← advance
      .block <$> block depth inFunction #[]
  | _ => expressionStatement depth

variable (depth : Nat) (inFunction : Bool)

theorem declarations_before_end (done : Array Stmt) {s : State} (more : s.cursor.atEnd = false) :
    declarations (depth + 1) done s =
      (recovering (declaration depth false) >>= fun found =>
        declarations depth (done ++ found.toArray)) s := by
  rw [declarations, bind_of_ok (show atEnd s = .ok s.cursor.atEnd s from rfl), more,
    if_neg Bool.false_ne_true, bind_apply, bind_apply]
  cases recovering (declaration depth false) s with
  | error => rfl
  | ok found => cases found <;> simp

theorem block_before_end (done : Array Stmt) {s : State}
    (unclosed : s.cursor.check (.symbol .rightBrace) = false) (more : s.cursor.atEnd = false) :
    block (depth + 1) inFunction done s =
      (recovering (declaration depth inFunction) >>= fun found =>
        block depth inFunction (done ++ found.toArray)) s := by
  rw [block, bind_of_ok (show check _ s = .ok (s.cursor.check _) s from rfl), unclosed,
    bind_of_ok (show atEnd s = .ok s.cursor.atEnd s from rfl), more, Bool.or_self,
    if_neg Bool.false_ne_true, bind_apply, bind_apply]
  cases recovering (declaration depth inFunction) s with
  | error => rfl
  | ok found => cases found <;> simp

theorem declaration_by_head :
    declaration (depth + 1) inFunction = (do
      if ← eat (.keyword .kwFunc) then
        let head ← functionHead depth
        .function head.1 head.2 <$> block depth true #[]
      else if ← eat (.keyword .kwVar) then variableDeclaration depth
      else statement depth inFunction) := by
  unfold declaration functionHead
  congr 1
  funext isFunction
  split
  · simp only [bind_assoc, pure_bind, map_eq_pure_bind]
    congr 1
    funext name
    congr 1
    funext _
    congr 1
    funext empty
    split <;> simp only [bind_assoc, pure_bind]
  · rfl

theorem statement_by_head (s : State) :
    statement (depth + 1) inFunction s = headedStatement depth inFunction s.cursor.kind s := by
  rw [statement, bind_of_ok (show current s = .ok s.cursor.current s from rfl)]
  unfold headedStatement clausesHead conditionHead Cursor.kind
  cases s.cursor.current.kind with
  | keyword word => cases word <;> simp only [bind_assoc, pure_bind, map_eq_pure_bind]
  | symbol mark => cases mark <;> simp only [map_eq_pure_bind]
  | _ => rfl

end Heads

section Calls

/-- The rules that read declarations one by one, with those that were read before, and the rules
that lead from one declaration to others. -/
inductive Rule
  | program (done : Array Stmt)
  | block (inFunction : Bool) (done : Array Stmt)
  | declaration (inFunction : Bool)
  | statement (inFunction : Bool)

def State.past (s : State) : State := { s with cursor := s.cursor.advance }

/-- The calls of these rules on the way through a token list, each with the depth it has and the
state it begins in. -/
inductive Called (tokens : List Token) : Nat → Rule → State → Prop
  | reading {start : Cursor} (begins : Cursor.ofList? tokens = some start) :
      Called tokens (enoughDepth tokens.length) (.program #[]) ⟨start, #[]⟩
  | declared {depth : Nat} {done : Array Stmt} {s : State}
      (caller : Called tokens (depth + 1) (.program done) s) (more : s.cursor.atEnd = false) :
      Called tokens depth (.declaration false) s
  | program {depth : Nat} {done : Array Stmt} {found : Option Stmt} {s t : State}
      (caller : Called tokens (depth + 1) (.program done) s) (more : s.cursor.atEnd = false)
      (first : recovering (declaration depth false) s = .ok found t) :
      Called tokens depth (.program (done ++ found.toArray)) t
  | within {depth : Nat} {inFunction : Bool} {done : Array Stmt} {s : State}
      (caller : Called tokens (depth + 1) (.block inFunction done) s)
      (unclosed : s.cursor.check (.symbol .rightBrace) = false) (more : s.cursor.atEnd = false) :
      Called tokens depth (.declaration inFunction) s
  | block {depth : Nat} {inFunction : Bool} {done : Array Stmt} {found : Option Stmt}
      {s t : State} (caller : Called tokens (depth + 1) (.block inFunction done) s)
      (unclosed : s.cursor.check (.symbol .rightBrace) = false) (more : s.cursor.atEnd = false)
      (first : recovering (declaration depth inFunction) s = .ok found t) :
      Called tokens depth (.block inFunction (done ++ found.toArray)) t
  | body {depth : Nat} {inFunction : Bool} {head : Token × List Token} {s t : State}
      (caller : Called tokens (depth + 1) (.declaration inFunction) s)
      (word : s.cursor.kind = .keyword .kwFunc) (first : functionHead depth s.past = .ok head t) :
      Called tokens depth (.block true #[]) t
  | statement {depth : Nat} {inFunction : Bool} {s : State}
      (caller : Called tokens (depth + 1) (.declaration inFunction) s)
      (noFunction : s.cursor.kind ≠ .keyword .kwFunc)
      (noVariable : s.cursor.kind ≠ .keyword .kwVar) :
      Called tokens depth (.statement inFunction) s
  | clauses {depth : Nat} {inFunction : Bool} {head : Option Stmt × Option Expr × Option Expr}
      {s t : State} (caller : Called tokens (depth + 1) (.statement inFunction) s)
      (word : s.cursor.kind = .keyword .kwFor) (first : clausesHead depth s.past = .ok head t) :
      Called tokens depth (.statement inFunction) t
  | loop {depth : Nat} {inFunction : Bool} {condition : Expr} {s t : State}
      (caller : Called tokens (depth + 1) (.statement inFunction) s)
      (word : s.cursor.kind = .keyword .kwWhile)
      (first : conditionHead .parenAfterWhile .parenAfterCondition depth s.past =
        .ok condition t) :
      Called tokens depth (.statement inFunction) t
  | thenBranch {depth : Nat} {inFunction : Bool} {condition : Expr} {s t : State}
      (caller : Called tokens (depth + 1) (.statement inFunction) s)
      (word : s.cursor.kind = .keyword .kwIf)
      (first : conditionHead .parenAfterIf .parenAfterIfCondition depth s.past =
        .ok condition t) :
      Called tokens depth (.statement inFunction) t
  | elseBranch {depth : Nat} {inFunction : Bool} {condition : Expr} {branch : Stmt}
      {s t u : State} (caller : Called tokens (depth + 1) (.statement inFunction) s)
      (word : s.cursor.kind = .keyword .kwIf)
      (first : conditionHead .parenAfterIf .parenAfterIfCondition depth s.past =
        .ok condition t)
      (second : Parser.statement depth inFunction t = .ok branch u)
      (other : u.cursor.kind = .keyword .kwElse) :
      Called tokens depth (.statement inFunction) u.past
  | braces {depth : Nat} {inFunction : Bool} {s : State}
      (caller : Called tokens (depth + 1) (.statement inFunction) s)
      (opened : s.cursor.kind = .symbol .leftBrace) :
      Called tokens depth (.block inFunction #[]) s.past

variable {tokens : List Token} {start : Cursor}

theorem Called.onward (begins : Cursor.ofList? tokens = some start) {depth : Nat} {rule : Rule}
    {s : State} (called : Called tokens depth rule s) : start.Onward s.cursor := by
  induction called with
  | reading begins' =>
      cases begins.symm.trans begins'
      exact .here _
  | declared _ _ ih | within _ _ _ ih | statement _ _ _ ih => exact ih
  | program _ _ first ih | block _ _ _ first ih => exact ih.trans (onward_of_ok first)
  | body _ _ first ih | clauses _ _ first ih | loop _ _ first ih | thenBranch _ _ first ih =>
      exact ih.trans (.further (onward_of_ok first))
  | elseBranch _ _ first second _ ih =>
      have branch := (onward_of_ok first).trans (onward_of_ok second)
      exact (ih.trans (.further branch)).trans (Cursor.onward_advance _)
  | braces _ _ ih => exact ih.trans (Cursor.onward_advance _)

def RunsOut {α : Type} (p : Parser α) (s : State) : Prop := ∃ t, p s = .error .tooDeep t

section RunsOut

variable {α β : Type} {p : Parser α} {f : α → Parser β} {s t : State} {v : α}

theorem RunsOut.bind (out : RunsOut p s) : RunsOut (p >>= f) s := by
  obtain ⟨t, ran⟩ := out
  exact ⟨t, by rw [bind_apply, ran]⟩

theorem RunsOut.after (first : p s = .ok v t) (out : RunsOut (f v) t) : RunsOut (p >>= f) s := by
  obtain ⟨u, ran⟩ := out
  exact ⟨u, (bind_of_ok first).trans ran⟩

theorem RunsOut.map (out : RunsOut p s) (g : α → β) : RunsOut (g <$> p) s := by
  obtain ⟨t, ran⟩ := out
  exact ⟨t, by rw [map_apply, ran]⟩

theorem RunsOut.recovering (out : RunsOut p s) : RunsOut (recovering p) s := by
  obtain ⟨t, ran⟩ := out
  exact ⟨t, by rw [Parser.recovering, ran]⟩

end RunsOut

def Rule.RunsOut (depth : Nat) (s : State) : Rule → Prop
  | program done => Parser.RunsOut (declarations depth done) s
  | block inFunction done => Parser.RunsOut (Parser.block depth inFunction done) s
  | declaration inFunction => Parser.RunsOut (Parser.declaration depth inFunction) s
  | statement inFunction => Parser.RunsOut (Parser.statement depth inFunction) s

theorem eat_of_kind {kind : Token.Kind} {s : State} (here : s.cursor.kind = kind) :
    eat kind s = .ok true s.past := by
  rw [eat, Cursor.check, here, if_pos (beq_self_eq_true kind)]
  rfl

theorem eat_of_ne {kind : Token.Kind} {s : State} (other : s.cursor.kind ≠ kind) :
    eat kind s = .ok false s := by
  rw [eat, Cursor.check, beq_eq_false_iff_ne.mpr other, if_neg Bool.false_ne_true]

/-- A call that is cut off cuts off all of the reading. -/
theorem Called.runs_out (begins : Cursor.ofList? tokens = some start) {depth : Nat} {rule : Rule}
    {s : State} (called : Called tokens depth rule s) (out : rule.RunsOut depth s) :
    RunsOut (declarations (enoughDepth tokens.length) #[]) ⟨start, #[]⟩ := by
  -- A caller runs out with what it calls, and so on up to the reading as a whole.
  induction called with
  | reading begins' =>
      cases begins.symm.trans begins'
      exact out
  | @declared depth done s _ more ih =>
      apply ih
      rw [Rule.RunsOut, RunsOut, declarations_before_end depth done more]
      exact RunsOut.bind (RunsOut.recovering out)
  | @program depth done found s t _ more first ih =>
      apply ih
      rw [Rule.RunsOut, RunsOut, declarations_before_end depth done more]
      exact RunsOut.after first out
  | @within depth inFunction done s _ unclosed more ih =>
      apply ih
      rw [Rule.RunsOut, RunsOut, block_before_end depth inFunction done unclosed more]
      exact RunsOut.bind (RunsOut.recovering out)
  | @block depth inFunction done found s t _ unclosed more first ih =>
      apply ih
      rw [Rule.RunsOut, RunsOut, block_before_end depth inFunction done unclosed more]
      exact RunsOut.after first out
  | @body depth inFunction head s t _ word first ih =>
      apply ih
      rw [Rule.RunsOut, declaration_by_head]
      exact RunsOut.after (eat_of_kind word) (RunsOut.after first (RunsOut.map out _))
  | @statement depth inFunction s _ noFunction noVariable ih =>
      apply ih
      rw [Rule.RunsOut, declaration_by_head]
      exact RunsOut.after (eat_of_ne noFunction) (RunsOut.after (eat_of_ne noVariable) out)
  | @clauses depth inFunction head s t _ word first ih =>
      apply ih
      rw [Rule.RunsOut, RunsOut, statement_by_head, word]
      exact RunsOut.after rfl (RunsOut.after first (RunsOut.map out _))
  | @loop depth inFunction condition s t _ word first ih =>
      apply ih
      rw [Rule.RunsOut, RunsOut, statement_by_head, word]
      exact RunsOut.after rfl (RunsOut.after first (RunsOut.map out _))
  | @thenBranch depth inFunction condition s t _ word first ih =>
      apply ih
      rw [Rule.RunsOut, RunsOut, statement_by_head, word]
      exact RunsOut.after rfl (RunsOut.after first (RunsOut.bind out))
  | @elseBranch depth inFunction condition branch s t u _ word first second other ih =>
      apply ih
      rw [Rule.RunsOut, RunsOut, statement_by_head, word]
      refine RunsOut.after rfl (RunsOut.after first (RunsOut.after second ?_))
      exact RunsOut.after (eat_of_kind other) (RunsOut.map out _)
  | @braces depth inFunction s _ opened ih =>
      apply ih
      rw [Rule.RunsOut, RunsOut, statement_by_head, opened]
      exact RunsOut.after rfl (RunsOut.map out _)

theorem Called.before_end {depth : Nat} {inFunction : Bool} {s : State}
    (called : Called tokens depth (.declaration inFunction) s) : s.cursor.atEnd = false := by
  cases called with
  | declared _ more => exact more
  | within _ _ more => exact more

end Calls

end Jess.Parser
