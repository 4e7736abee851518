import Jess.Proofs.ExpressionReading

/-!
# The parser reads every program of the grammar

A statement that is not open is read whatever stands behind it. An open one
needs a next token other than `else`, and inside of a block or a program that
is never the next token. The induction is on the derivation, and its statement
for the declarations of a block covers those of a program as well.
-/

namespace Jess.Parser

open Token (Kind)
open Grammar

def BeginsStatement (kind : Kind) : Prop :=
  BeginsExpression kind ∨
    kind ∈ [Kind.keyword .kwFor, .keyword .kwIf, .keyword .kwPrint, .keyword .kwReturn,
      .keyword .kwWhile, .symbol .leftBrace]

def BeginsDeclaration (kind : Kind) : Prop :=
  BeginsStatement kind ∨ kind = .keyword .kwFunc ∨ kind = .keyword .kwVar

theorem statement_begins {inFunction isOpen : Bool} {s : Stmt} {tokens : List Token}
    (formed : Forms (.statement inFunction isOpen s) tokens) :
    ∃ t rest, tokens = t :: rest ∧ BeginsStatement t.kind := by
  cases formed with
  | expression value _ =>
      obtain ⟨t, rest, rfl, begins⟩ := begins_of_expression value
      exact ⟨t, _, rfl, .inl begins⟩
  | print kind _ _ => exact ⟨_, _, rfl, .inr (by simp [kind])⟩
  | giveBack kind _ => exact ⟨_, _, rfl, .inr (by simp [kind])⟩
  | giveBackValue kind _ _ => exact ⟨_, _, rfl, .inr (by simp [kind])⟩
  | block left _ _ => exact ⟨_, _, rfl, .inr (by simp [left])⟩
  | ifThen kind _ _ _ _ => exact ⟨_, _, rfl, .inr (by simp [kind])⟩
  | ifElse kind _ _ _ _ _ _ => exact ⟨_, _, rfl, .inr (by simp [kind])⟩
  | loop kind _ _ _ _ => exact ⟨_, _, rfl, .inr (by simp [kind])⟩
  | loopWithClauses kind _ _ _ _ _ _ _ _ => exact ⟨_, _, rfl, .inr (by simp [kind])⟩

theorem declaration_begins {inFunction isOpen : Bool} {s : Stmt} {tokens : List Token}
    (formed : Forms (.declaration inFunction isOpen s) tokens) :
    ∃ t rest, tokens = t :: rest ∧ BeginsDeclaration t.kind := by
  cases formed with
  | function kind _ _ _ _ _ _ _ => exact ⟨_, _, rfl, .inr (.inl kind)⟩
  | declared kind _ => exact ⟨_, _, rfl, .inr (.inr kind)⟩
  | statement inner =>
      obtain ⟨t, rest, rfl, begins⟩ := statement_begins inner
      exact ⟨t, rest, rfl, .inl begins⟩

theorem begins_declaration_ne {kind : Kind} (other : Kind) (begins : BeginsDeclaration kind)
    (apart : ¬BeginsDeclaration other) : kind ≠ other := by
  rintro rfl
  exact apart begins

theorem closedBy_over {what : Expectation} {closing : Token} (before rest : List Token)
    (complaints : Array Complaint) (semicolon : closing.kind = .symbol .semicolon)
    (more : rest ≠ []) :
    closedBy what (.over before (closing :: rest) complaints) =
      .ok () (.over (closing :: before) rest complaints) := by
  rw [closedBy, bind_of_ok (expect_over _ _ _ _ semicolon (by simp) more)]
  rfl

theorem closed_over {α : Type} {what : Expectation} {k : Expr → Parser α} {depth : Nat}
    {closing : Token} {e : Expr} {tokens : List Token} (value : IsExpression e tokens)
    (semicolon : closing.kind = .symbol .semicolon) (before rest : List Token)
    (complaints : Array Complaint) (enough : 8 * tokens.length + 4 ≤ depth) (more : rest ≠ []) :
    (expression depth >>= fun e => closedBy what >>= fun _ => k e)
      (.over before (tokens ++ closing :: rest) complaints) =
    k e (.over (closing :: (tokens.reverse ++ before)) rest complaints) := by
  have read := expression_reads value depth before closing rest complaints (by omega)
    (semicolon ▸ stops_semicolon)
  rw [bind_of_ok read, bind_of_ok (closedBy_over _ _ _ semicolon more)]

theorem variableDeclaration_reads {s : Stmt} {tokens : List Token} (formed : IsVariable s tokens) :
    Reads variableDeclaration 0 (fun _ => True) tokens s := by
  intro depth before next rest complaints enough _
  cases formed with
  | @bare name closing kind semicolon =>
      simp only [List.cons_append, List.nil_append, variableDeclaration]
      rw [bind_of_ok (expect_over _ _ _ _ kind (by simp) (by simp)),
        bind_of_ok (eat_over_of_ne _ _ _ _ (by simp [semicolon]))]
      simp only [Bool.false_eq_true, if_false]
      rw [bind_of_ok (closedBy_over _ _ _ semicolon (by simp))]
      rfl
  | @initialized name equals closing e tokens kind sign value semicolon =>
      simp only [List.length_append, List.length_cons, List.length_nil] at enough
      simp only [List.cons_append, List.append_assoc, List.nil_append, variableDeclaration]
      rw [bind_of_ok (expect_over _ _ _ _ kind (by simp) (by simp)),
        bind_of_ok (eat_over _ _ _ _ sign (by simp) (by simp))]
      simp only [if_true]
      rw [closed_over value semicolon _ _ _ (by omega) (by simp)]
      simp [pure_apply]

theorem expressionStatement_reads {closing : Token} {e : Expr} {tokens : List Token}
    (value : IsExpression e tokens) (semicolon : closing.kind = .symbol .semicolon) :
    Reads expressionStatement 0 (fun _ => True) (tokens ++ [closing]) (.expression e) := by
  intro depth before next rest complaints enough _
  simp only [List.length_append, List.length_cons, List.length_nil] at enough
  simp only [List.append_assoc, List.cons_append, List.nil_append, expressionStatement]
  rw [closed_over value semicolon _ _ _ (by omega) (by simp)]
  simp [pure_apply]

theorem printStatement_reads {closing : Token} {e : Expr} {tokens : List Token}
    (value : IsExpression e tokens) (semicolon : closing.kind = .symbol .semicolon) :
    Reads printStatement 0 (fun _ => True) (tokens ++ [closing]) (.print e) := by
  intro depth before next rest complaints enough _
  simp only [List.length_append, List.length_cons, List.length_nil] at enough
  simp only [List.append_assoc, List.cons_append, List.nil_append, printStatement]
  rw [closed_over value semicolon _ _ _ (by omega) (by simp)]
  simp [pure_apply]

theorem returnStatement_reads (keyword : Token) {closing : Token} {e : Expr} {tokens : List Token}
    (value : IsExpression e tokens) (semicolon : closing.kind = .symbol .semicolon) :
    Reads (returnStatement true keyword) 0 (fun _ => True) (tokens ++ [closing])
      (.giveBack keyword (some e)) := by
  intro depth before next rest complaints enough _
  simp only [List.length_append, List.length_cons, List.length_nil] at enough
  obtain ⟨t, others, rfl, begins⟩ := begins_of_expression value
  have notSemicolon : (t.kind == .symbol .semicolon) = false := by
    simpa using begins_ne _ begins (by simp [BeginsExpression, BeginsPrimary])
  simp only [List.append_assoc, List.cons_append, List.nil_append, returnStatement]
  simp only [Bool.not_true, Bool.false_eq_true, if_false]
  rw [bind_of_ok (check_over ..), notSemicolon]
  simp only [Bool.false_eq_true, if_false]
  rw [← List.cons_append, closed_over value semicolon _ _ _ (by omega) (by simp)]
  simp [pure_apply]

theorem returnStatement_reads_bare (keyword : Token) {closing : Token}
    (semicolon : closing.kind = .symbol .semicolon) :
    Reads (returnStatement true keyword) 0 (fun _ => True) [closing] (.giveBack keyword none) := by
  intro depth before next rest complaints _ _
  simp only [List.cons_append, List.nil_append, returnStatement, Bool.not_true, Bool.false_eq_true,
    if_false]
  rw [bind_of_ok (check_over ..), semicolon]
  simp only [beq_self_eq_true, if_true]
  rw [bind_of_ok (closedBy_over _ _ _ semicolon (by simp))]
  rfl

theorem parameters_read {params tokens : List Token} (names : AreNames params tokens) :
    ∀ done : Array Token, done.size + params.length ≤ 255 →
      Reads (fun depth => parameters depth done) 0 (· = .symbol .rightParen) tokens
        (done.toList ++ params) := by
  induction names with
  | last kind =>
      intro done few depth before next rest complaints enough follows
      simp only [List.length_singleton] at enough few
      obtain ⟨depth, rfl⟩ : ∃ d, depth = d + 1 := ⟨depth - 1, by omega⟩
      have room : ¬maxArity ≤ done.size := by
        simp only [maxArity]
        omega
      simp only [parameters, if_neg room, List.cons_append, List.nil_append]
      rw [bind_of_ok (expect_over _ _ _ _ kind (by simp) (by simp)),
        bind_of_ok (eat_over_of_ne _ _ _ _ (by simp [follows]))]
      simp [pure_apply]
  | @more name comma names tokens kind separator others ih =>
      intro done few depth before next rest complaints enough follows
      simp only [List.length_cons] at enough few
      obtain ⟨depth, rfl⟩ : ∃ d, depth = d + 1 := ⟨depth - 1, by omega⟩
      have room : ¬maxArity ≤ done.size := by
        simp only [maxArity]
        omega
      have later := ih (done.push name) (by rw [Array.size_push]; omega) depth
        (comma :: name :: before) next rest complaints (by omega) follows
      simp only [parameters, if_neg room, List.cons_append]
      rw [bind_of_ok (expect_over _ _ _ _ kind (by simp) (by simp)),
        bind_of_ok (eat_over _ _ _ _ separator (by simp) (by simp))]
      simp only [if_true]
      refine later.trans ?_
      simp

theorem names_begin {params tokens : List Token} (names : AreNames params tokens) :
    ∃ t rest, tokens = t :: rest ∧ t.kind = .identifier := by
  cases names with
  | last kind => exact ⟨_, _, rfl, kind⟩
  | more kind _ _ => exact ⟨_, _, rfl, kind⟩

theorem loopInitializer_reads {initializer : Option Stmt} {tokens : List Token}
    (formed : IsInitializer initializer tokens) :
    Reads loopInitializer 0 (fun _ => True) tokens initializer := by
  intro depth before next rest complaints enough _
  cases formed with
  | absent semicolon =>
      simp only [List.cons_append, List.nil_append, loopInitializer]
      rw [bind_of_ok (eat_over _ _ _ _ semicolon (by simp) (by simp))]
      rfl
  | @declared keyword s tokens kind inner =>
      simp only [List.length_cons] at enough
      have read := variableDeclaration_reads inner depth (keyword :: before) next rest complaints
        (by omega) trivial
      simp only [List.cons_append, loopInitializer]
      rw [bind_of_ok (eat_over_of_ne _ _ _ _ (by simp [kind]))]
      simp only [Bool.false_eq_true, if_false]
      rw [bind_of_ok (eat_over _ _ _ _ kind (by simp) (by simp))]
      simp only [if_true]
      rw [map_apply, read]
      simp
  | @expression closing e tokens value semicolon =>
      obtain ⟨t, others, rfl, begins⟩ := begins_of_expression value
      have read := expressionStatement_reads value semicolon depth before next rest complaints
        enough trivial
      have notSemicolon := begins_ne (.symbol .semicolon) begins
        (by simp [BeginsExpression, BeginsPrimary])
      have notVar := begins_ne (.keyword .kwVar) begins
        (by simp [BeginsExpression, BeginsPrimary])
      simp only [List.cons_append, loopInitializer] at read ⊢
      rw [bind_of_ok (eat_over_of_ne _ _ _ _ notSemicolon)]
      simp only [Bool.false_eq_true, if_false]
      rw [bind_of_ok (eat_over_of_ne _ _ _ _ notVar)]
      simp only [Bool.false_eq_true, if_false]
      rw [map_apply, read]

theorem loopClause_reads (what : Expectation) {stop : Kind} {closing : Token} {clause : Option Expr}
    {tokens : List Token} (formed : IsClause clause tokens) (ends : closing.kind = stop)
    (stops : Stops stop) (apart : ¬BeginsExpression stop) (inside : stop ≠ .eof) :
    Reads (loopClause stop what) 0 (fun _ => True) (tokens ++ [closing]) clause := by
  intro depth before next rest complaints enough _
  simp only [List.append_assoc, List.cons_append, List.nil_append, loopClause]
  cases formed with
  | absent =>
      rw [List.nil_append, bind_of_ok (check_over ..), ends]
      simp only [beq_self_eq_true, if_true]
      rw [bind_of_ok (pure_apply _ _), bind_of_ok (expect_over _ _ _ _ ends inside (by simp))]
      rfl
  | @present e _ value =>
      simp only [List.length_append, List.length_cons, List.length_nil] at enough
      obtain ⟨t, others, rfl, begins⟩ := begins_of_expression value
      have read := expression_reads value depth before closing (next :: rest) complaints (by omega)
        (ends ▸ stops)
      have notStop : (t.kind == stop) = false := by simpa using begins_ne _ begins apart
      have mapped : (some <$> expression depth)
          (.over before (t :: others ++ closing :: next :: rest) complaints) =
            .ok (some e) (.over ((t :: others).reverse ++ before) (closing :: next :: rest)
              complaints) := by
        rw [map_apply, read]
      rw [List.cons_append, bind_of_ok (check_over ..), notStop]
      simp only [Bool.false_eq_true, if_false]
      rw [← List.cons_append, bind_of_ok mapped,
        bind_of_ok (expect_over _ _ _ _ ends inside (by simp))]
      simp [pure_apply]

/-- The next token may not be an `else` that an open statement would take. -/
def FollowsStatement (isOpen : Bool) (kind : Kind) : Prop :=
  isOpen = true → kind ≠ .keyword .kwElse

/-- What the parser makes of the tokens of a part. -/
def ReadsPart : Grammar.Part → List Token → Prop
  | .statement inFunction isOpen s, tokens =>
      Reads (fun depth => statement depth inFunction) 1 (FollowsStatement isOpen) tokens s
  | .declaration inFunction isOpen s, tokens =>
      Reads (fun depth => declaration depth inFunction) 2 (FollowsStatement isOpen) tokens s
  | .declarations inFunction body, tokens =>
      (∀ (done : Array Stmt) (closing : Token), closing.kind = .symbol .rightBrace →
        Reads (fun depth => block depth inFunction done) 0 (fun _ => True) (tokens ++ [closing])
          (done.toList ++ body)) ∧
      (inFunction = false → ∀ done : Array Stmt,
        Reads (fun depth => declarations depth done) 3 (· = .eof) tokens (done.toList ++ body))

theorem recovering_of_ok {α : Type} {p : Parser α} {s s' : State} {v : α} (read : p s = .ok v s') :
    recovering p s = .ok (some v) s' := by
  rw [recovering, read]

theorem statement_of_expression {inFunction : Bool} {depth : Nat} {before rest : List Token}
    {t : Token} {complaints : Array Complaint} (begins : BeginsExpression t.kind) :
    statement (depth + 1) inFunction (.over before (t :: rest) complaints) =
      expressionStatement depth (.over before (t :: rest) complaints) := by
  rw [statement, bind_of_ok (current_over ..)]
  simp only [BeginsExpression, BeginsPrimary, List.mem_cons, List.not_mem_nil, or_false] at begins
  rcases begins with (kind | kind | kind | kind | kind | kind | kind) | kind | kind <;> rw [kind]

theorem declarations_follow {inFunction : Bool} {body : List Stmt} {tokens : List Token}
    (formed : Forms (.declarations inFunction body) tokens) {closing : Token}
    (apart : closing.kind ≠ .keyword .kwElse) (later : List Token) :
    ∃ u more, tokens ++ closing :: later = u :: more ∧ u.kind ≠ .keyword .kwElse := by
  cases formed with
  | noDeclarations => exact ⟨closing, later, rfl, apart⟩
  | @moreDeclarations _ _ _ _ first rest formedFirst _ =>
      obtain ⟨u, more, rfl, begins⟩ := declaration_begins formedFirst
      exact ⟨u, more ++ (rest ++ closing :: later), by simp, begins_declaration_ne _ begins
        (by simp [BeginsDeclaration, BeginsStatement, BeginsExpression, BeginsPrimary])⟩

theorem declarations_read_more {inFunction isOpen : Bool} {s : Stmt} {body : List Stmt}
    {tokens rest : List Token} (formed : Forms (.declaration inFunction isOpen s) tokens)
    (first : ReadsPart (.declaration inFunction isOpen s) tokens)
    (formedOthers : Forms (.declarations inFunction body) rest)
    (others : ReadsPart (.declarations inFunction body) rest) :
    ReadsPart (.declarations inFunction (s :: body)) (tokens ++ rest) := by
  obtain ⟨t, after, rfl, begins⟩ := declaration_begins formed
  have notBrace := begins_declaration_ne (.symbol .rightBrace) begins
    (by simp [BeginsDeclaration, BeginsStatement, BeginsExpression, BeginsPrimary])
  have notEof := begins_declaration_ne .eof begins
    (by simp [BeginsDeclaration, BeginsStatement, BeginsExpression, BeginsPrimary])
  -- A brace ends the declarations of a block, and the end token those of a program.
  constructor
  · intro done closing brace depth before next later complaints enough _
    simp only [List.length_append, List.length_cons, List.length_nil] at enough
    obtain ⟨depth, rfl⟩ : ∃ d, depth = d + 1 := ⟨depth - 1, by omega⟩
    have apart : closing.kind ≠ .keyword .kwElse := by simp [brace]
    obtain ⟨u, more, split, follow⟩ := declarations_follow formedOthers apart (next :: later)
    have readFirst := first depth before u more complaints
      (by simp only [List.length_cons]; omega) fun _ => follow
    have readOthers := others.1 (done.push s) closing brace depth
      ((t :: after).reverse ++ before) next later complaints
      (by simp only [List.length_append, List.length_cons, List.length_nil]; omega) trivial
    have isBrace : (t.kind == .symbol .rightBrace) = false := by simpa using notBrace
    have isEof : (t.kind == .eof) = false := by simpa using notEof
    simp only [List.append_assoc, List.cons_append, List.nil_append] at readFirst readOthers ⊢
    rw [← split] at readFirst
    simp only [block]
    rw [bind_of_ok (check_over ..), isBrace, bind_of_ok (atEnd_over ..), isEof]
    simp only [Bool.or_self, Bool.false_eq_true, if_false]
    rw [bind_of_ok (recovering_of_ok readFirst)]
    refine readOthers.trans ?_
    simp
  · intro atTop done depth before next later complaints enough follow
    simp only [List.length_append, List.length_cons] at enough
    obtain ⟨depth, rfl⟩ : ∃ d, depth = d + 1 := ⟨depth - 1, by omega⟩
    have apart : next.kind ≠ .keyword .kwElse := by simp [follow]
    obtain ⟨u, more, split, followNext⟩ := declarations_follow formedOthers apart later
    subst atTop
    have readFirst := first depth before u more complaints
      (by simp only [List.length_cons]; omega) fun _ => followNext
    have readOthers := others.2 rfl (done.push s) depth ((t :: after).reverse ++ before) next later
      complaints (by omega) follow
    have isEof : (t.kind == .eof) = false := by simpa using notEof
    simp only [List.append_assoc, List.cons_append] at readFirst readOthers ⊢
    rw [← split] at readFirst
    simp only [declarations]
    rw [bind_of_ok (atEnd_over ..), isEof]
    simp only [Bool.false_eq_true, if_false]
    rw [bind_of_ok (recovering_of_ok readFirst)]
    refine readOthers.trans ?_
    simp

theorem declarations_read_none (inFunction : Bool) :
    ReadsPart (.declarations inFunction []) [] := by
  constructor
  · intro done closing brace depth before next later complaints enough _
    simp only [List.nil_append, List.length_singleton] at enough
    obtain ⟨depth, rfl⟩ : ∃ d, depth = d + 1 := ⟨depth - 1, by omega⟩
    simp only [block, List.cons_append, List.nil_append]
    rw [bind_of_ok (check_over ..), brace]
    simp only [beq_self_eq_true, bind_of_ok (atEnd_over ..), Bool.true_or, if_true]
    rw [bind_of_ok (expect_over _ _ _ _ brace (by simp) (by simp))]
    simp [pure_apply]
  · intro _ done depth before next later complaints enough follow
    obtain ⟨depth, rfl⟩ : ∃ d, depth = d + 1 := ⟨depth - 1, by omega⟩
    simp only [declarations, List.nil_append]
    rw [bind_of_ok (atEnd_over ..), follow]
    simp [pure_apply]

section Rules

variable {inFunction isOpen : Bool} {keyword opening closing : Token} {condition : Expr}
  {tested tokens : List Token}

/-- A parser takes over behind the first token of a statement. -/
def Enters (inFunction : Bool) (keyword : Token) (p : Nat → Parser Stmt) : Prop :=
  ∀ depth before rest complaints, rest ≠ [] →
    statement (depth + 1) inFunction (.over before (keyword :: rest) complaints) =
      p depth (.over (keyword :: before) rest complaints)

theorem Enters.reads {p : Nat → Parser Stmt} {Follow : Kind → Prop} {s : Stmt}
    (enters : Enters inFunction keyword p) (rest : Reads p 0 Follow tokens s) :
    Reads (fun depth => statement depth inFunction) 1 Follow (keyword :: tokens) s := by
  intro depth before next later complaints enough follow
  simp only [List.length_cons] at enough
  obtain ⟨depth, rfl⟩ : ∃ d, depth = d + 1 := ⟨depth - 1, by omega⟩
  have read := rest depth (keyword :: before) next later complaints (by omega) follow
  rw [List.cons_append]
  refine (enters depth before _ complaints (by simp)).trans (read.trans ?_)
  simp

theorem condition_over {α : Type} {what after : Expectation} {k : Expr → Parser α} {depth : Nat}
    (left : opening.kind = .symbol .leftParen) (test : IsExpression condition tested)
    (right : closing.kind = .symbol .rightParen) (before rest : List Token)
    (complaints : Array Complaint) (enough : 8 * tested.length + 4 ≤ depth) (more : rest ≠ []) :
    (expect (.symbol .leftParen) what >>= fun _ => expression depth >>= fun e =>
        expect (.symbol .rightParen) after >>= fun _ => k e)
      (.over before (opening :: (tested ++ closing :: rest)) complaints) =
    k condition (.over (closing :: (tested.reverse ++ opening :: before)) rest complaints) := by
  have read := expression_reads test depth (opening :: before) closing rest complaints
    (by omega) (right ▸ stops_rightParen)
  rw [bind_of_ok (expect_over _ _ _ _ left (by simp) (by simp)), bind_of_ok read,
    bind_of_ok (expect_over _ _ _ _ right (by simp) more)]

theorem expression_read {e : Expr} (value : IsExpression e tokens)
    (semicolon : closing.kind = .symbol .semicolon) :
    ReadsPart (.statement inFunction false (.expression e)) (tokens ++ [closing]) := by
  intro depth before next rest complaints enough _
  obtain ⟨depth, rfl⟩ : ∃ d, depth = d + 1 := ⟨depth - 1, by omega⟩
  obtain ⟨t, others, rfl, begins⟩ := begins_of_expression value
  have read := expressionStatement_reads value semicolon depth before next rest complaints
    (by omega) trivial
  simp only [List.cons_append] at read ⊢
  exact (statement_of_expression begins).trans read

theorem print_enters (kind : keyword.kind = .keyword .kwPrint) :
    Enters inFunction keyword printStatement := by
  intro depth before rest complaints more
  rw [statement, bind_of_ok (current_over ..), kind]
  simp only
  rw [bind_of_ok (advance_over _ _ _ _ (by simp [kind]) more)]

theorem print_read {e : Expr} (kind : keyword.kind = .keyword .kwPrint)
    (value : IsExpression e tokens) (semicolon : closing.kind = .symbol .semicolon) :
    ReadsPart (.statement inFunction false (.print e)) (keyword :: tokens ++ [closing]) := by
  intro depth before next rest complaints enough _
  exact (print_enters kind).reads (printStatement_reads value semicolon) depth before next rest
    complaints enough
    trivial

theorem return_enters (kind : keyword.kind = .keyword .kwReturn) :
    Enters inFunction keyword (returnStatement inFunction keyword) := by
  intro depth before rest complaints more
  rw [statement, bind_of_ok (current_over ..), kind]
  simp only
  rw [bind_of_ok (advance_over _ _ _ _ (by simp [kind]) more)]

theorem return_read (kind : keyword.kind = .keyword .kwReturn)
    (semicolon : closing.kind = .symbol .semicolon) :
    ReadsPart (.statement true false (.giveBack keyword none)) [keyword, closing] := by
  intro depth before next rest complaints enough _
  exact (return_enters kind).reads (returnStatement_reads_bare keyword semicolon) depth before next
    rest complaints enough trivial

theorem returnValue_read {e : Expr} (kind : keyword.kind = .keyword .kwReturn)
    (value : IsExpression e tokens) (semicolon : closing.kind = .symbol .semicolon) :
    ReadsPart (.statement true false (.giveBack keyword (some e)))
      (keyword :: tokens ++ [closing]) := by
  intro depth before next rest complaints enough _
  exact (return_enters kind).reads (returnStatement_reads keyword value semicolon) depth before next
    rest complaints enough trivial

theorem block_enters (left : opening.kind = .symbol .leftBrace) :
    Enters inFunction opening fun depth => Stmt.block <$> block depth inFunction #[] := by
  intro depth before rest complaints more
  rw [statement, bind_of_ok (current_over ..), left]
  simp only
  rw [bind_of_ok (advance_over _ _ _ _ (by simp [left]) more)]

theorem block_read {body : List Stmt} (left : opening.kind = .symbol .leftBrace)
    (right : closing.kind = .symbol .rightBrace)
    (inner : ReadsPart (.declarations inFunction body) tokens) :
    ReadsPart (.statement inFunction false (.block body)) (opening :: tokens ++ [closing]) := by
  have reads : Reads (fun depth => Stmt.block <$> block depth inFunction #[]) 0 (fun _ => True)
      (tokens ++ [closing]) (.block body) := by
    intro depth before next rest complaints enough _
    have read := inner.1 #[] closing right depth before next rest complaints enough trivial
    simp only [map_apply, List.nil_append] at read ⊢
    rw [read]
  intro depth before next rest complaints enough _
  exact (block_enters left).reads reads depth before next rest complaints enough trivial

theorem if_over (kind : keyword.kind = .keyword .kwIf) (left : opening.kind = .symbol .leftParen)
    (test : IsExpression condition tested) (right : closing.kind = .symbol .rightParen)
    {depth : Nat} (before rest : List Token) (complaints : Array Complaint)
    (enough : 8 * tested.length + 4 ≤ depth) (more : rest ≠ []) :
    statement (depth + 1) inFunction
        (.over before (keyword :: opening :: (tested ++ closing :: rest)) complaints) =
      (do
        let thenBranch ← statement depth inFunction
        if ← eat (.keyword .kwElse) then
          let elseBranch ← statement depth inFunction
          pure (Stmt.ifElse condition thenBranch elseBranch)
        else
          pure (Stmt.ifThen condition thenBranch))
        (.over (closing :: (tested.reverse ++ opening :: keyword :: before)) rest complaints) := by
  rw [statement, bind_of_ok (current_over ..), kind]
  simp only
  rw [bind_of_ok (advance_over _ _ _ _ (by simp [kind]) (by simp)),
    condition_over left test right _ _ _ enough more]

theorem ifThen_read {branch : Stmt} (kind : keyword.kind = .keyword .kwIf)
    (left : opening.kind = .symbol .leftParen) (test : IsExpression condition tested)
    (right : closing.kind = .symbol .rightParen)
    (first : ReadsPart (.statement inFunction isOpen branch) tokens) :
    ReadsPart (.statement inFunction true (.ifThen condition branch))
      (keyword :: opening :: tested ++ closing :: tokens) := by
  intro depth before next rest complaints enough follow
  obtain ⟨depth, rfl⟩ : ∃ d, depth = d + 1 := ⟨depth - 1, by omega⟩
  simp only [List.length_append, List.length_cons] at enough
  have readBranch := first depth (closing :: (tested.reverse ++ opening :: keyword :: before)) next
    rest complaints (by omega) (fun _ => follow rfl)
  simp only [List.cons_append, List.append_assoc]
  rw [if_over kind left test right before _ _ (by omega) (by simp), bind_of_ok readBranch,
    bind_of_ok (eat_over_of_ne _ _ _ _ (follow rfl))]
  simp [pure_apply]

theorem ifElse_read {divider : Token} {branch other : Stmt} {tokens' : List Token}
    (kind : keyword.kind = .keyword .kwIf) (left : opening.kind = .symbol .leftParen)
    (test : IsExpression condition tested) (right : closing.kind = .symbol .rightParen)
    (first : ReadsPart (.statement inFunction false branch) tokens)
    (middle : divider.kind = .keyword .kwElse)
    (second : ReadsPart (.statement inFunction isOpen other) tokens') :
    ReadsPart (.statement inFunction isOpen (.ifElse condition branch other))
      (keyword :: opening :: tested ++ closing :: tokens ++ divider :: tokens') := by
  intro depth before next rest complaints enough follow
  obtain ⟨depth, rfl⟩ : ∃ d, depth = d + 1 := ⟨depth - 1, by omega⟩
  simp only [List.length_append, List.length_cons] at enough
  have readBranch := first depth
    (closing :: (tested.reverse ++ opening :: keyword :: before)) divider
    (tokens' ++ next :: rest) complaints (by omega) (fun impossible => by cases impossible)
  have readOther := second depth
    (divider :: (tokens.reverse ++ closing :: (tested.reverse ++ opening :: keyword :: before)))
    next rest complaints (by omega) follow
  simp only [List.cons_append, List.append_assoc]
  rw [if_over kind left test right before _ _ (by omega) (by simp), bind_of_ok readBranch,
    bind_of_ok (eat_over _ _ _ _ middle (by simp) (by simp))]
  simp only [if_true]
  rw [bind_of_ok readOther]
  simp [pure_apply]

theorem while_over (kind : keyword.kind = .keyword .kwWhile)
    (left : opening.kind = .symbol .leftParen) (test : IsExpression condition tested)
    (right : closing.kind = .symbol .rightParen) {depth : Nat} (before rest : List Token)
    (complaints : Array Complaint) (enough : 8 * tested.length + 4 ≤ depth) (more : rest ≠ []) :
    statement (depth + 1) inFunction
        (.over before (keyword :: opening :: (tested ++ closing :: rest)) complaints) =
      (do
        let body ← statement depth inFunction
        pure (Stmt.loop condition body))
        (.over (closing :: (tested.reverse ++ opening :: keyword :: before)) rest complaints) := by
  rw [statement, bind_of_ok (current_over ..), kind]
  simp only
  rw [bind_of_ok (advance_over _ _ _ _ (by simp [kind]) (by simp)),
    condition_over left test right _ _ _ enough more]

theorem loop_read {body : Stmt} (kind : keyword.kind = .keyword .kwWhile)
    (left : opening.kind = .symbol .leftParen) (test : IsExpression condition tested)
    (right : closing.kind = .symbol .rightParen)
    (repeated : ReadsPart (.statement inFunction isOpen body) tokens) :
    ReadsPart (.statement inFunction isOpen (.loop condition body))
      (keyword :: opening :: tested ++ closing :: tokens) := by
  intro depth before next rest complaints enough follow
  obtain ⟨depth, rfl⟩ : ∃ d, depth = d + 1 := ⟨depth - 1, by omega⟩
  simp only [List.length_append, List.length_cons] at enough
  have readBody := repeated depth (closing :: (tested.reverse ++ opening :: keyword :: before)) next
    rest complaints (by omega) follow
  simp only [List.cons_append, List.append_assoc]
  rw [while_over kind left test right before _ _ (by omega) (by simp), bind_of_ok readBody]
  simp [pure_apply]

theorem for_over {middle : Token} {initializer : Option Stmt} {clause increment : Option Expr}
    {started stepped : List Token} (kind : keyword.kind = .keyword .kwFor)
    (left : opening.kind = .symbol .leftParen) (start : IsInitializer initializer started)
    (test : IsClause clause tested) (semicolon : middle.kind = .symbol .semicolon)
    (step : IsClause increment stepped) (right : closing.kind = .symbol .rightParen) {depth : Nat}
    (before rest : List Token) (complaints : Array Complaint)
    (enough : 8 * (started.length + tested.length + stepped.length + 1) ≤ depth)
    (more : rest ≠ []) :
    statement (depth + 1) inFunction (.over before
        (keyword :: opening :: (started ++ (tested ++ middle :: (stepped ++ closing :: rest))))
        complaints) =
      (do
        let body ← statement depth inFunction
        pure (desugarFor initializer clause increment body))
        (.over ((stepped ++ [closing]).reverse ++ ((tested ++ [middle]).reverse ++
          (started.reverse ++ opening :: keyword :: before))) rest complaints) := by
  -- Each clause is read before the first token of the next one.
  obtain ⟨u, beyond, split⟩ : ∃ u beyond,
      tested ++ middle :: (stepped ++ closing :: rest) = u :: beyond := by
    cases tested <;> exact ⟨_, _, rfl⟩
  obtain ⟨v, further, splitStep⟩ : ∃ v further, stepped ++ closing :: rest = v :: further := by
    cases stepped <;> exact ⟨_, _, rfl⟩
  obtain ⟨w, last, rfl⟩ := List.exists_cons_of_ne_nil more
  have readStart := loopInitializer_reads start depth (opening :: keyword :: before) u beyond
    complaints (by omega) trivial
  have readTest := loopClause_reads .semicolonAfterLoopCondition test semicolon
    stops_semicolon (by simp [BeginsExpression, BeginsPrimary]) (by simp) depth
    (started.reverse ++ opening :: keyword :: before) v further complaints
    (by simp only [List.length_append, List.length_singleton]; omega) trivial
  have readStep := loopClause_reads .parenAfterForClauses step right
    stops_rightParen (by simp [BeginsExpression, BeginsPrimary]) (by simp) depth
    ((tested ++ [middle]).reverse ++ (started.reverse ++ opening :: keyword :: before)) w last
    complaints (by simp only [List.length_append, List.length_singleton]; omega) trivial
  simp only [← split, ← splitStep, List.cons_append, List.append_assoc,
    List.nil_append] at readStart readTest readStep
  rw [statement, bind_of_ok (current_over ..), kind]
  simp only
  rw [bind_of_ok (advance_over _ _ _ _ (by simp [kind]) (by simp)),
    bind_of_ok (expect_over _ _ _ _ left (by simp) (by simp [split])), bind_of_ok readStart,
    bind_of_ok readTest, bind_of_ok readStep]

theorem loopWithClauses_read {middle : Token} {initializer : Option Stmt}
    {clause increment : Option Expr} {body : Stmt} {started stepped : List Token}
    (kind : keyword.kind = .keyword .kwFor) (left : opening.kind = .symbol .leftParen)
    (start : IsInitializer initializer started) (test : IsClause clause tested)
    (semicolon : middle.kind = .symbol .semicolon) (step : IsClause increment stepped)
    (right : closing.kind = .symbol .rightParen)
    (repeated : ReadsPart (.statement inFunction isOpen body) tokens) :
    ReadsPart (.statement inFunction isOpen (desugarFor initializer clause increment body))
      (keyword :: opening :: started ++ tested ++ middle :: stepped ++ closing :: tokens) := by
  intro depth before next rest complaints enough follow
  obtain ⟨depth, rfl⟩ : ∃ d, depth = d + 1 := ⟨depth - 1, by omega⟩
  simp only [List.length_append, List.length_cons] at enough
  have readBody := repeated depth ((stepped ++ [closing]).reverse ++
    ((tested ++ [middle]).reverse ++ (started.reverse ++ opening :: keyword :: before)))
    next rest complaints (by omega) follow
  simp only [List.cons_append, List.append_assoc]
  rw [for_over kind left start test semicolon step right before _ _ (by omega) (by simp),
    bind_of_ok readBody]
  simp [pure_apply]

theorem function_over {name brace : Token} {params listed : List Token}
    (kind : keyword.kind = .keyword .kwFunc) (named : name.kind = .identifier)
    (left : opening.kind = .symbol .leftParen) (given : AreParameters params listed)
    (right : closing.kind = .symbol .rightParen) (start : brace.kind = .symbol .leftBrace)
    {depth : Nat} (before rest : List Token) (complaints : Array Complaint)
    (enough : 8 * listed.length ≤ depth) (more : rest ≠ []) :
    declaration (depth + 1) inFunction (.over before
        (keyword :: name :: opening :: (listed ++ closing :: brace :: rest)) complaints) =
      (do
        let body ← block depth true #[]
        pure (Stmt.function name params body))
        (.over (brace :: closing :: (listed.reverse ++ opening :: name :: keyword :: before)) rest
          complaints) := by
  rw [declaration, bind_of_ok (eat_over _ _ _ _ kind (by simp) (by simp))]
  simp only [if_true]
  rw [bind_of_ok (expect_over _ _ _ _ named (by simp) (by simp)),
    bind_of_ok (expect_over _ _ _ _ left (by simp) (by simp))]
  rcases given with ⟨rfl, rfl⟩ | ⟨names, few⟩
  · rw [List.nil_append, bind_of_ok (check_over ..), right]
    simp only [beq_self_eq_true, if_true]
    rw [bind_of_ok (pure_apply _ _), bind_of_ok (expect_over _ _ _ _ right (by simp) (by simp)),
      bind_of_ok (expect_over _ _ _ _ start (by simp) more)]
    rfl
  · have readNames := parameters_read names #[] (by simpa using few) depth
      (opening :: name :: keyword :: before) closing (brace :: rest) complaints enough right
    obtain ⟨t, others, rfl, begins⟩ := names_begin names
    simp only [List.cons_append] at readNames ⊢
    rw [bind_of_ok (check_over ..), begins]
    simp only [reduceCtorEq, beq_iff_eq, if_false]
    rw [bind_of_ok readNames, bind_of_ok (expect_over _ _ _ _ right (by simp) (by simp)),
      bind_of_ok (expect_over _ _ _ _ start (by simp) more)]
    rfl

theorem function_read {name brace unbrace : Token} {params listed : List Token} {body : List Stmt}
    (kind : keyword.kind = .keyword .kwFunc) (named : name.kind = .identifier)
    (left : opening.kind = .symbol .leftParen) (given : AreParameters params listed)
    (right : closing.kind = .symbol .rightParen) (start : brace.kind = .symbol .leftBrace)
    (stop : unbrace.kind = .symbol .rightBrace)
    (inner : ReadsPart (.declarations true body) tokens) :
    ReadsPart (.declaration inFunction false (.function name params body))
      (keyword :: name :: opening :: listed ++ closing :: brace :: tokens ++ [unbrace]) := by
  intro depth before next rest complaints enough _
  obtain ⟨depth, rfl⟩ : ∃ d, depth = d + 1 := ⟨depth - 1, by omega⟩
  simp only [List.length_append, List.length_cons, List.length_nil] at enough
  have readBody := inner.1 #[] unbrace stop depth
    (brace :: closing :: (listed.reverse ++ opening :: name :: keyword :: before)) next rest
    complaints (by simp only [List.length_append, List.length_singleton]; omega) trivial
  simp only [List.cons_append, List.append_assoc, List.nil_append] at readBody ⊢
  rw [function_over kind named left given right start before _ _ (by omega) (by simp),
    bind_of_ok readBody]
  simp [pure_apply]

theorem variable_read {s : Stmt} (kind : keyword.kind = .keyword .kwVar)
    (inner : IsVariable s tokens) :
    ReadsPart (.declaration inFunction false s) (keyword :: tokens) := by
  intro depth before next rest complaints enough _
  obtain ⟨depth, rfl⟩ : ∃ d, depth = d + 1 := ⟨depth - 1, by omega⟩
  simp only [List.length_cons] at enough
  have read := variableDeclaration_reads inner depth (keyword :: before) next rest complaints
    (by omega) trivial
  simp only [List.cons_append, declaration]
  rw [bind_of_ok (eat_over_of_ne _ _ _ _ (by simp [kind]))]
  simp only [Bool.false_eq_true, if_false]
  rw [bind_of_ok (eat_over _ _ _ _ kind (by simp) (by simp))]
  simp only [if_true]
  refine read.trans ?_
  simp

theorem declaration_of_statement {t : Token} (begins : BeginsStatement t.kind) (depth : Nat)
    (before rest : List Token) (complaints : Array Complaint) :
    declaration (depth + 1) inFunction (.over before (t :: rest) complaints) =
      statement depth inFunction (.over before (t :: rest) complaints) := by
  have notFunc : t.kind ≠ .keyword .kwFunc := by
    intro kind
    simp [BeginsStatement, BeginsExpression, BeginsPrimary, kind] at begins
  have notVar : t.kind ≠ .keyword .kwVar := by
    intro kind
    simp [BeginsStatement, BeginsExpression, BeginsPrimary, kind] at begins
  rw [declaration, bind_of_ok (eat_over_of_ne _ _ _ _ notFunc)]
  simp only [Bool.false_eq_true, if_false]
  rw [bind_of_ok (eat_over_of_ne _ _ _ _ notVar)]
  rfl

theorem statement_read {s : Stmt} (formed : Forms (.statement inFunction isOpen s) tokens)
    (inner : ReadsPart (.statement inFunction isOpen s) tokens) :
    ReadsPart (.declaration inFunction isOpen s) tokens := by
  intro depth before next rest complaints enough follow
  obtain ⟨depth, rfl⟩ : ∃ d, depth = d + 1 := ⟨depth - 1, by omega⟩
  obtain ⟨t, others, rfl, begins⟩ := statement_begins formed
  have read := inner depth before next rest complaints (by omega) follow
  rw [List.cons_append] at read ⊢
  exact (declaration_of_statement begins depth before _ complaints).trans read

end Rules

/-- The parser reads every part of the grammar as its tree. -/
theorem forms_read {part : Grammar.Part} {tokens : List Token} (formed : Forms part tokens) :
    ReadsPart part tokens := by
  induction formed with
  | expression value semicolon => exact expression_read value semicolon
  | print kind value semicolon => exact print_read kind value semicolon
  | giveBack kind semicolon => exact return_read kind semicolon
  | giveBackValue kind value semicolon => exact returnValue_read kind value semicolon
  | block left _ right ih => exact block_read left right ih
  | ifThen kind left test right _ ih => exact ifThen_read kind left test right ih
  | ifElse kind left test right _ middle _ ihFirst ihSecond =>
      exact ifElse_read kind left test right ihFirst middle ihSecond
  | loop kind left test right _ ih => exact loop_read kind left test right ih
  | loopWithClauses kind left start test semicolon step right _ tree ih =>
      obtain rfl := isLoop_iff.mp tree
      exact loopWithClauses_read kind left start test semicolon step right ih
  | function kind named left parameters right start _ stop ih =>
      exact function_read kind named left parameters right start stop ih
  | declared kind inner => exact variable_read kind inner
  | statement inner ih => exact statement_read inner ih
  | noDeclarations => exact declarations_read_none _
  | moreDeclarations first others ihFirst ihOthers =>
      exact declarations_read_more first ihFirst others ihOthers

/-- A program of the grammar is read without a complaint as its tree. -/
theorem read_of_program {program : List Stmt} {tokens : List Token} {ending : Token}
    (formed : IsProgram program tokens) (isEnd : ending.kind = .eof) :
    read (tokens ++ [ending]) = ⟨program, []⟩ := by
  have readAll := (forms_read formed).2 rfl #[] (enoughDepth (tokens ++ [ending]).length) [] ending
    [] #[] (by simp only [enoughDepth, List.length_append, List.length_singleton]; omega) isEnd
  obtain ⟨t, rest, split⟩ : ∃ t rest, tokens ++ [ending] = t :: rest := by
    cases tokens <;> exact ⟨_, _, rfl⟩
  have place : (⟨⟨[], t, rest⟩, #[]⟩ : State) = .over [] (t :: rest) #[] := rfl
  rw [split] at readAll ⊢
  simp only [List.append_nil] at readAll
  simp only [read, Cursor.ofList?, readFrom]
  rw [place, readAll]
  simp

end Jess.Parser
