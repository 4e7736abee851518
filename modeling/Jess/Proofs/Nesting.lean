import Jess.Proofs.Concatenation
import Jess.Proofs.StatementReading

/-!
# Within a nest of blocks

The tokens of a program that lead into a block: declarations that are complete,
and what opens the statements and the functions around it. Two texts that begin
with such tokens are read in the same way up to the block. If the readings of
the block are in step but for one complaint, then so are the readings of the
texts, since nothing that is read around the block looks at the complaints.
-/

namespace Jess.Parser

open Token (Kind)
open Grammar

/-- What has begun where tokens lead into a block. -/
inductive Spot
  | body (inFunction : Bool)
  | declaration (inFunction : Bool)
  | statement (inFunction : Bool)

/-- Tokens that lead from the beginning of something into a block, to behind some of its
declarations. The block belongs to a function if `inner` holds. -/
inductive Leads (inner : Bool) : Spot → List Token → Prop
  | here {body : List Stmt} {tokens : List Token} (done : Forms (.declarations inner body) tokens) :
      Leads inner (.body inner) tokens
  | within {inFunction : Bool} {body : List Stmt} {tokens front : List Token}
      (done : Forms (.declarations inFunction body) tokens)
      (next : Leads inner (.declaration inFunction) front) :
      Leads inner (.body inFunction) (tokens ++ front)
  | function {inFunction : Bool} {keyword name opening closing brace : Token}
      {params listed front : List Token} (kind : keyword.kind = .keyword .kwFunc)
      (named : name.kind = .identifier) (left : opening.kind = .symbol .leftParen)
      (parameters : AreParameters params listed) (right : closing.kind = .symbol .rightParen)
      (start : brace.kind = .symbol .leftBrace) (inside : Leads inner (.body true) front) :
      Leads inner (.declaration inFunction)
        (keyword :: name :: opening :: listed ++ [closing, brace] ++ front)
  | statement {inFunction : Bool} {front : List Token}
      (inside : Leads inner (.statement inFunction) front) :
      Leads inner (.declaration inFunction) front
  | block {inFunction : Bool} {opening : Token} {front : List Token}
      (left : opening.kind = .symbol .leftBrace) (inside : Leads inner (.body inFunction) front) :
      Leads inner (.statement inFunction) (opening :: front)
  | ifThen {inFunction : Bool} {keyword opening closing : Token} {condition : Expr}
      {tested front : List Token} (kind : keyword.kind = .keyword .kwIf)
      (left : opening.kind = .symbol .leftParen) (test : IsExpression condition tested)
      (right : closing.kind = .symbol .rightParen)
      (inside : Leads inner (.statement inFunction) front) :
      Leads inner (.statement inFunction) (keyword :: opening :: tested ++ [closing] ++ front)
  | ifElse {inFunction : Bool} {keyword opening closing divider : Token} {condition : Expr}
      {branch : Stmt} {tested tokens front : List Token} (kind : keyword.kind = .keyword .kwIf)
      (left : opening.kind = .symbol .leftParen) (test : IsExpression condition tested)
      (right : closing.kind = .symbol .rightParen)
      (first : Forms (.statement inFunction false branch) tokens)
      (middle : divider.kind = .keyword .kwElse)
      (inside : Leads inner (.statement inFunction) front) :
      Leads inner (.statement inFunction)
        (keyword :: opening :: tested ++ closing :: tokens ++ [divider] ++ front)
  | loop {inFunction : Bool} {keyword opening closing : Token} {condition : Expr}
      {tested front : List Token} (kind : keyword.kind = .keyword .kwWhile)
      (left : opening.kind = .symbol .leftParen) (test : IsExpression condition tested)
      (right : closing.kind = .symbol .rightParen)
      (inside : Leads inner (.statement inFunction) front) :
      Leads inner (.statement inFunction) (keyword :: opening :: tested ++ [closing] ++ front)
  | loopWithClauses {inFunction : Bool} {keyword opening middle closing : Token}
      {initializer : Option Stmt} {condition increment : Option Expr}
      {started tested stepped front : List Token} (kind : keyword.kind = .keyword .kwFor)
      (left : opening.kind = .symbol .leftParen) (start : IsInitializer initializer started)
      (test : IsClause condition tested) (semicolon : middle.kind = .symbol .semicolon)
      (step : IsClause increment stepped) (right : closing.kind = .symbol .rightParen)
      (inside : Leads inner (.statement inFunction) front) :
      Leads inner (.statement inFunction)
        (keyword :: opening :: started ++ tested ++ middle :: stepped ++ [closing] ++ front)

/-- The tokens of a program that lead into a block. -/
inductive LeadsIn (inner : Bool) : List Token → Prop
  | intro {body : List Stmt} {tokens front : List Token}
      (done : Forms (.declarations false body) tokens)
      (next : Leads inner (.declaration false) front) : LeadsIn inner (tokens ++ front)

def Spot.Begins : Spot → List Token → Prop
  | .body _, _ => True
  | .declaration _, front => ∃ t rest, front = t :: rest ∧ BeginsDeclaration t.kind
  | .statement _, front => ∃ t rest, front = t :: rest ∧ BeginsStatement t.kind

theorem leads_begins {inner : Bool} {spot : Spot} {front : List Token}
    (leads : Leads inner spot front) : spot.Begins front := by
  induction leads with
  | here | within => trivial
  | function kind => exact ⟨_, _, rfl, .inr (.inl kind)⟩
  | statement _ ih =>
      obtain ⟨t, rest, same, begins⟩ := ih
      exact ⟨t, rest, same, .inl begins⟩
  | block kind | ifThen kind | ifElse kind | loop kind | loopWithClauses kind =>
      exact ⟨_, _, rfl, .inr (by simp [kind])⟩

section Siblings

variable {inFunction : Bool} {p : Nat → Array Stmt → Parser (List Stmt)}

def ReadsEach (inFunction : Bool) (p : Nat → Array Stmt → Parser (List Stmt)) : Prop :=
  ∀ depth done before t rest complaints, BeginsDeclaration t.kind →
    p (depth + 1) done (.over before (t :: rest) complaints) =
      (recovering (declaration depth inFunction) >>= fun found => p depth (done ++ found.toArray))
        (.over before (t :: rest) complaints)

theorem declarations_each : ReadsEach false declarations := by
  intro depth done before t rest complaints begins
  exact declarations_inside (begins_declaration_ne .eof begins
    (by simp [BeginsDeclaration, BeginsStatement, BeginsExpression, BeginsPrimary]))

theorem block_each : ReadsEach inFunction (fun depth => block depth inFunction) := by
  intro depth done before t rest complaints begins
  have brace : (t.kind == .symbol .rightBrace) = false := by
    simpa using begins_declaration_ne (.symbol .rightBrace) begins
      (by simp [BeginsDeclaration, BeginsStatement, BeginsExpression, BeginsPrimary])
  have eof : (t.kind == .eof) = false := by
    simpa using begins_declaration_ne .eof begins
      (by simp [BeginsDeclaration, BeginsStatement, BeginsExpression, BeginsPrimary])
  simp only [block]
  rw [bind_of_ok (check_over ..), brace, bind_of_ok (atEnd_over ..), eof]
  simp only [Bool.or_self, Bool.false_eq_true, if_false]
  rw [bind_apply, bind_apply]
  cases recovering (declaration depth inFunction) (.over before (t :: rest) complaints) with
  | error => rfl
  | ok found => cases found <;> simp

theorem declarations_length {body : List Stmt} {tokens : List Token}
    (formed : Forms (.declarations inFunction body) tokens) : body.length ≤ tokens.length := by
  induction body generalizing tokens with
  | nil => exact Nat.zero_le _
  | cons s body ih =>
      cases formed with
      | moreDeclarations first others =>
          obtain ⟨t, rest, rfl, _⟩ := declaration_begins first
          have bound := ih others
          simp only [List.length_append, List.length_cons]
          omega

theorem ReadsEach.siblings (each : ReadsEach inFunction p) {body : List Stmt} {tokens : List Token}
    (formed : Forms (.declarations inFunction body) tokens) {next : Token}
    (apart : next.kind ≠ .keyword .kwElse) (rest : List Token) (complaints : Array Complaint) :
    ∀ depth done before, 8 * tokens.length + 3 ≤ depth + body.length →
      p (depth + body.length) done (.over before (tokens ++ next :: rest) complaints) =
        p depth (done ++ body.toArray) (.over (tokens.reverse ++ before) (next :: rest)
          complaints) := by
  induction body generalizing tokens with
  | nil =>
      intro depth done before enough
      cases formed with
      | noDeclarations => simp
  | cons s body ih =>
      intro depth done before enough
      cases formed with
      | @moreDeclarations _ _ _ _ first others formedFirst formedOthers =>
          obtain ⟨u, more, split, follow⟩ := declarations_follow formedOthers apart rest
          obtain ⟨t, after, rfl, begins⟩ := declaration_begins formedFirst
          simp only [List.length_append, List.length_cons] at enough
          have readFirst := forms_read formedFirst (depth + body.length) before u more complaints
            (by simp only [List.length_cons]; omega) fun _ => follow
          have readOthers := ih formedOthers depth (done.push s) ((t :: after).reverse ++ before)
            (by omega)
          rw [← split] at readFirst
          simp only [List.append_assoc, List.cons_append, List.length_cons] at readFirst ⊢
          rw [← Nat.add_assoc, each _ _ _ _ _ _ begins, bind_of_ok (recovering_of_ok readFirst)]
          refine Eq.trans ?_ (readOthers.trans ?_)
          · simp
          · simp

end Siblings

section Insertion

variable {α β : Type} {x : Complaint} {s l : List Token}

/-- Behind some tokens, two parsers are in step over two texts but for a complaint that only the
second one files, before all others. -/
def InStepBut (x : Complaint) (s l : List Token) (p p' : Parser α) (front : List Token) : Prop :=
  ∀ before before' c c', Meets [] (Beside []) c (c'.push x) (p (.over before (front ++ s) c))
    (p' (.over before' (front ++ l) c'))

theorem InStepBut.bind {p p' : Parser α} {f f' : α → Parser β} {front : List Token}
    [keep : ∀ v, Keeps (f v)] (first : InStepBut x s l p p' front)
    (second : ∀ v s' l', Alike [] s' l' → InStep [] (f v) (f' v) s' l' (Beside [])) :
    InStepBut x s l (p >>= f) (p' >>= f') front := by
  intro before before' c c'
  refine (first before before' c c').bindKeeping keep fun v s' l' beside => ?_
  cases beside with
  | alike alike => exact second v s' l' alike
  | parted cut => exact absurd rfl cut

theorem InStepBut.map {p p' : Parser α} (f : α → β) {front : List Token}
    (inStep : InStepBut x s l p p' front) : InStepBut x s l (f <$> p) (f <$> p') front := by
  rw [map_eq_pure_bind, map_eq_pure_bind]
  exact inStep.bind fun v s' l' alike => inStep_pure (.alike alike)

/-- What the rules of a spot do behind the tokens that lead from it into a block, at any depths
that are enough and `slack` apart. -/
def InStepAt (x : Complaint) (s l : List Token) (slack : Nat) (front : List Token) : Spot → Prop
  | .body inFunction => ∀ done depth depth', 8 * front.length + 3 ≤ depth → depth + slack ≤ depth' →
      InStepBut x s l (block depth inFunction done) (block depth' inFunction done) front
  | .declaration inFunction => ∀ depth depth', 8 * front.length + 2 ≤ depth →
      depth + slack ≤ depth' →
      InStepBut x s l (declaration depth inFunction) (declaration depth' inFunction) front
  | .statement inFunction => ∀ depth depth', 8 * front.length + 1 ≤ depth →
      depth + slack ≤ depth' →
      InStepBut x s l (statement depth inFunction) (statement depth' inFunction) front

structure Apart (s l : List Token) : Prop where
  short : ∃ t rest, s = t :: rest ∧ t.kind ≠ .keyword .kwElse
  long : ∃ t rest, l = t :: rest ∧ t.kind ≠ .keyword .kwElse

def GoesOnAs (rule p : Nat → Parser Stmt) (opener : List Token) : Prop :=
  ∀ depth before rest complaints, 8 * opener.length ≤ depth → rest ≠ [] →
    rule (depth + 1) (.over before (opener ++ rest) complaints) =
      p depth (.over (opener.reverse ++ before) rest complaints)

variable {inner inFunction : Bool} {slack : Nat} {front tokens : List Token}

theorem GoesOnAs.inStepBut {rule p : Nat → Parser Stmt} {opener : List Token}
    (goesOn : GoesOnAs rule p opener) (opened : opener ≠ []) (texts : Apart s l)
    (inside : ∀ depth depth', 8 * front.length + 3 ≤ depth → depth + slack ≤ depth' →
      InStepBut x s l (p depth) (p depth') front) {depth depth' : Nat}
    (enough : 8 * (opener ++ front).length + 1 ≤ depth) (apart : depth + slack ≤ depth') :
    InStepBut x s l (rule depth) (rule depth') (opener ++ front) := by
  intro before before' c c'
  have counted := List.length_pos_iff.mpr opened
  rw [List.length_append] at enough
  obtain ⟨d, rfl⟩ : ∃ d, depth = d + 1 := ⟨depth - 1, by omega⟩
  obtain ⟨d', rfl⟩ : ∃ d, depth' = d + 1 := ⟨depth' - 1, by omega⟩
  obtain ⟨⟨t, s, rfl, _⟩, ⟨u, l, rfl, _⟩⟩ := texts
  rw [List.append_assoc, List.append_assoc, goesOn d before _ c (by omega) (by simp),
    goesOn d' before' _ c' (by omega) (by simp)]
  exact inside d d' (by omega) (by omega) _ _ c c'

theorem InStepAt.make (inside : InStepAt x s l slack front (.statement inFunction))
    (make : Stmt → Stmt) (depth depth' : Nat) (enough : 8 * front.length + 3 ≤ depth)
    (apart : depth + slack ≤ depth') :
    InStepBut x s l
      (do
        let body ← statement depth inFunction
        pure (make body))
      (do
        let body ← statement depth' inFunction
        pure (make body)) front :=
  (inside depth depth' (by omega) apart).bind fun _ _ _ alike => inStep_pure (.alike alike)

section Openers

variable {keyword opening closing : Token} {condition : Expr} {tested : List Token}

theorem if_goesOn (kind : keyword.kind = .keyword .kwIf) (left : opening.kind = .symbol .leftParen)
    (test : IsExpression condition tested) (right : closing.kind = .symbol .rightParen) :
    GoesOnAs (fun depth => statement depth inFunction)
      (fun depth => do
        let thenBranch ← statement depth inFunction
        if ← eat (.keyword .kwElse) then
          let elseBranch ← statement depth inFunction
          pure (Stmt.ifElse condition thenBranch elseBranch)
        else
          pure (Stmt.ifThen condition thenBranch))
      (keyword :: opening :: tested ++ [closing]) := by
  intro depth before rest complaints enough more
  simp only [List.length_append, List.length_cons] at enough
  have room : 8 * tested.length + 4 ≤ depth := by omega
  simpa using if_over kind left test right before rest complaints room more

theorem else_goesOn {divider : Token} {branch : Stmt} (kind : keyword.kind = .keyword .kwIf)
    (left : opening.kind = .symbol .leftParen) (test : IsExpression condition tested)
    (right : closing.kind = .symbol .rightParen)
    (first : Forms (.statement inFunction false branch) tokens)
    (middle : divider.kind = .keyword .kwElse) :
    GoesOnAs (fun depth => statement depth inFunction)
      (fun depth => do
        let other ← statement depth inFunction
        pure (Stmt.ifElse condition branch other))
      (keyword :: opening :: tested ++ closing :: tokens ++ [divider]) := by
  intro depth before rest complaints enough more
  simp only [List.length_append, List.length_cons, List.length_nil] at enough
  have readBranch := forms_read first depth
    (closing :: (tested.reverse ++ opening :: keyword :: before)) divider rest complaints (by omega)
    (fun impossible => by cases impossible)
  simp only [List.cons_append, List.append_assoc, List.nil_append]
  rw [if_over kind left test right before _ _ (by omega) (by simp), bind_of_ok readBranch,
    bind_of_ok (eat_over _ _ _ _ middle (by simp) more)]
  simp

theorem while_goesOn (kind : keyword.kind = .keyword .kwWhile)
    (left : opening.kind = .symbol .leftParen) (test : IsExpression condition tested)
    (right : closing.kind = .symbol .rightParen) :
    GoesOnAs (fun depth => statement depth inFunction)
      (fun depth => do
        let body ← statement depth inFunction
        pure (Stmt.loop condition body))
      (keyword :: opening :: tested ++ [closing]) := by
  intro depth before rest complaints enough more
  simp only [List.length_append, List.length_cons] at enough
  have room : 8 * tested.length + 4 ≤ depth := by omega
  simpa using while_over kind left test right before rest complaints room more

theorem for_goesOn {middle : Token} {initializer : Option Stmt} {clause increment : Option Expr}
    {started stepped : List Token} (kind : keyword.kind = .keyword .kwFor)
    (left : opening.kind = .symbol .leftParen) (start : IsInitializer initializer started)
    (test : IsClause clause tested) (semicolon : middle.kind = .symbol .semicolon)
    (step : IsClause increment stepped) (right : closing.kind = .symbol .rightParen) :
    GoesOnAs (fun depth => statement depth inFunction)
      (fun depth => do
        let body ← statement depth inFunction
        pure (desugarFor initializer clause increment body))
      (keyword :: opening :: started ++ tested ++ middle :: stepped ++ [closing]) := by
  intro depth before rest complaints enough more
  simp only [List.length_append, List.length_cons, List.length_nil] at enough
  have room : 8 * (started.length + tested.length + stepped.length + 1) ≤ depth := by omega
  simpa using for_over kind left start test semicolon step right before rest complaints room more

theorem function_goesOn {name brace : Token} {params listed : List Token}
    (kind : keyword.kind = .keyword .kwFunc) (named : name.kind = .identifier)
    (left : opening.kind = .symbol .leftParen) (given : AreParameters params listed)
    (right : closing.kind = .symbol .rightParen) (start : brace.kind = .symbol .leftBrace) :
    GoesOnAs (fun depth => declaration depth inFunction)
      (fun depth => do
        let body ← block depth true #[]
        pure (Stmt.function name params body))
      (keyword :: name :: opening :: listed ++ [closing, brace]) := by
  intro depth before rest complaints enough more
  simp only [List.length_append, List.length_cons, List.length_nil] at enough
  have room : 8 * listed.length ≤ depth := by omega
  simpa using function_over kind named left given right start before rest complaints room more

theorem block_goesOn (left : opening.kind = .symbol .leftBrace) :
    GoesOnAs (fun depth => statement depth inFunction)
      (fun depth => Stmt.block <$> block depth inFunction #[]) [opening] := by
  intro depth before rest complaints _ more
  exact block_enters left depth before rest complaints more

end Openers

theorem body_inStepBut {body : List Stmt} (formed : Forms (.declarations inFunction body) tokens)
    (leads : Leads inner (.declaration inFunction) front)
    (first : InStepAt x s l slack front (.declaration inFunction)) :
    InStepAt x s l slack (tokens ++ front) (.body inFunction) := by
  intro done depth depth' enough apart before before' c c'
  have few := declarations_length formed
  obtain ⟨t, rest, rfl, begins⟩ := leads_begins leads
  have notElse := begins_declaration_ne (.keyword .kwElse) begins
    (by simp [BeginsDeclaration, BeginsStatement, BeginsExpression, BeginsPrimary])
  simp only [List.length_append, List.length_cons] at enough
  obtain ⟨d, rfl⟩ : ∃ d, depth = d + 1 + body.length := ⟨depth - body.length - 1, by omega⟩
  obtain ⟨d', rfl⟩ : ∃ d, depth' = d + 1 + body.length := ⟨depth' - body.length - 1, by omega⟩
  have meets := first d d' (by simp only [List.length_cons]; omega) (by omega)
  have short := block_each.siblings formed notElse (rest ++ s) c (d + 1) done before (by omega)
  have long := block_each.siblings formed notElse (rest ++ l) c' (d' + 1) done before' (by omega)
  simp only [List.append_assoc, List.cons_append]
  rw [short.trans (block_each _ _ _ _ _ _ begins), long.trans (block_each _ _ _ _ _ _ begins)]
  refine (meets _ _ c c').recovering.bindKeeping inferInstance fun found s' l' beside => ?_
  cases beside with
  | alike alike => exact (statements_inStep (by simp) (by omega)).block inFunction _ alike
  | parted cut => exact absurd rfl cut

/-- Behind all that leads into a block, the rules are in step but for a complaint if the block
itself is. -/
theorem leads_inStepBut (texts : Apart s l)
    (hole : ∀ done depth depth', depth + slack ≤ depth' →
      InStepBut x s l (block depth inner done) (block depth' inner done) [])
    {spot : Spot} (leads : Leads inner spot front) : InStepAt x s l slack front spot := by
  -- From the block outward: each construct around it only has to pass on what is in it.
  induction leads with
  | @here body tokens formed =>
      intro done depth depth' enough apart before before' c c'
      have few := declarations_length formed
      obtain ⟨⟨t, s, rfl, notElse⟩, ⟨u, l, rfl, notElse'⟩⟩ := texts
      obtain ⟨d, rfl⟩ : ∃ d, depth = d + body.length := ⟨depth - body.length, by omega⟩
      obtain ⟨d', rfl⟩ : ∃ d, depth' = d + body.length := ⟨depth' - body.length, by omega⟩
      have short := block_each.siblings formed notElse s c d done before (by omega)
      have long := block_each.siblings formed notElse' l c' d' done before' (by omega)
      rw [short, long]
      exact hole _ d d' (by omega) _ _ c c'
  | within formed leads ih => exact body_inStepBut formed leads ih
  | function kind named left given right start inside ih =>
      intro depth depth' enough apart
      exact (function_goesOn kind named left given right start).inStepBut (by simp) texts
        (fun d d' enough apart => (ih #[] d d' (by omega) apart).bind fun _ _ _ alike =>
          inStep_pure (.alike alike)) (by omega) apart
  | statement inside ih =>
      intro depth depth' enough apart before before' c c'
      obtain ⟨d, rfl⟩ : ∃ d, depth = d + 1 := ⟨depth - 1, by omega⟩
      obtain ⟨d', rfl⟩ : ∃ d, depth' = d + 1 := ⟨depth' - 1, by omega⟩
      obtain ⟨t, rest, rfl, begins⟩ := leads_begins inside
      have meets := ih d d' (by omega) (by omega) before before' c c'
      simp only [List.cons_append] at meets ⊢
      rw [declaration_of_statement begins, declaration_of_statement begins]
      exact meets
  | block left inside ih =>
      intro depth depth' enough apart
      exact (block_goesOn left).inStepBut (by simp) texts
        (fun d d' enough apart => (ih #[] d d' enough apart).map Stmt.block) enough apart
  | ifThen kind left test right inside ih =>
      intro depth depth' enough apart
      refine (if_goesOn kind left test right).inStepBut (by simp) texts
        (fun d d' enough apart => ?_) enough apart
      refine (ih d d' (by omega) apart).bind fun thenBranch s' l' alike => ?_
      refine InStep.eat alike (by decide) (fun _ _ other => ?_) (inStep_pure (.alike alike))
      exact ((statements_inStep (by simp) (by omega)).statement _ other).bind
        fun _ _ _ ends => inStep_pure ends
  | ifElse kind left test right first middle inside ih =>
      intro depth depth' enough apart
      exact (else_goesOn kind left test right first middle).inStepBut (by simp) texts
        (ih.make _) enough apart
  | loop kind left test right inside ih =>
      intro depth depth' enough apart
      exact (while_goesOn kind left test right).inStepBut (by simp) texts (ih.make _) enough apart
  | loopWithClauses kind left start test semicolon step right inside ih =>
      intro depth depth' enough apart
      exact (for_goesOn kind left start test semicolon step right).inStepBut (by simp) texts
        (ih.make _) enough apart

/-- A program that leads into a block is read as another one but for a complaint, if the block is
in step with the other one but for the complaint. -/
theorem read_inStepBut (slack : Nat) (leads : LeadsIn inner front) (texts : Apart s l)
    (hole : ∀ done depth depth', depth + slack ≤ depth' →
      InStepBut x s l (block depth inner done) (block depth' inner done) [])
    (closes : ∃ t ∈ s, t.kind = .eof) (closes' : ∃ t ∈ l, t.kind = .eof)
    (longer : 8 * s.length + slack ≤ 8 * l.length) :
    read (front ++ l) = ⟨(read (front ++ s)).statements, x :: (read (front ++ s)).complaints⟩ := by
  have closesBoth {text : List Token} (closes : ∃ t ∈ text, t.kind = .eof) :
      ∃ t ∈ front ++ text, t.kind = .eof := by
    obtain ⟨t, member, isEnd⟩ := closes
    exact ⟨t, List.mem_append_right _ member, isEnd⟩
  have short := declarations_read (closesBoth closes) (Nat.le_refl _) #[] [] #[]
  have long := declarations_read (closesBoth closes') (Nat.le_refl _) #[] [] #[]
  obtain @⟨body, tokens, front, formed, leads⟩ := leads
  have few := declarations_length formed
  obtain ⟨t, rest, rfl, begins⟩ := leads_begins leads
  have notElse := begins_declaration_ne (.keyword .kwElse) begins
    (by simp [BeginsDeclaration, BeginsStatement, BeginsExpression, BeginsPrimary])
  obtain ⟨d, depth⟩ : ∃ d, enoughDepth (tokens ++ t :: rest ++ s).length = d + 1 + body.length := by
    refine ⟨enoughDepth (tokens ++ t :: rest ++ s).length - body.length - 1, ?_⟩
    simp only [enoughDepth, List.length_append, List.length_cons]
    omega
  -- The longer text is read with as much more depth as the block asks for.
  obtain ⟨more, depth', room⟩ : ∃ more, enoughDepth (tokens ++ t :: rest ++ l).length =
      d + more + 1 + body.length ∧ slack ≤ more := by
    refine ⟨enoughDepth (tokens ++ t :: rest ++ l).length - body.length - 1 - d, ?_, ?_⟩
    · simp only [enoughDepth, List.length_append, List.length_cons] at depth ⊢
      omega
    · simp only [enoughDepth, List.length_append, List.length_cons] at depth ⊢
      omega
  have enough : 8 * (tokens.length + (rest.length + 1)) + 8 ≤ d + 1 + body.length := by
    simp only [enoughDepth, List.length_append, List.length_cons] at depth
    omega
  have first := declarations_each.siblings formed notElse (rest ++ s) #[] (d + 1) #[] []
    (by omega)
  have second := declarations_each.siblings formed notElse (rest ++ l) #[] (d + more + 1) #[] []
    (by omega)
  have meets := leads_inStepBut texts hole leads d (d + more)
    (by simp only [List.length_cons]; omega) (by omega) (tokens.reverse ++ [])
    (tokens.reverse ++ []) #[] #[]
  have continues : Continues [] more (#[] ++ body.toArray) (#[] ++ body.toArray) #[] (#[].push x)
      _ _ := Continues.of_meets meets.recovering (declarations_continue (by simp) more d)
  rw [depth] at short
  rw [depth'] at long
  simp only [List.append_assoc, List.cons_append] at short long continues
  rw [first.trans (declarations_each _ _ _ _ _ _ begins)] at short
  rw [second.trans (declarations_each _ _ _ _ _ _ begins)] at long
  simp only [List.append_assoc, List.cons_append]
  generalize (recovering (declaration d false) >>= fun found =>
    declarations d (#[] ++ body.toArray ++ found.toArray))
      (.over (tokens.reverse ++ []) (t :: (rest ++ s)) #[]) = r at short continues
  generalize (recovering (declaration (d + more) false) >>= fun found =>
    declarations (d + more) (#[] ++ body.toArray ++ found.toArray))
      (.over (tokens.reverse ++ []) (t :: (rest ++ l)) #[]) = r' at long continues
  cases continues with
  | tooDeep =>
      obtain ⟨_, impossible⟩ := short
      cases impossible
  | spoiled _ cut => exact absurd rfl cut
  | ended _ o short' long' =>
      have shortWhole : Yields r (#[] ++ body.toArray) (#[] ++ #[]) o := short'
      have longWhole : Yields r' (#[] ++ body.toArray) (#[] ++ #[x]) o := long'
      rw [long.unique longWhole.behind, short.unique shortWhole.behind]
      rfl
  | parted cut => exact absurd rfl cut

end Insertion

end Jess.Parser
