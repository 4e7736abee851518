import Jess.Parser.Program
import Jess.Proofs.ExpressionSoundness

/-!
# Programs that are read belong to the grammar

Every parser of statements settles, and so does recovery after a mistake, which
always goes past a token. Where no complaint is filed the tokens gone past form
the statement that is given back. A statement that ends openly promises that no
`else` comes next, for it would have taken that itself.
-/

namespace Jess.Parser

open Token (Kind)
open Grammar

theorem skip_closed {t : Token} {rest : List Token} (closed : Closed (t :: rest)) :
    ∀ before, ∃ used left, t :: rest = used ++ left ∧ Closed left ∧
      Cursor.skip before t rest = Cursor.over (used.reverse ++ before) left := by
  induction rest generalizing t with
  | nil =>
      intro before
      exact ⟨[], [t], rfl, closed, rfl⟩
  | cons next rest ih =>
      intro before
      rw [Cursor.skip]
      split
      · exact ⟨[], _, rfl, closed, rfl⟩
      · rename_i within
        have inside : t.kind ≠ .eof := by
          intro eof
          simp [Cursor.atBoundary, Cursor.atEnd, Cursor.kind, eof] at within
        obtain ⟨used, left, split, closedLeft, skipped⟩ := ih (closed.tail inside) (t :: before)
        exact ⟨t :: used, left, by rw [split]; rfl, closedLeft, by rw [skipped]; simp⟩

theorem toBoundary_closed {t : Token} {rest : List Token} (before : List Token)
    (closed : Closed (t :: rest)) :
    ∃ used left, t :: rest = used ++ left ∧ Closed left ∧
      (Cursor.over before (t :: rest)).toBoundary = Cursor.over (used.reverse ++ before) left ∧
      (t.kind ≠ .eof → 1 ≤ used.length) := by
  by_cases isEnd : t.kind = .eof
  · have alone : rest = [] := closed.head_eof isEnd
    subst alone
    have stays : (Cursor.over before [t]).advance = Cursor.over before [t] := by
      rw [Cursor.advance, if_pos (by simp [Cursor.atEnd, Cursor.over, Cursor.kind, isEnd])]
    refine ⟨[], [t], rfl, closed, ?_, fun inside => absurd isEnd inside⟩
    rw [Cursor.toBoundary, stays]
    rfl
  · have others := closed.tail isEnd
    obtain ⟨u, later, rfl⟩ := List.exists_cons_of_ne_nil others.ne_nil
    obtain ⟨used, left, split, closedLeft, skipped⟩ := skip_closed others (t :: before)
    refine ⟨t :: used, left, by rw [split]; rfl, closedLeft, ?_, fun _ => by simp⟩
    rw [Cursor.toBoundary, Cursor.advance_over isEnd others.ne_nil]
    simpa [Cursor.over] using skipped

theorem Settles.recovering {α : Type} {p : Parser α} {before : List Token} {t : Token}
    {rest : List Token} {Promise : α → List Token → List Token → Prop}
    (settles : Settles p before (t :: rest) 1 Promise) (inside : t.kind ≠ .eof) :
    Settles (recovering p) before (t :: rest) 1 fun found used left =>
      ∃ v, found = some v ∧ Promise v used left := by
  intro complaints
  have settled := settles complaints
  rw [Parser.recovering]
  cases run : p (.over before (t :: rest) complaints) with
  | ok v s =>
      rw [run] at settled
      obtain ⟨used, left, filed, passes, grown, enough, promise⟩ := settled
      exact ⟨used, left, filed, passes, grown, enough, fun none => ⟨v, rfl, promise none⟩⟩
  | error stop s =>
      rw [run] at settled
      obtain ⟨rfl, used, left, filed, ⟨split, closed, place⟩, grown, some⟩ := settled
      obtain ⟨u, later, rfl⟩ := List.exists_cons_of_ne_nil closed.ne_nil
      obtain ⟨used', left', split', closed', moved, progress⟩ :=
        toBoundary_closed (used.reverse ++ before) closed
      refine ⟨used ++ used', left', filed, ⟨by rw [split, split', List.append_assoc], closed', ?_⟩,
        grown, ?_, fun none => absurd none some⟩
      · simp only
        rw [place, moved, List.reverse_append, List.append_assoc]
      · rw [List.length_append]
        cases used with
        | nil =>
            cases split
            have gone := progress inside
            omega
        | cons _ _ =>
            rw [List.length_cons]
            omega

theorem closedBy_bind {β : Type} (what : Expectation) (f : Unit → Parser β) :
    (closedBy what >>= f) = (expect (.symbol .semicolon) what >>= fun _ => f ()) := by
  funext s
  rw [bind_apply, bind_apply, closedBy, bind_apply]
  cases expect (.symbol .semicolon) what s <;> rfl

theorem Settles.closedBy {β : Type} {what : Expectation} {f : Unit → Parser β}
    {before : List Token} {t : Token} {rest : List Token}
    {Last : β → List Token → List Token → Prop} (closed : Closed (t :: rest))
    (found : t.kind = .symbol .semicolon → Closed rest →
      Settles (f ()) (t :: before) rest 0 fun w used left => Last w (t :: used) left) :
    Settles (closedBy what >>= f) before (t :: rest) 1 Last := by
  rw [closedBy_bind]
  exact Settles.expect closed (by simp) found

section Simple

variable {depth : Nat} {before pending : List Token}

theorem variableDeclaration_settles (closed : Closed pending)
    (enough : 8 * pending.length ≤ depth) :
    Settles (variableDeclaration depth) before pending 1 fun s used _ => IsVariable s used := by
  obtain ⟨name, rest, rfl⟩ := List.exists_cons_of_ne_nil closed.ne_nil
  simp only [List.length_cons] at enough
  apply Settles.expect closed (by simp)
  intro kind closedRest
  obtain ⟨t, later, rfl⟩ := List.exists_cons_of_ne_nil closedRest.ne_nil
  simp only [List.length_cons] at enough
  apply Settles.eat closedRest (by simp)
  · intro sign closedLater
    refine (((expressions_settle depth).expression closedLater (by omega)).bind ?_).any
    intro value used left _ closedLeft _
    obtain ⟨closing, beyond, rfl⟩ := List.exists_cons_of_ne_nil closedLeft.ne_nil
    refine (Settles.closedBy closedLeft fun semicolon closedBeyond => ?_).any
    apply settles_pure closedBeyond
    intro derived
    exact IsVariable.initialized kind sign derived semicolon
  · intro _
    refine (Settles.closedBy closedRest fun semicolon closedLater => ?_).any
    exact settles_pure closedLater (IsVariable.bare kind semicolon)

theorem closed_expression_settles {what : Expectation} (make : Expr → Stmt)
    (closed : Closed pending)
    (enough : 8 * pending.length + 4 ≤ depth) :
    Settles (do
        let e ← expression depth
        closedBy what
        pure (make e)) before pending 1 fun s used _ =>
      ∃ e tokens closing, s = make e ∧ used = tokens ++ [closing] ∧ IsExpression e tokens ∧
        closing.kind = .symbol .semicolon := by
  apply ((expressions_settle depth).expression closed enough).bind
  intro e used rest _ closedRest _
  obtain ⟨closing, later, rfl⟩ := List.exists_cons_of_ne_nil closedRest.ne_nil
  refine (Settles.closedBy closedRest fun semicolon closedLater => ?_).any
  apply settles_pure closedLater
  intro derived
  exact ⟨e, used, closing, rfl, rfl, derived, semicolon⟩

theorem returnStatement_settles (inFunction : Bool) (keyword : Token) (closed : Closed pending)
    (enough : 8 * pending.length + 4 ≤ depth) :
    Settles (returnStatement inFunction keyword depth) before pending 1 fun s used _ =>
      inFunction = true ∧
        ((∃ closing, s = .giveBack keyword none ∧ used = [closing] ∧
            closing.kind = .symbol .semicolon) ∨
          ∃ e tokens closing, s = .giveBack keyword (some e) ∧ used = tokens ++ [closing] ∧
            IsExpression e tokens ∧ closing.kind = .symbol .semicolon) := by
  obtain ⟨t, rest, rfl⟩ := List.exists_cons_of_ne_nil closed.ne_nil
  have tail : Settles (do
      if ← check (.symbol .semicolon) then
        closedBy .semicolonAfterReturnValue
        pure (Stmt.giveBack keyword none)
      else
        let value ← expression depth
        closedBy .semicolonAfterReturnValue
        pure (.giveBack keyword (some value))) before (t :: rest) 1 fun s used _ =>
        ((∃ closing, s = .giveBack keyword none ∧ used = [closing] ∧
            closing.kind = .symbol .semicolon) ∨
          ∃ e tokens closing, s = .giveBack keyword (some e) ∧ used = tokens ++ [closing] ∧
            IsExpression e tokens ∧ closing.kind = .symbol .semicolon) := by
    apply Settles.check
    · intro _
      apply Settles.closedBy closed
      intro semicolon closedRest
      exact settles_pure closedRest (.inl ⟨t, rfl, rfl, semicolon⟩)
    · intro _
      exact (closed_expression_settles (fun e => .giveBack keyword (some e)) closed enough).mono
        fun _ _ _ promise => Or.inr promise
  rw [returnStatement]
  cases inFunction with
  | false => exact Settles.report tail
  | true => exact tail.mono fun _ _ _ promise => ⟨rfl, promise⟩

theorem parameters_settle (done : Array Token) (closed : Closed pending)
    (enough : 8 * pending.length + 1 ≤ depth) :
    Settles (parameters depth done) before pending 1 fun params used _ =>
      ∃ later, params = done.toList ++ later ∧ AreNames later used ∧
        done.size + later.length ≤ 255 := by
  induction depth generalizing before pending done with
  | zero => omega
  | succ depth ih =>
      obtain ⟨name, rest, rfl⟩ := List.exists_cons_of_ne_nil closed.ne_nil
      simp only [List.length_cons] at enough
      -- the part that is the same on both sides of the limit
      have names : Settles (do
          let param ← expect .identifier .parameterName
          if ← eat (.symbol .comma) then
            parameters depth (done.push param)
          else
            pure (done.push param).toList) before (name :: rest) 1 fun params used _ =>
            ∃ later, params = done.toList ++ later ∧ AreNames later used ∧
              (done.size < 255 → done.size + later.length ≤ 255) := by
        apply Settles.expect closed (by simp)
        intro kind closedRest
        obtain ⟨t, later, rfl⟩ := List.exists_cons_of_ne_nil closedRest.ne_nil
        simp only [List.length_cons] at enough
        apply Settles.eat closedRest (by simp)
        · intro separator closedLater
          refine (ih (done.push name) closedLater (by omega)).any.mono ?_
          rintro params used left ⟨names, rfl, formed, few⟩
          rw [Array.size_push] at few
          exact ⟨name :: names, by simp, .more kind separator formed, fun _ => by
            rw [List.length_cons]; omega⟩
        · intro _
          exact settles_pure closedRest ⟨[name], by simp, .last kind, fun room => room⟩
      rw [parameters]
      split
      · refine Settles.look (fun complaints => current_over ..) ?_
        exact Settles.report names
      · rename_i room
        simp only [maxArity, Nat.not_le] at room
        exact names.mono fun _ _ _ ⟨later, same, formed, few⟩ =>
          ⟨later, same, formed, few room⟩

theorem loopInitializer_settles (closed : Closed pending)
    (enough : 8 * pending.length + 4 ≤ depth) :
    Settles (loopInitializer depth) before pending 1 fun found used _ =>
      IsInitializer found used := by
  obtain ⟨t, rest, rfl⟩ := List.exists_cons_of_ne_nil closed.ne_nil
  by_cases semicolon : t.kind = .symbol .semicolon
  · have closedRest := closed.tail (by simp [semicolon])
    have stepped := fun complaints => eat_over before rest t complaints semicolon (by simp)
      closedRest.ne_nil
    exact Settles.past stepped (settles_pure closedRest (.absent semicolon))
  · refine Settles.look (fun complaints => eat_over_of_ne before rest t complaints semicolon) ?_
    simp only [Bool.false_eq_true, if_false]
    by_cases kind : t.kind = .keyword .kwVar
    · have closedRest := closed.tail (by simp [kind])
      have stepped := fun complaints => eat_over before rest t complaints kind (by simp)
        closedRest.ne_nil
      have declared : Settles (variableDeclaration depth) (t :: before) rest 1 fun s used _ =>
          IsVariable s used :=
        variableDeclaration_settles closedRest (by simp only [List.length_cons] at enough; omega)
      exact Settles.past stepped
        (declared.any.map fun s used left formed => IsInitializer.declared kind formed)
    · refine Settles.look (fun complaints => eat_over_of_ne before rest t complaints kind) ?_
      simp only [Bool.false_eq_true, if_false]
      refine (closed_expression_settles .expression closed enough).map ?_
      rintro s used left ⟨e, tokens, closing, rfl, rfl, derived, ends⟩
      exact .expression derived ends

theorem loopClause_settles {stop : Kind} {what : Expectation} (inside : stop ≠ .eof)
    (closed : Closed pending) (enough : 8 * pending.length + 4 ≤ depth) :
    Settles (loopClause stop what depth) before pending 1 fun found used _ =>
      ∃ tokens closing, used = tokens ++ [closing] ∧ closing.kind = stop ∧
        IsClause found tokens := by
  obtain ⟨t, rest, rfl⟩ := List.exists_cons_of_ne_nil closed.ne_nil
  -- the token that ends the clause, behind a clause that was read
  have ends : ∀ (clause : Option Expr) (used left : List Token), Closed left →
      Settles (do
          let _ ← expect stop what
          pure clause) (used.reverse ++ before) left 1 fun found others _ =>
        IsClause clause used → ∃ tokens closing, used ++ others = tokens ++ [closing] ∧
          closing.kind = stop ∧ IsClause found tokens := by
    intro clause used left closedLeft
    obtain ⟨closing, later, rfl⟩ := List.exists_cons_of_ne_nil closedLeft.ne_nil
    apply Settles.expect closedLeft inside
    intro kind closedLater
    apply settles_pure closedLater
    intro formed
    exact ⟨used, closing, rfl, kind, formed⟩
  rw [loopClause]
  apply Settles.check
  · intro _
    have absent : Settles (pure none) before (t :: rest) 0
        fun (found : Option Expr) used _ => IsClause found used := settles_pure closed .absent
    apply absent.lead
    intro clause used left _ closedLeft
    exact ends clause used left closedLeft
  · intro _
    have present : Settles (some <$> expression depth) before (t :: rest) 1
        fun found used _ => IsClause found used :=
      ((expressions_settle depth).expression closed enough).map
        fun e used left derived => .present derived
    apply present.bind
    intro clause used left _ closedLeft _
    exact (ends clause used left closedLeft).any

theorem condition_settles {opens closes : Expectation} {f : Expr → Parser Stmt}
    {Last : Stmt → List Token → List Token → Prop} (closed : Closed pending)
    (enough : 8 * pending.length ≤ depth)
    (later : ∀ condition opening tested closing left,
      pending = opening :: tested ++ closing :: left → Closed left →
      opening.kind = .symbol .leftParen → closing.kind = .symbol .rightParen →
      Settles (f condition) ((opening :: tested ++ [closing]).reverse ++ before) left 0
        fun s used beyond => IsExpression condition tested →
          Last s (opening :: tested ++ closing :: used) beyond) :
    Settles (do
        let _ ← expect (.symbol .leftParen) opens
        let condition ← expression depth
        let _ ← expect (.symbol .rightParen) closes
        f condition) before pending 0 Last := by
  obtain ⟨opening, rest, rfl⟩ := List.exists_cons_of_ne_nil closed.ne_nil
  simp only [List.length_cons] at enough
  refine (Settles.expect closed (by simp) fun left closedRest => ?_).any
  refine (((expressions_settle depth).expression closedRest (by omega)).bind ?_).any
  intro condition tested beyond split closedBeyond _
  obtain ⟨closing, last, rfl⟩ := List.exists_cons_of_ne_nil closedBeyond.ne_nil
  refine (Settles.expect closedBeyond (by simp) fun right closedLast => ?_).any
  have tail := later condition opening tested closing last (by rw [split]; rfl) closedLast left
    right
  have places : closing :: (tested.reverse ++ opening :: before) =
      (opening :: tested ++ [closing]).reverse ++ before := by simp
  rw [places]
  exact tail.mono fun s used left promise derived => promise derived

end Simple

/-- No `else` comes next that an open statement would have taken. -/
def StatementEnds (isOpen : Bool) (left : List Token) : Prop :=
  isOpen = true → ∀ t ∈ left.head?, t.kind ≠ .keyword .kwElse

structure StatementsSettle (depth : Nat) : Prop where
  declaration : ∀ {before pending} inFunction, Closed pending →
    8 * pending.length + 6 ≤ depth →
    Settles (declaration depth inFunction) before pending 1 fun s used left =>
      ∃ isOpen, Forms (.declaration inFunction isOpen s) used ∧ StatementEnds isOpen left
  statement : ∀ {before pending} inFunction, Closed pending →
    8 * pending.length + 5 ≤ depth →
    Settles (statement depth inFunction) before pending 1 fun s used left =>
      ∃ isOpen, Forms (.statement inFunction isOpen s) used ∧ StatementEnds isOpen left
  block : ∀ {before pending} inFunction done, Closed pending →
    8 * pending.length + 7 ≤ depth →
    Settles (block depth inFunction done) before pending 1 fun body used _ =>
      ∃ later tokens closing, body = done.toList ++ later ∧ used = tokens ++ [closing] ∧
        closing.kind = .symbol .rightBrace ∧ Forms (.declarations inFunction later) tokens

section Step

variable {depth : Nat} (below : StatementsSettle depth) {before pending : List Token}
  (inFunction : Bool)

include below

theorem block_settles (done : Array Stmt) (closed : Closed pending)
    (enough : 8 * pending.length + 7 ≤ depth + 1) :
    Settles (block (depth + 1) inFunction done) before pending 1 fun body used _ =>
      ∃ later tokens closing, body = done.toList ++ later ∧ used = tokens ++ [closing] ∧
        closing.kind = .symbol .rightBrace ∧ Forms (.declarations inFunction later) tokens := by
  obtain ⟨t, rest, rfl⟩ := List.exists_cons_of_ne_nil closed.ne_nil
  rw [block]
  refine Settles.look (fun complaints => check_over ..) ?_
  refine Settles.look (fun complaints => atEnd_over ..) ?_
  split
  · apply Settles.expect closed (by simp)
    intro kind closedRest
    exact settles_pure closedRest ⟨[], [], t, by simp, rfl, kind, .noDeclarations⟩
  · rename_i within
    have inside : t.kind ≠ .eof := by
      intro eof
      simp [eof] at within
    apply ((below.declaration inFunction closed (by omega)).recovering inside).bind
    intro found used left split closedLeft some
    have lengths : (t :: rest).length = used.length + left.length := by simp [split]
    cases found with
    | none =>
        refine (below.block inFunction done closedLeft (by omega)).any.mono ?_
        rintro body others left' _ ⟨v, impossible, _⟩
        cases impossible
    | some s =>
        refine (below.block inFunction (done.push s) closedLeft (by omega)).any.mono ?_
        rintro body others left' ⟨later, tokens, closing, rfl, rfl, kind, formed⟩
          ⟨v, same, isOpen, formedFirst, _⟩
        cases same
        exact ⟨s :: later, used ++ tokens, closing, by simp, by simp, kind,
          .moreDeclarations formedFirst formed⟩

theorem functionBody_settles (name : Token) (params : List Token) (closed : Closed pending)
    (enough : 8 * pending.length ≤ depth) :
    Settles (do
        let _ ← expect (.symbol .rightParen) .parenAfterParameters
        let _ ← expect (.symbol .leftBrace) .braceBeforeBody
        let body ← block depth true #[]
        pure (Stmt.function name params body)) before pending 0 fun s used _ =>
      ∃ closing brace unbrace tokens body, used = closing :: brace :: tokens ++ [unbrace] ∧
        closing.kind = .symbol .rightParen ∧ brace.kind = .symbol .leftBrace ∧
        unbrace.kind = .symbol .rightBrace ∧ Forms (.declarations true body) tokens ∧
        s = .function name params body := by
  obtain ⟨closing, rest, rfl⟩ := List.exists_cons_of_ne_nil closed.ne_nil
  refine (Settles.expect closed (by simp) fun right closedRest => ?_).any
  obtain ⟨brace, rest, rfl⟩ := List.exists_cons_of_ne_nil closedRest.ne_nil
  refine (Settles.expect closedRest (by simp) fun start closedRest => ?_).any
  simp only [List.length_cons] at enough
  refine ((below.block true #[] closedRest (by omega)).bind ?_).any
  intro body used left _ closedLeft _
  apply settles_pure closedLeft
  intro promise
  obtain ⟨later, tokens, unbrace, rfl, rfl, stop, formed⟩ := promise
  exact ⟨closing, brace, unbrace, tokens, body, by simp, right, start, stop, formed, rfl⟩

theorem function_settles (closed : Closed pending) (enough : 8 * pending.length ≤ depth) :
    Settles (do
        let name ← expect .identifier .functionName
        let _ ← expect (.symbol .leftParen) .parenAfterFunctionName
        let params ← if ← check (.symbol .rightParen) then pure [] else parameters depth #[]
        let _ ← expect (.symbol .rightParen) .parenAfterParameters
        let _ ← expect (.symbol .leftBrace) .braceBeforeBody
        let body ← block depth true #[]
        pure (Stmt.function name params body)) before pending 0 fun s used _ =>
      ∀ keyword : Token, keyword.kind = .keyword .kwFunc →
        Forms (.declaration inFunction false s) (keyword :: used) := by
  obtain ⟨name, rest, rfl⟩ := List.exists_cons_of_ne_nil closed.ne_nil
  refine (Settles.expect closed (by simp) fun named closedRest => ?_).any
  obtain ⟨opening, rest, rfl⟩ := List.exists_cons_of_ne_nil closedRest.ne_nil
  refine (Settles.expect closedRest (by simp) fun left closedRest => ?_).any
  simp only [List.length_cons] at enough
  obtain ⟨t, rest', split⟩ := List.exists_cons_of_ne_nil closedRest.ne_nil
  -- Both ways of reading the parameters go on with the body.
  have finish : ∀ (params used left' : List Token), rest = used ++ left' → Closed left' →
      Settles (do
          let _ ← expect (.symbol .rightParen) .parenAfterParameters
          let _ ← expect (.symbol .leftBrace) .braceBeforeBody
          let body ← block depth true #[]
          pure (Stmt.function name params body))
        (used.reverse ++ opening :: name :: before) left' 0 fun s others _ =>
        AreParameters params used → ∀ keyword : Token, keyword.kind = .keyword .kwFunc →
          Forms (.declaration inFunction false s)
            (keyword :: name :: opening :: (used ++ others)) := by
    intro params used left' split closedLeft
    have few : 8 * left'.length ≤ depth := by
      simp only [split, List.length_append] at enough
      omega
    refine (functionBody_settles below name params closedLeft few).mono ?_
    intro s others _ promise given keyword kind
    obtain ⟨closing, brace, unbrace, tokens, body, rfl, right, start, stop, formed, rfl⟩ := promise
    have whole : Forms (.declaration inFunction false _) _ :=
      .function kind named left given right start formed stop
    simpa using whole
  rw [split] at closedRest ⊢
  apply Settles.check
  · intro _
    simp only [if_true]
    have none : Settles (pure []) (opening :: name :: before) (t :: rest') 0
        fun (params : List Token) used _ => params = [] ∧ used = [] :=
      settles_pure closedRest ⟨rfl, rfl⟩
    apply none.bind
    intro params used left' split' closedLeft _
    refine (finish params used left' (by rw [split, split']) closedLeft).mono ?_
    intro s others _ formed promise
    obtain ⟨rfl, rfl⟩ := promise
    exact formed (.inl ⟨rfl, rfl⟩)
  · intro _
    simp only [Bool.false_eq_true, if_false]
    have listed : Settles (parameters depth #[]) (opening :: name :: before)
        (t :: rest') 1 _ := parameters_settle #[] closedRest
      (by rw [← split]; omega)
    refine (listed.bind ?_).any
    intro params used left' split' closedLeft _
    refine (finish params used left' (by rw [split, split']) closedLeft).mono ?_
    intro s others _ formed promise
    obtain ⟨later, rfl, names, few⟩ := promise
    exact formed (.inr ⟨by simpa using names, by simpa using few⟩)

theorem declaration_settles (closed : Closed pending)
    (enough : 8 * pending.length + 6 ≤ depth + 1) :
    Settles (declaration (depth + 1) inFunction) before pending 1 fun s used left =>
      ∃ isOpen, Forms (.declaration inFunction isOpen s) used ∧ StatementEnds isOpen left := by
  obtain ⟨keyword, rest, rfl⟩ := List.exists_cons_of_ne_nil closed.ne_nil
  rw [declaration]
  simp only [List.length_cons] at enough
  by_cases kind : keyword.kind = .keyword .kwFunc
  · have closedRest := closed.tail (by simp [kind])
    have stepped := fun complaints => eat_over before rest keyword complaints kind (by simp)
      closedRest.ne_nil
    apply Settles.past stepped
    simp only [if_true]
    refine (function_settles below inFunction closedRest (by omega)).any.mono ?_
    intro s used left formed
    exact ⟨false, formed keyword kind, fun impossible => by cases impossible⟩
  · refine Settles.look (fun complaints => eat_over_of_ne _ _ _ _ kind) ?_
    simp only [Bool.false_eq_true, if_false]
    by_cases isVar : keyword.kind = .keyword .kwVar
    · have closedRest := closed.tail (by simp [isVar])
      have stepped := fun complaints => eat_over before rest keyword complaints isVar (by simp)
        closedRest.ne_nil
      apply Settles.past stepped
      simp only [if_true]
      refine (variableDeclaration_settles closedRest (by omega)).any.mono ?_
      intro s used left formed
      exact ⟨false, .declared isVar formed, fun impossible => by cases impossible⟩
    · refine Settles.look (fun complaints => eat_over_of_ne _ _ _ _ isVar) ?_
      simp only [Bool.false_eq_true, if_false]
      refine (below.statement inFunction closed (by simp only [List.length_cons]; omega)).mono ?_
      intro s used left promise
      obtain ⟨isOpen, formed, ends⟩ := promise
      exact ⟨isOpen, .statement formed, ends⟩

abbrev FormsStatement (inFunction : Bool) (s : Stmt) (used left : List Token) : Prop :=
  ∃ isOpen, Forms (.statement inFunction isOpen s) used ∧ StatementEnds isOpen left

variable {keyword : Token} {rest : List Token} (closed : Closed (keyword :: rest))
  (enough : 8 * rest.length ≤ depth)

include closed enough

theorem while_settles (kind : keyword.kind = .keyword .kwWhile) :
    Settles (statement (depth + 1) inFunction) before (keyword :: rest) 1
      (FormsStatement inFunction) := by
  rw [statement]
  refine Settles.look (fun complaints => current_over ..) ?_
  simp only [kind]
  refine Settles.advance closed (by simp [kind]) fun closedRest => ?_
  apply condition_settles closedRest enough
  intro condition opening tested closing left split closedLeft leftParen rightParen
  have lengths : rest.length = tested.length + (left.length + 1) + 1 := by simp [split]
  refine ((below.statement inFunction closedLeft (by omega)).bind ?_).any
  intro body used beyond _ closedBeyond _
  apply settles_pure closedBeyond
  rintro ⟨isOpen, formed, ends⟩ derived
  have whole := Forms.loop kind leftParen derived rightParen formed
  exact ⟨isOpen, by simpa using whole, ends⟩

theorem if_settles (kind : keyword.kind = .keyword .kwIf) :
    Settles (statement (depth + 1) inFunction) before (keyword :: rest) 1
      (FormsStatement inFunction) := by
  rw [statement]
  refine Settles.look (fun complaints => current_over ..) ?_
  simp only [kind]
  refine Settles.advance closed (by simp [kind]) fun closedRest => ?_
  apply condition_settles closedRest enough
  intro condition opening tested closing left split closedLeft leftParen rightParen
  have lengths : rest.length = tested.length + (left.length + 1) + 1 := by simp [split]
  refine ((below.statement inFunction closedLeft (by omega)).bind ?_).any
  intro branch used beyond split' closedBeyond some
  have lengths' : left.length = used.length + beyond.length := by simp [split']
  obtain ⟨divider, last, rfl⟩ := List.exists_cons_of_ne_nil closedBeyond.ne_nil
  simp only [List.length_cons] at lengths'
  apply Settles.eat closedBeyond (by simp)
  · intro middle closedLast
    refine ((below.statement inFunction closedLast (by omega)).bind ?_).any
    intro other used' beyond' _ closedBeyond' _
    apply settles_pure closedBeyond'
    rintro ⟨isOpen, formedOther, ends⟩ ⟨isOpenFirst, formed, endsFirst⟩ derived
    -- an open branch would have taken the divider
    have isClosed : isOpenFirst = false := by
      cases isOpenFirst with
      | false => rfl
      | true => exact absurd middle (endsFirst rfl divider (by simp))
    subst isClosed
    have whole := Forms.ifElse kind leftParen derived rightParen formed middle formedOther
    exact ⟨isOpen, by simpa using whole, ends⟩
  · intro missing
    apply settles_pure closedBeyond
    rintro ⟨isOpen, formed, _⟩ derived
    have whole := Forms.ifThen kind leftParen derived rightParen formed
    refine ⟨true, by simpa using whole, fun _ t member => ?_⟩
    simp only [List.head?_cons, Option.mem_def, Option.some.injEq] at member
    exact member ▸ missing

theorem for_settles (kind : keyword.kind = .keyword .kwFor) :
    Settles (statement (depth + 1) inFunction) before (keyword :: rest) 1
      (FormsStatement inFunction) := by
  rw [statement]
  refine Settles.look (fun complaints => current_over ..) ?_
  simp only [kind]
  refine Settles.advance closed (by simp [kind]) fun closedRest => ?_
  obtain ⟨opening, rest, rfl⟩ := List.exists_cons_of_ne_nil closedRest.ne_nil
  simp only [List.length_cons] at enough
  refine (Settles.expect closedRest (by simp) fun left closedRest => ?_).any
  refine ((loopInitializer_settles closedRest (by omega)).bind ?_).any
  intro initializer started rest1 split1 closed1 some1
  have lengths1 : rest.length = started.length + rest1.length := by simp [split1]
  refine ((loopClause_settles (by simp) closed1 (by omega)).bind ?_).any
  intro condition tested rest2 split2 closed2 some2
  have lengths2 : rest1.length = tested.length + rest2.length := by simp [split2]
  refine ((loopClause_settles (by simp) closed2 (by omega)).bind ?_).any
  intro increment stepped rest3 split3 closed3 some3
  have lengths3 : rest2.length = stepped.length + rest3.length := by simp [split3]
  refine ((below.statement inFunction closed3 (by omega)).bind ?_).any
  intro body used beyond _ closedBeyond _
  apply settles_pure closedBeyond
  rintro ⟨isOpen, formed, ends⟩ ⟨steps, closing, rfl, right, step⟩
    ⟨tests, middle, rfl, semicolon, test⟩
    start
  have whole := Forms.loopWithClauses kind left start test semicolon step right formed
    (isLoop_iff.mpr rfl)
  exact ⟨isOpen, by simpa using whole, ends⟩

end Step

section Step

variable {depth : Nat} (below : StatementsSettle depth) {before pending : List Token}
  (inFunction : Bool)

include below

theorem statement_settles (closed : Closed pending)
    (enough : 8 * pending.length + 5 ≤ depth + 1) :
    Settles (statement (depth + 1) inFunction) before pending 1 (FormsStatement inFunction) := by
  obtain ⟨keyword, rest, rfl⟩ := List.exists_cons_of_ne_nil closed.ne_nil
  have lengths : (keyword :: rest).length = rest.length + 1 := rfl
  have enoughRest : 8 * rest.length + 12 ≤ depth := by omega
  by_cases isFor : keyword.kind = .keyword .kwFor
  · exact for_settles below inFunction closed (by omega) isFor
  by_cases isIf : keyword.kind = .keyword .kwIf
  · exact if_settles below inFunction closed (by omega) isIf
  by_cases isWhile : keyword.kind = .keyword .kwWhile
  · exact while_settles below inFunction closed (by omega) isWhile
  rw [statement]
  refine Settles.look (fun complaints => current_over ..) ?_
  split
  · contradiction
  · contradiction
  · rename_i kind
    refine Settles.advance closed (by simp [kind]) fun closedRest => ?_
    refine (closed_expression_settles .print closedRest (by omega)).any.mono ?_
    rintro s used left ⟨e, tokens, closing, rfl, rfl, derived, semicolon⟩
    exact ⟨false, .print kind derived semicolon, fun impossible => by cases impossible⟩
  · rename_i kind
    refine Settles.advance closed (by simp [kind]) fun closedRest => ?_
    refine (returnStatement_settles inFunction keyword closedRest (by omega)).any.mono ?_
    rintro s used left ⟨rfl, ⟨closing, rfl, rfl, semicolon⟩ |
      ⟨e, tokens, closing, rfl, rfl, derived, semicolon⟩⟩
    · exact ⟨false, .giveBack kind semicolon, fun impossible => by cases impossible⟩
    · exact ⟨false, .giveBackValue kind derived semicolon, fun impossible => by cases impossible⟩
  · contradiction
  · rename_i kind
    refine Settles.advance closed (by simp [kind]) fun closedRest => ?_
    refine (below.block inFunction #[] closedRest (by omega)).any.map ?_
    rintro body used left ⟨later, tokens, closing, rfl, rfl, right, formed⟩
    refine ⟨false, ?_, fun impossible => by cases impossible⟩
    simpa using Forms.block kind formed right
  · refine (closed_expression_settles .expression closed (by omega)).mono ?_
    rintro s used left ⟨e, tokens, closing, rfl, rfl, derived, semicolon⟩
    exact ⟨false, .expression derived semicolon, fun impossible => by cases impossible⟩

end Step

/-- The parsers of statements settle at every depth, and promise what the grammar says. -/
theorem statements_settle (depth : Nat) : StatementsSettle depth := by
  induction depth with
  | zero => constructor <;> intros <;> omega
  | succ depth below =>
      exact {
        declaration := declaration_settles below
        statement := statement_settles below
        block := block_settles below }

theorem declarations_settle {depth : Nat} {before pending : List Token} (done : Array Stmt)
    (closed : Closed pending) (enough : 8 * pending.length + 7 ≤ depth) :
    Settles (declarations depth done) before pending 0 fun program used left =>
      ∃ later, program = done.toList ++ later ∧ IsProgram later used ∧ ∃ t, left = [t] := by
  induction depth generalizing before pending done with
  | zero => omega
  | succ depth ih =>
      obtain ⟨t, rest, rfl⟩ := List.exists_cons_of_ne_nil closed.ne_nil
      rw [declarations]
      refine Settles.look (fun complaints => atEnd_over ..) ?_
      split
      · rename_i isEnd
        have alone : rest = [] := closed.head_eof (by simpa using isEnd)
        exact settles_pure closed ⟨[], by simp, .noDeclarations, t, by rw [alone]⟩
      · rename_i within
        have inside : t.kind ≠ .eof := by simpa using within
        refine ((((statements_settle depth).declaration false closed (by omega)).recovering
          inside).bind ?_).any
        intro found used left split closedLeft some
        have lengths : (t :: rest).length = used.length + left.length := by simp [split]
        cases found with
        | none =>
            refine (ih done closedLeft (by omega)).mono ?_
            rintro program others left' _ ⟨v, impossible, _⟩
            cases impossible
        | some s =>
            refine (ih (done.push s) closedLeft (by omega)).mono ?_
            rintro program others left' ⟨later, rfl, formed, alone⟩
              ⟨v, same, isOpen, formedFirst, _⟩
            cases same
            exact ⟨s :: later, by simp, .moreDeclarations formedFirst formed, alone⟩

end Jess.Parser
