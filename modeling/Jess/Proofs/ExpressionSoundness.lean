import Jess.Proofs.Precedence
import Jess.Proofs.Settling

/-!
# Expressions that are read belong to the grammar

Every parser of expressions settles, and where it files no complaint the tokens
that it goes past derive its value. The induction is on the depth, for all of
the parsers at once, and the depth is always enough because it is measured by
the tokens that are pending.
-/

namespace Jess.Parser

open Token (Kind)
open Grammar

theorem literalOf_constant {t : Token} {v : Literal} (found : literalOf? t = some v) :
    Constant t v := by
  unfold literalOf? at found
  split at found
  case h_1 kind => cases found; exact .falsity kind
  case h_2 kind => cases found; exact .truth kind
  case h_3 kind => cases found; exact .nothing kind
  case h_4 kind => cases found; exact .number kind
  case h_5 kind => cases found; exact .string kind
  case h_6 => cases found

theorem constant_inside {t : Token} {v : Literal} (constant : Constant t v) : t.kind ≠ .eof := by
  cases constant with
  | falsity kind => simp [kind]
  | truth kind => simp [kind]
  | nothing kind => simp [kind]
  | number kind => simp [kind]
  | string kind => simp [kind]

theorem derives_variable {level : Level} {name : Token} {tokens : List Token}
    (derived : Derives (.expression level (.variable name)) tokens) :
    tokens = [name] ∧ name.kind = .identifier := by
  generalize same : Phrase.expression level (.variable name) = phrase at derived
  induction derived generalizing level with
  | named kind =>
      cases same
      exact ⟨rfl, kind⟩
  | tighter _ ih =>
      cases same
      exact ih rfl
  | operation _ joined _ _ _ => obtain _ | _ := joined <;> cases same
  | literal | grouping | call | unary | assign | noArguments | someArguments | lastItem
    | moreItems => cases same

structure ExpressionsSettle (depth : Nat) : Prop where
  expression : ∀ {before pending}, Closed pending → 8 * pending.length + 4 ≤ depth →
    Settles (expression depth) before pending 1 fun e used _ => IsExpression e used
  chain : ∀ {before pending}, Closed pending → 8 * pending.length + 3 ≤ depth →
    Settles (chain depth) before pending 1 fun e used _ => Derives (.expression .or e) used
  links : ∀ {before pending} done, Closed pending → 8 * pending.length + 1 ≤ depth →
    Settles (links depth done) before pending 0 fun found used _ =>
      ∃ later, found = done.toList ++ later ∧ Linked later used
  operand : ∀ {before pending}, Closed pending → 8 * pending.length + 2 ≤ depth →
    Settles (operand depth) before pending 1 fun e used _ => Derives (.expression .unary e) used
  calls : ∀ {before pending} callee, Closed pending → 8 * pending.length + 1 ≤ depth →
    Settles (calls depth callee) before pending 0 fun e used _ =>
      ∀ front, Derives (.expression .call callee) front →
        Derives (.expression .call e) (front ++ used)
  arguments : ∀ {before pending} done, Closed pending → 8 * pending.length + 5 ≤ depth →
    Settles (arguments depth done) before pending 1 fun args used _ =>
      ∃ later, args = done.toList ++ later ∧ Derives (.items later) used ∧
        done.size + later.length ≤ 255
  primary : ∀ {before pending}, Closed pending → 8 * pending.length + 1 ≤ depth →
    Settles (primary depth) before pending 1 fun e used _ => Derives (.expression .primary e) used

theorem skipPrefixes_closed {t : Token} {rest : List Token} (closed : Closed (t :: rest)) :
    ∀ (done : List (UnaryOp × Token)) (before : List Token), ∃ ops used left,
      t :: rest = used ++ left ∧ Closed left ∧
        skipPrefixes done before t rest = (ops ++ done, Cursor.over (used.reverse ++ before) left) ∧
        ∀ e tokens, Derives (.expression .unary e) tokens →
          Derives (.expression .unary (applyPrefixes ops e)) (used ++ tokens) := by
  induction rest generalizing t with
  | nil =>
      intro done before
      exact ⟨[], [], [t], rfl, closed, rfl, fun e tokens derived => derived⟩
  | cons next rest ih =>
      intro done before
      rw [skipPrefixes]
      cases stands : UnaryOp.ofKind? t.kind with
      | none => exact ⟨[], [], _, rfl, closed, rfl, fun e tokens derived => derived⟩
      | some op =>
          have inside : t.kind ≠ .eof := by
            intro eof
            simp [UnaryOp.ofKind?, eof] at stands
          obtain ⟨ops, used, left, split, closedLeft, skipped, operators⟩ :=
            ih (closed.tail inside) ((op, t) :: done) (t :: before)
          refine ⟨ops ++ [(op, t)], t :: used, left, by rw [split]; rfl, closedLeft, ?_, ?_⟩
          · simp only
            rw [skipped]
            simp
          · intro e tokens derived
            have listed := (mem_unaryOperators_iff _ _).mpr stands
            have whole := Derives.unary listed (operators e tokens derived)
            simpa [applyPrefixes] using whole

theorem prefixes_settles {before pending : List Token} (closed : Closed pending) :
    Settles prefixes before pending 0 fun ops used _ => ∀ e tokens,
      Derives (.expression .unary e) tokens →
        Derives (.expression .unary (applyPrefixes ops e)) (used ++ tokens) := by
  intro complaints
  obtain ⟨t, rest, rfl⟩ := List.exists_cons_of_ne_nil closed.ne_nil
  obtain ⟨ops, used, left, split, closedLeft, skipped, operators⟩ :=
    skipPrefixes_closed closed [] before
  have run : prefixes (.over before (t :: rest) complaints) =
      .ok ops (.over (used.reverse ++ before) left complaints) := by
    rw [prefixes]
    simp only [Cursor.over] at skipped ⊢
    rw [skipped, List.append_nil]
    rfl
  rw [run]
  exact ⟨used, left, #[], ⟨split, closedLeft, rfl⟩, by simp, Nat.zero_le _, fun _ => operators⟩

section Step

variable {depth : Nat} (below : ExpressionsSettle depth) {before pending : List Token}

include below

theorem expression_settles (closed : Closed pending) (enough : 8 * pending.length + 4 ≤ depth + 1) :
    Settles (expression (depth + 1)) before pending 1 fun e used _ => IsExpression e used := by
  rw [expression]
  apply (below.chain closed (by omega)).bind
  intro target used rest split closedRest some
  obtain ⟨t, later, rfl⟩ := List.exists_cons_of_ne_nil closedRest.ne_nil
  have lengths : pending.length = used.length + (later.length + 1) := by simp [split]
  apply Settles.check
  · intro equal
    refine (Settles.advance closedRest (by simp [equal]) fun closedLater => ?_).any
    refine ((below.expression closedLater (by omega)).bind ?_).any
    intro value used' rest' _ closedRest' _
    split
    · apply settles_pure closedRest'
      intro derivedValue derivedTarget
      obtain ⟨rfl, kind⟩ := derives_variable derivedTarget
      simpa using Derives.assign kind equal derivedValue
    · apply Settles.report
      show Settles _ _ _ _ fun _ _ _ => True
      exact settles_pure closedRest' trivial
  · intro _
    apply settles_pure closedRest
    intro derived
    have whole : IsExpression target used := .tighter derived
    simpa using whole

theorem chain_settles (closed : Closed pending) (enough : 8 * pending.length + 3 ≤ depth + 1) :
    Settles (chain (depth + 1)) before pending 1 fun e used _ =>
      Derives (.expression .or e) used := by
  rw [chain]
  apply (below.operand closed (by omega)).bind
  intro first used rest split closedRest some
  have lengths : pending.length = used.length + rest.length := by simp [split]
  apply (below.links #[] closedRest (by omega)).bind
  intro found used' rest' _ closedRest' _
  apply settles_pure closedRest'
  rintro ⟨later, rfl, linked⟩ operand
  simpa using derives_toExpr operand linked

theorem links_settles (done : Array Chain.Link) (closed : Closed pending)
    (enough : 8 * pending.length + 1 ≤ depth + 1) :
    Settles (links (depth + 1) done) before pending 0 fun found used _ =>
      ∃ later, found = done.toList ++ later ∧ Linked later used := by
  obtain ⟨t, rest, rfl⟩ := List.exists_cons_of_ne_nil closed.ne_nil
  rw [links]
  apply Settles.look fun complaints => current_over ..
  simp only [List.length_cons] at enough
  cases stands : InfixOp.ofKind? t.kind with
  | none =>
      apply settles_pure closed
      exact ⟨[], by simp, .nil⟩
  | some op =>
      have inside : t.kind ≠ .eof := by
        intro eof
        simp [InfixOp.ofKind?, eof] at stands
      refine (Settles.advance closed inside fun closedRest => ?_).any
      refine ((below.operand closedRest (by omega)).bind ?_).any
      intro right used rest' split closedRest' some
      have lengths : rest.length = used.length + rest'.length := by simp [split]
      refine (below.links _ closedRest' (by omega)).any.mono ?_
      rintro found used' rest'' ⟨later, rfl, linked⟩ operand
      exact ⟨⟨op, t, right⟩ :: later, by simp, .cons stands operand linked⟩

theorem arguments_settles (done : Array Expr) (closed : Closed pending)
    (enough : 8 * pending.length + 5 ≤ depth + 1) :
    Settles (arguments (depth + 1) done) before pending 1 fun args used _ =>
      ∃ later, args = done.toList ++ later ∧ Derives (.items later) used ∧
        done.size + later.length ≤ 255 := by
  have first : Settles (expression depth) before pending 1 fun e used _ => IsExpression e used :=
    below.expression closed (by omega)
  obtain ⟨t, tokens, rfl⟩ := List.exists_cons_of_ne_nil closed.ne_nil
  rw [arguments]
  split
  · -- past the limit the arguments are read all the same
    refine Settles.look (fun complaints => current_over ..) ?_
    apply Settles.report
    show Settles _ _ _ _ fun _ _ _ => True
    apply first.bind
    intro arg used rest split closedRest some
    obtain ⟨comma, others, rfl⟩ := List.exists_cons_of_ne_nil closedRest.ne_nil
    have lengths : (t :: tokens).length = used.length + (others.length + 1) := by simp [split]
    apply Settles.eat closedRest (by simp)
    · intro _ closedOthers
      exact (below.arguments _ closedOthers (by omega)).any.mono fun _ _ _ _ _ => trivial
    · intro _
      exact settles_pure closedRest fun _ => trivial
  · rename_i room
    apply first.bind
    intro arg used rest split closedRest some
    obtain ⟨comma, others, rfl⟩ := List.exists_cons_of_ne_nil closedRest.ne_nil
    have lengths : (t :: tokens).length = used.length + (others.length + 1) := by simp [split]
    apply Settles.eat closedRest (by simp)
    · intro separator closedOthers
      refine (below.arguments _ closedOthers (by omega)).any.mono ?_
      rintro args used' rest' ⟨later, rfl, derived, few⟩ derivedArg
      rw [Array.size_push] at few
      exact ⟨arg :: later, by simp, .moreItems derivedArg separator derived,
        by rw [List.length_cons]; omega⟩
    · intro _
      apply settles_pure closedRest
      intro derivedArg
      simp only [maxArity] at room
      refine ⟨[arg], by simp, by simpa using Derives.lastItem derivedArg, ?_⟩
      rw [List.length_singleton]
      omega

theorem calls_settles (callee : Expr) (closed : Closed pending)
    (enough : 8 * pending.length + 1 ≤ depth + 1) :
    Settles (calls (depth + 1) callee) before pending 0 fun e used _ =>
      ∀ front, Derives (.expression .call callee) front →
        Derives (.expression .call e) (front ++ used) := by
  obtain ⟨opening, rest, rfl⟩ := List.exists_cons_of_ne_nil closed.ne_nil
  simp only [List.length_cons] at enough
  -- what follows the arguments, given that they were read
  have finish : ∀ (args : List Expr) (used left : List Token), rest = used ++ left →
      Closed left → opening.kind = .symbol .leftParen →
      Settles (do
          let paren ← expect (.symbol .rightParen) .parenAfterArguments
          calls depth (.call callee paren args)) (used.reverse ++ opening :: before) left 0
        fun e others _ => (Derives (.arguments args) used ∧ args.length ≤ 255) → ∀ front,
          Derives (.expression .call callee) front →
            Derives (.expression .call e) (front ++ opening :: (used ++ others)) := by
    intro args used left split closedLeft left_paren
    obtain ⟨closing, later, rfl⟩ := List.exists_cons_of_ne_nil closedLeft.ne_nil
    have lengths : rest.length = used.length + (later.length + 1) := by simp [split]
    refine (Settles.expect closedLeft (by simp) fun right closedLater => ?_).any
    refine (below.calls _ closedLater (by omega)).mono ?_
    rintro e others _ derived ⟨given, few⟩ front called
    have next := derived _ (Derives.call called left_paren given few right)
    simpa using next
  rw [calls]
  apply Settles.eat closed (by simp)
  · intro left_paren closedRest
    obtain ⟨t, later, rfl⟩ := List.exists_cons_of_ne_nil closedRest.ne_nil
    simp only [if_true]
    apply Settles.check
    · intro _
      have none : Settles (pure []) (opening :: before) (t :: later) 0
          fun (args : List Expr) used _ => args = [] ∧ used = [] :=
          settles_pure closedRest ⟨rfl, rfl⟩
      apply none.bind
      intro args used left split closedLeft _
      refine (finish args used left split closedLeft left_paren).mono ?_
      rintro e others _ promise ⟨rfl, rfl⟩
      exact promise ⟨.noArguments, by simp⟩
    · intro _
      refine ((below.arguments #[] closedRest (by omega)).bind ?_).any
      intro args used left split closedLeft _
      refine (finish args used left split closedLeft left_paren).mono ?_
      rintro e others _ promise ⟨later, rfl, derived, few⟩
      exact promise ⟨.someArguments (by simpa using derived), by simpa using few⟩
  · intro _
    apply settles_pure closed
    intro front derived
    simpa using derived

theorem primary_settles (closed : Closed pending) (enough : 8 * pending.length + 1 ≤ depth + 1) :
    Settles (primary (depth + 1)) before pending 1 fun e used _ =>
      Derives (.expression .primary e) used := by
  obtain ⟨t, rest, rfl⟩ := List.exists_cons_of_ne_nil closed.ne_nil
  simp only [List.length_cons] at enough
  rw [primary]
  apply Settles.look fun complaints => current_over ..
  split
  · rename_i v found
    have constant := literalOf_constant found
    apply Settles.advance closed (constant_inside constant)
    intro closedRest
    exact settles_pure closedRest (.literal constant)
  · split
    · rename_i kind
      apply Settles.advance closed (by simp [kind])
      intro closedRest
      exact settles_pure closedRest (.named kind)
    · rename_i opening
      refine (Settles.advance closed (by simp [opening]) fun closedRest => ?_)
      refine ((below.expression closedRest (by omega)).bind ?_).any
      intro inner used left split closedLeft _
      obtain ⟨closing, later, rfl⟩ := List.exists_cons_of_ne_nil closedLeft.ne_nil
      refine (Settles.expect closedLeft (by simp) fun right closedLater => ?_).any
      apply settles_pure closedLater
      intro derived
      exact Derives.grouping opening derived right
    · exact settles_fail closed

theorem operand_settles (closed : Closed pending) (enough : 8 * pending.length + 2 ≤ depth + 1) :
    Settles (operand (depth + 1)) before pending 1 fun e used _ =>
      Derives (.expression .unary e) used := by
  rw [operand]
  apply (prefixes_settles closed).lead
  intro ops used rest split closedRest
  have lengths : pending.length = used.length + rest.length := by simp [split]
  apply (below.primary closedRest (by omega)).bind
  intro base used' rest' split' closedRest' some
  have lengths' : rest.length = used'.length + rest'.length := by simp [split']
  apply (below.calls base closedRest' (by omega)).bind
  intro called used'' rest'' _ closedRest'' _
  apply settles_pure closedRest''
  intro derivedCall derivedBase operators
  have call := derivedCall used' (.tighter derivedBase)
  simpa using operators called _ (.tighter call)

end Step

/-- The parsers of expressions settle at every depth, and promise what the grammar says. -/
theorem expressions_settle (depth : Nat) : ExpressionsSettle depth := by
  induction depth with
  | zero => constructor <;> intros <;> omega
  | succ depth below =>
      exact {
        expression := expression_settles below
        chain := chain_settles below
        links := links_settles below
        operand := operand_settles below
        calls := calls_settles below
        arguments := arguments_settles below
        primary := primary_settles below }

end Jess.Parser
