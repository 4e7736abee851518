import Jess.Proofs.Precedence
import Jess.Proofs.Steps

/-!
# The parser reads every expression of the grammar

An expression is read from the tokens that derive it, whatever stands around
them, as long as the next token does not continue it. The depth that is needed
grows with the number of tokens alone. The induction is on that number: within
a phrase of the same tokens only the level changes, from the whole expression
down to its first primary expression.
-/

namespace Jess.Parser

open Token (Kind)
open Grammar

/-- A parser reads tokens as a value where `Follow` holds of the next token: it goes past
them and files nothing, at every depth that the number of tokens and `cost` allow. -/
def Reads {α : Type} (p : Nat → Parser α) (cost : Nat) (Follow : Kind → Prop)
    (tokens : List Token) (v : α) : Prop :=
  ∀ depth before next rest complaints, 8 * tokens.length + cost ≤ depth → Follow next.kind →
    p depth (.over before (tokens ++ next :: rest) complaints) =
      .ok v (.over (tokens.reverse ++ before) (next :: rest) complaints)

def StopsChain (kind : Kind) : Prop :=
  InfixOp.ofKind? kind = none ∧ kind ≠ .symbol .leftParen

def Stops (kind : Kind) : Prop := StopsChain kind ∧ kind ≠ .symbol .equal

def BeginsPrimary (kind : Kind) : Prop :=
  kind ∈ [Kind.keyword .kwFalse, .keyword .kwTrue, .keyword .kwNil, .number, .string, .identifier,
    .symbol .leftParen]

def BeginsExpression (kind : Kind) : Prop :=
  BeginsPrimary kind ∨ kind = .symbol .minus ∨ kind = .symbol .bang

theorem constant_begins {t : Token} {v : Literal} (constant : Constant t v) :
    BeginsPrimary t.kind := by
  cases constant with
  | falsity kind => simp [BeginsPrimary, kind]
  | truth kind => simp [BeginsPrimary, kind]
  | nothing kind => simp [BeginsPrimary, kind]
  | number kind => simp [BeginsPrimary, kind]
  | string kind => simp [BeginsPrimary, kind]

theorem constant_literalOf {t : Token} {v : Literal} (constant : Constant t v) :
    literalOf? t = some v := by
  cases constant with
  | falsity kind => simp [literalOf?, kind]
  | truth kind => simp [literalOf?, kind]
  | nothing kind => simp [literalOf?, kind]
  | number kind => simp [literalOf?, kind]
  | string kind => simp [literalOf?, kind]

theorem unary_of_primary {kind : Kind} (begins : BeginsPrimary kind) :
    UnaryOp.ofKind? kind = none := by
  simp only [BeginsPrimary, List.mem_cons, List.not_mem_nil, or_false] at begins
  rcases begins with rfl | rfl | rfl | rfl | rfl | rfl | rfl <;> rfl

theorem infix_ne_eof {kind : Kind} {op : InfixOp} (stands : InfixOp.ofKind? kind = some op) :
    kind ≠ .eof := by
  rintro rfl
  simp [InfixOp.ofKind?] at stands

theorem infix_ne_paren {kind : Kind} {op : InfixOp} (stands : InfixOp.ofKind? kind = some op) :
    kind ≠ .symbol .leftParen := by
  rintro rfl
  simp [InfixOp.ofKind?] at stands

theorem derives_begins {phrase : Phrase} {tokens : List Token} (derived : Derives phrase tokens) :
    ∀ level e, phrase = .expression level e →
      ∃ t rest, tokens = t :: rest ∧ BeginsExpression t.kind ∧
        (Level.call.rank ≤ level.rank → BeginsPrimary t.kind) := by
  induction derived with
  | literal constant =>
      intro level e _
      have begins := constant_begins constant
      exact ⟨_, [], rfl, .inl begins, fun _ => begins⟩
  | named kind =>
      intro level e _
      have begins : BeginsPrimary .identifier := by simp [BeginsPrimary]
      exact ⟨_, [], rfl, .inl (kind ▸ begins), fun _ => kind ▸ begins⟩
  | grouping left _ _ _ =>
      intro level e _
      have begins : BeginsPrimary (.symbol .leftParen) := by simp [BeginsPrimary]
      exact ⟨_, _, rfl, .inl (left ▸ begins), fun _ => left ▸ begins⟩
  | call _ _ _ _ _ ih _ =>
      intro level e same
      cases same
      obtain ⟨t, rest, rfl, begins, primary⟩ := ih .call _ rfl
      exact ⟨t, _, rfl, begins, primary⟩
  | unary listed _ _ =>
      intro level e same
      cases same
      have stands := (mem_unaryOperators_iff _ _).mp listed
      refine ⟨_, _, rfl, .inr ?_, fun impossible => absurd impossible (by decide)⟩
      simp only [unaryOperators, List.mem_cons, List.not_mem_nil, Prod.mk.injEq, or_false] at listed
      rcases listed with ⟨minus, _⟩ | ⟨bang, _⟩
      · exact .inl minus
      · exact .inr bang
  | operation _ _ _ ih _ =>
      intro level e same
      cases same
      obtain ⟨t, rest, rfl, begins, primary⟩ := ih _ _ rfl
      exact ⟨t, _, rfl, begins, primary⟩
  | assign kind _ _ _ =>
      intro level e _
      have begins : BeginsPrimary .identifier := by simp [BeginsPrimary]
      exact ⟨_, _, rfl, .inl (kind ▸ begins), fun _ => kind ▸ begins⟩
  | @tighter inner e tokens derived ih =>
      intro level e' same
      cases same
      obtain ⟨t, rest, split, begins, primary⟩ := ih _ _ rfl
      have grows : inner.rank ≤ inner.tighter.rank := by cases inner <;> decide
      exact ⟨t, rest, split, begins, fun above => primary (Nat.le_trans above grows)⟩
  | noArguments | someArguments | lastItem | moreItems =>
      intro level e same
      cases same

theorem begins_of_expression {e : Expr} {tokens : List Token} (derived : IsExpression e tokens) :
    ∃ t rest, tokens = t :: rest ∧ BeginsExpression t.kind := by
  obtain ⟨t, rest, split, begins, _⟩ := derives_begins derived _ _ rfl
  exact ⟨t, rest, split, begins⟩

theorem begins_ne {kind : Kind} (other : Kind) (begins : BeginsExpression kind)
    (apart : ¬BeginsExpression other) : kind ≠ other := by
  rintro rfl
  exact apart begins

abbrev ReadsBelow (size : Nat) : Prop :=
  ∀ e tokens, tokens.length < size → IsExpression e tokens → Reads expression 4 Stops tokens e

theorem stops_rightParen : Stops (.symbol .rightParen) := by
  simp [Stops, StopsChain, InfixOp.ofKind?]

theorem stops_comma : Stops (.symbol .comma) := by simp [Stops, StopsChain, InfixOp.ofKind?]

theorem stops_semicolon : Stops (.symbol .semicolon) := by simp [Stops, StopsChain, InfixOp.ofKind?]

theorem primary_reads {size : Nat} (below : ReadsBelow size) {e : Expr} {tokens : List Token}
    (bound : tokens.length ≤ size) (derived : Derives (.expression .primary e) tokens) :
    Reads primary 1 (fun _ => True) tokens e := by
  generalize same : Phrase.expression .primary e = phrase at derived
  induction derived with
  | @literal t v constant =>
      cases same
      intro depth before next rest complaints enough _
      obtain ⟨depth, rfl⟩ : ∃ d, depth = d + 1 := ⟨depth - 1, by omega⟩
      have inside : t.kind ≠ .eof := by
        intro eof
        have begins := constant_begins constant
        simp [BeginsPrimary, eof] at begins
      rw [primary, List.singleton_append, bind_of_ok (current_over ..),
        constant_literalOf constant]
      simp only
      rw [bind_of_ok (advance_over _ _ _ _ inside (by simp))]
      rfl
  | named kind =>
      cases same
      intro depth before next rest complaints enough _
      obtain ⟨depth, rfl⟩ : ∃ d, depth = d + 1 := ⟨depth - 1, by omega⟩
      rw [primary, List.singleton_append, bind_of_ok (current_over ..)]
      simp only [literalOf?, kind]
      rw [bind_of_ok (advance_over _ _ _ _ (by simp [kind]) (by simp))]
      rfl
  | @grouping opening closing tokens e' left inner right ih =>
      cases same
      intro depth before next rest complaints enough _
      obtain ⟨depth, rfl⟩ : ∃ d, depth = d + 1 := ⟨depth - 1, by omega⟩
      simp only [List.length_append, List.length_cons, List.length_nil] at bound enough
      have read := below e' tokens (by omega) inner depth (opening :: before) closing
        (next :: rest) complaints (by omega) (right ▸ stops_rightParen)
      simp only [List.append_assoc, List.cons_append, List.nil_append] at read ⊢
      rw [primary, bind_of_ok (current_over ..)]
      simp only [literalOf?, left]
      rw [bind_of_ok (advance_over _ _ _ _ (by simp [left]) (by simp)), bind_of_ok read,
        bind_of_ok (expect_over _ _ _ _ right (by simp) (by simp))]
      simp [pure_apply]
  | @tighter level e' tokens _ ih =>
      cases same
      exact ih bound rfl
  | operation _ joined _ _ _ =>
      cases same
      obtain listed | listed := joined <;> cases listed
  | call | unary | assign | noArguments | someArguments | lastItem | moreItems => cases same

theorem items_read {size : Nat} (below : ReadsBelow size) {args : List Expr} {tokens : List Token}
    (bound : tokens.length < size) (derived : Derives (.items args) tokens) :
    ∀ done : Array Expr, done.size + args.length ≤ 255 →
      Reads (fun depth => arguments depth done) 5 (· = .symbol .rightParen) tokens
        (done.toList ++ args) := by
  generalize same : Phrase.items args = phrase at derived
  induction derived generalizing args with
  | lastItem item =>
      cases same
      intro done few depth before next rest complaints enough follows
      obtain ⟨depth, rfl⟩ : ∃ d, depth = d + 1 := ⟨depth - 1, by omega⟩
      have read := below _ _ bound item depth before next rest complaints (by omega)
        (follows ▸ stops_rightParen)
      have room : ¬maxArity ≤ done.size := by
        simp only [List.length_singleton] at few
        simp only [maxArity]
        omega
      have noComma : next.kind ≠ .symbol .comma := by simp [follows]
      simp only [arguments, if_neg room]
      rw [bind_of_ok read, bind_of_ok (eat_over_of_ne _ _ _ _ noComma)]
      simp [pure_apply]
  | @moreItems comma e args tokens rest' item kind others readItem ih =>
      cases same
      intro done few depth before next rest complaints enough follows
      obtain ⟨depth, rfl⟩ : ∃ d, depth = d + 1 := ⟨depth - 1, by omega⟩
      simp only [List.length_append, List.length_cons] at bound enough few
      have read := below _ _ (by omega) item depth before comma (rest' ++ next :: rest) complaints
        (by omega) (kind ▸ stops_comma)
      have room : ¬maxArity ≤ done.size := by
        simp only [maxArity]
        omega
      have later := ih (by omega) rfl (done.push e)
        (by rw [Array.size_push]; omega) depth
        (comma :: (tokens.reverse ++ before)) next rest complaints (by omega) follows
      simp only [arguments, if_neg room, List.append_assoc, List.cons_append]
      rw [bind_of_ok read, bind_of_ok (eat_over _ _ _ _ kind (by simp) (by simp))]
      simp only [if_true]
      refine later.trans ?_
      simp
  | literal | named | grouping | call | noArguments | someArguments | unary | operation | assign
    | tighter => cases same

theorem items_begin {args : List Expr} {tokens : List Token}
    (derived : Derives (.items args) tokens) :
    ∃ t rest, tokens = t :: rest ∧ BeginsExpression t.kind := by
  cases derived with
  | lastItem item => exact begins_of_expression item
  | moreItems item _ _ =>
      obtain ⟨t, rest, rfl, begins⟩ := begins_of_expression item
      exact ⟨t, _, rfl, begins⟩

theorem call_reads {size : Nat} (below : ReadsBelow size) {opening closing : Token}
    {args : List Expr} {tokens : List Token} (bound : tokens.length < size)
    (left : opening.kind = .symbol .leftParen) (given : Derives (.arguments args) tokens)
    (few : args.length ≤ 255) (right : closing.kind = .symbol .rightParen) (callee : Expr)
    (depth : Nat) (before rest : List Token) (next : Token) (complaints : Array Complaint)
    (enough : 8 * tokens.length + 5 ≤ depth) :
    calls (depth + 1) callee
        (.over before (opening :: tokens ++ closing :: next :: rest) complaints) =
      calls depth (.call callee closing args)
        (.over ((opening :: tokens ++ [closing]).reverse ++ before) (next :: rest) complaints) := by
  cases given with
  | noArguments =>
      rw [calls, List.cons_append, List.nil_append,
        bind_of_ok (eat_over _ _ _ _ left (by simp) (by simp))]
      simp only [if_true]
      rw [bind_of_ok (check_over ..), right]
      simp only [beq_self_eq_true, if_true]
      rw [bind_of_ok (pure_apply _ _), bind_of_ok (expect_over _ _ _ _ right (by simp) (by simp))]
      rfl
  | someArguments items =>
      obtain ⟨t, others, rfl, begins⟩ := items_begin items
      have notParen : (t.kind == .symbol .rightParen) = false := by
        simpa using begins_ne _ begins (by simp [BeginsExpression, BeginsPrimary])
      have read := items_read below bound items #[] (by simpa using few) depth
        (opening :: before) closing (next :: rest) complaints (by omega) right
      simp only [List.cons_append] at read ⊢
      rw [calls, bind_of_ok (eat_over _ _ _ _ left (by simp) (by simp))]
      simp only [if_true]
      rw [bind_of_ok (check_over ..), notParen]
      simp only [Bool.false_eq_true, if_false]
      rw [bind_of_ok read, bind_of_ok (expect_over _ _ _ _ right (by simp) (by simp))]
      simp

/-- A primary expression with argument lists behind it: the lists are gone past one by one,
each at the cost of one step of depth. -/
theorem exists_calls {size : Nat} (below : ReadsBelow size) {e : Expr} {tokens : List Token}
    (bound : tokens.length ≤ size) (derived : Derives (.expression .call e) tokens) :
    ∃ base front back, tokens = front ++ back ∧ Derives (.expression .primary base) front ∧
      (∀ t ∈ back.head?, t.kind = .symbol .leftParen) ∧
      ∀ depth before next rest complaints, 8 * back.length + 1 ≤ depth →
        ∃ left, depth ≤ left + back.length ∧
          calls depth base (.over before (back ++ next :: rest) complaints) =
            calls left e (.over (back.reverse ++ before) (next :: rest) complaints) := by
  generalize same : Phrase.expression .call e = phrase at derived
  -- The grammar nests argument lists to the left, where the parser takes them in turn.
  induction derived generalizing e with
  | @call opening closing front tokens callee args called left given few right ih ihGiven =>
      cases same
      simp only [List.length_append, List.length_cons, List.length_nil] at bound
      obtain ⟨base, first, back, rfl, primary, head, turns⟩ := ih (by omega) rfl
      refine ⟨base, first, back ++ opening :: tokens ++ [closing], by simp, primary, ?_, ?_⟩
      · intro t member
        cases back with
        | nil =>
            cases member
            exact left
        | cons u others =>
            cases member
            exact head _ rfl
      · intro depth before next rest complaints enough
        simp only [List.length_append, List.length_cons, List.length_nil] at enough bound ⊢
        obtain ⟨depthLeft, spent, turned⟩ := turns depth before opening
          (tokens ++ closing :: next :: rest) complaints (by omega)
        obtain ⟨inner, rfl⟩ : ∃ d, depthLeft = d + 1 := ⟨depthLeft - 1, by omega⟩
        have turn := call_reads below (by omega) left given few right callee inner
          (back.reverse ++ before) rest next complaints (by omega)
        refine ⟨inner, by omega, ?_⟩
        have start : back ++ opening :: tokens ++ [closing] ++ next :: rest =
            back ++ opening :: (tokens ++ closing :: next :: rest) := by simp
        have stop : (back ++ opening :: tokens ++ [closing]).reverse ++ before =
            (opening :: tokens ++ [closing]).reverse ++ (back.reverse ++ before) := by simp
        rw [start, turned, stop]
        exact turn
  | tighter inner ih =>
      cases same
      refine ⟨_, _, [], by simp, inner, by simp, ?_⟩
      intro depth before next rest complaints _
      exact ⟨depth, by simp, rfl⟩
  | operation _ joined _ _ _ =>
      cases same
      obtain listed | listed := joined <;> cases listed
  | literal | named | grouping | unary | assign | noArguments | someArguments | lastItem
    | moreItems => cases same

theorem exists_operators {e : Expr} {tokens : List Token}
    (derived : Derives (.expression .unary e) tokens) :
    ∃ (ops : List (UnaryOp × Token)) (base : Expr) (back : List Token),
      tokens = ops.map Prod.snd ++ back ∧ Derives (.expression .call base) back ∧
        (∀ op ∈ ops, UnaryOp.ofKind? op.2.kind = some op.1) ∧
        e = applyPrefixes ops.reverse base := by
  generalize same : Phrase.expression .unary e = phrase at derived
  induction derived generalizing e with
  | @unary operator op inner tokens listed operand ih =>
      cases same
      obtain ⟨ops, base, back, rfl, called, stand, rfl⟩ := ih rfl
      refine ⟨(op, operator) :: ops, base, back, by simp, called, ?_, ?_⟩
      · intro other member
        rcases List.mem_cons.mp member with rfl | later
        · exact (mem_unaryOperators_iff _ _).mp listed
        · exact stand other later
      · simp [applyPrefixes]
  | tighter inner ih =>
      cases same
      exact ⟨[], _, _, by simp, inner, by simp, rfl⟩
  | operation _ joined _ _ _ =>
      cases same
      obtain listed | listed := joined <;> cases listed
  | literal | named | grouping | call | assign | noArguments | someArguments | lastItem
    | moreItems => cases same

theorem skipPrefixes_over (ops done : List (UnaryOp × Token)) (before rest : List Token)
    (token next : Token) (stand : ∀ op ∈ ops, UnaryOp.ofKind? op.2.kind = some op.1)
    (operand : UnaryOp.ofKind? token.kind = none) :
    ∀ current after, current :: after = ops.map Prod.snd ++ token :: next :: rest →
      skipPrefixes done before current after =
        (ops.reverse ++ done, Cursor.over ((ops.map Prod.snd).reverse ++ before)
          (token :: next :: rest)) := by
  induction ops generalizing done before with
  | nil =>
      intro current after same
      cases same
      simp [skipPrefixes, operand, Cursor.over]
  | cons op ops ih =>
      intro current after same
      rw [List.map_cons, List.cons_append] at same
      cases same
      obtain ⟨second, others, split⟩ : ∃ t more,
          ops.map Prod.snd ++ token :: next :: rest = t :: more := by
        cases ops with
        | nil => exact ⟨_, _, rfl⟩
        | cons o more => exact ⟨_, _, rfl⟩
      have first := stand op (List.mem_cons_self ..)
      have later := ih ((op.1, op.2) :: done) (op.2 :: before)
        (fun o member => stand o (List.mem_cons_of_mem _ member)) second others split.symm
      rw [split, skipPrefixes, first]
      simp only
      rw [later]
      simp

theorem operand_reads {size : Nat} (below : ReadsBelow size) {e : Expr} {tokens : List Token}
    (bound : tokens.length ≤ size) (derived : Derives (.expression .unary e) tokens) :
    Reads operand 2 (· ≠ .symbol .leftParen) tokens e := by
  obtain ⟨ops, called, back, rfl, derivedCall, stand, rfl⟩ := exists_operators derived
  simp only [List.length_append, List.length_map] at bound
  obtain ⟨base, front, lists, rfl, derivedPrimary, head, turns⟩ :=
    exists_calls below (by omega) derivedCall
  obtain ⟨t, others, rfl, _, begins⟩ := derives_begins derivedPrimary _ _ rfl
  intro depth before next rest complaints enough follows
  obtain ⟨depth, rfl⟩ : ∃ d, depth = d + 1 := ⟨depth - 1, by omega⟩
  simp only [List.length_append, List.length_map, List.length_cons] at bound enough
  obtain ⟨second, more, split⟩ : ∃ u more, others ++ lists ++ next :: rest = u :: more := by
    cases others with
    | nil => cases lists <;> exact ⟨_, _, rfl⟩
    | cons u more => exact ⟨_, _, rfl⟩
  obtain ⟨third, beyond, splitLists⟩ : ∃ u more, lists ++ next :: rest = u :: more := by
    cases lists <;> exact ⟨_, _, rfl⟩
  have whole : ops.map Prod.snd ++ (t :: others ++ lists) ++ next :: rest =
      ops.map Prod.snd ++ t :: second :: more := by
    rw [← split]
    simp
  have skipped : prefixes (.over before (ops.map Prod.snd ++ t :: second :: more) complaints) =
      .ok ops.reverse (.over ((ops.map Prod.snd).reverse ++ before) (t :: second :: more)
        complaints) := by
    obtain ⟨current, after, same⟩ : ∃ u v, ops.map Prod.snd ++ t :: second :: more = u :: v := by
      cases ops <;> exact ⟨_, _, rfl⟩
    have skip := skipPrefixes_over ops [] before more t second stand
      (unary_of_primary (begins (by decide))) current after same.symm
    rw [same, prefixes]
    simp only [Cursor.over] at skip ⊢
    rw [skip, List.append_nil]
    rfl
  have readPrimary := primary_reads below (by simp only [List.length_cons]; omega) derivedPrimary
    depth ((ops.map Prod.snd).reverse ++ before) third beyond complaints
    (by simp only [List.length_cons]; omega) trivial
  obtain ⟨left, spent, turned⟩ := turns depth
    ((t :: others).reverse ++ ((ops.map Prod.snd).reverse ++ before)) next rest complaints
    (by omega)
  obtain ⟨left, rfl⟩ : ∃ d, left = d + 1 := ⟨left - 1, by omega⟩
  have ended : calls (left + 1) called
      (.over (lists.reverse ++ ((t :: others).reverse ++ ((ops.map Prod.snd).reverse ++ before)))
        (next :: rest) complaints) =
      .ok called (.over (lists.reverse ++ ((t :: others).reverse ++
        ((ops.map Prod.snd).reverse ++ before))) (next :: rest) complaints) := by
    rw [calls, bind_of_ok (eat_over_of_ne _ _ _ _ follows)]
    rfl
  have sameTokens : t :: second :: more = t :: others ++ third :: beyond := by
    rw [← splitLists, ← split]
    simp
  rw [operand, whole, bind_of_ok skipped, sameTokens, bind_of_ok readPrimary, ← splitLists]
  rw [bind_of_ok (turned.trans ended)]
  simp [pure_apply]

theorem links_read {size : Nat} (below : ReadsBelow size) {found : List Chain.Link}
    {tokens : List Token} (linked : Linked found tokens) :
    ∀ done : Array Chain.Link, tokens.length ≤ size →
      Reads (fun depth => links depth done) 1 StopsChain tokens (done.toList ++ found) := by
  induction linked with
  | nil =>
      intro done _ depth before next rest complaints enough follows
      obtain ⟨depth, rfl⟩ : ∃ d, depth = d + 1 := ⟨depth - 1, by omega⟩
      simp only [links, List.nil_append]
      rw [bind_of_ok (current_over ..), follows.1]
      simp [pure_apply]
  | @cons op operator right tokens rest' links' stands operandLink others ih =>
      intro done bound depth before next rest complaints enough follows
      obtain ⟨depth, rfl⟩ : ∃ d, depth = d + 1 := ⟨depth - 1, by omega⟩
      simp only [List.length_append, List.length_cons] at bound enough
      obtain ⟨second, beyond, split⟩ : ∃ u v, rest' ++ next :: rest = u :: v := by
        cases rest' <;> exact ⟨_, _, rfl⟩
      have notParen : second.kind ≠ .symbol .leftParen := by
        cases others with
        | nil =>
            cases split
            exact follows.2
        | cons stands' _ _ =>
            cases split
            exact infix_ne_paren stands'
      have readOperand := operand_reads below (by omega) operandLink depth (operator :: before)
        second beyond complaints (by omega) notParen
      have readLinks := ih (done.push ⟨op, operator, right⟩) (by omega) depth
        (tokens.reverse ++ operator :: before) next rest complaints (by omega) follows
      simp only [links, List.cons_append, List.append_assoc, split]
      rw [bind_of_ok (current_over ..), stands]
      simp only
      rw [bind_of_ok (advance_over _ _ _ _ (infix_ne_eof stands) (by simp)),
        bind_of_ok readOperand, ← split]
      refine readLinks.trans ?_
      simp

theorem chain_reads {size : Nat} (below : ReadsBelow size) {e : Expr} {tokens : List Token}
    (bound : tokens.length ≤ size) (derived : Derives (.expression .or e) tokens) :
    Reads chain 3 StopsChain tokens e := by
  obtain ⟨first, found, front, back, rfl, derivedFirst, linked, rfl⟩ := exists_toExpr derived
  intro depth before next rest complaints enough follows
  obtain ⟨depth, rfl⟩ : ∃ d, depth = d + 1 := ⟨depth - 1, by omega⟩
  simp only [List.length_append] at bound enough
  obtain ⟨second, beyond, split⟩ : ∃ u v, back ++ next :: rest = u :: v := by
    cases back <;> exact ⟨_, _, rfl⟩
  have notParen : second.kind ≠ .symbol .leftParen := by
    cases linked with
    | nil =>
        cases split
        exact follows.2
    | cons stands _ _ =>
        cases split
        exact infix_ne_paren stands
  have readFirst := operand_reads below (by omega) derivedFirst depth before second beyond
    complaints (by omega) notParen
  have readLinks := links_read below linked #[] (by omega) depth (front.reverse ++ before) next rest
    complaints (by omega) follows
  rw [chain, List.append_assoc, split, bind_of_ok readFirst, ← split, bind_of_ok readLinks]
  simp [pure_apply]

/-- The parser reads every expression as its tree. -/
theorem expression_reads {e : Expr} {tokens : List Token} (derived : IsExpression e tokens) :
    Reads expression 4 Stops tokens e := by
  suffices known : ∀ size, ReadsBelow size by
    exact known (tokens.length + 1) e tokens (by omega) derived
  -- Groupings and arguments hold expressions of fewer tokens.
  intro size
  induction size with
  | zero =>
      intro e tokens impossible
      omega
  | succ size below =>
      intro e tokens bound derived
      cases derived with
      | @assign name equals value' tokens kind sign value =>
          simp only [List.length_cons] at bound
          intro depth before next rest complaints enough follows
          obtain ⟨depth, rfl⟩ : ∃ d, depth = d + 1 := ⟨depth - 1, by omega⟩
          simp only [List.length_cons] at enough
          have target : Derives (.expression .or (.variable name)) [name] :=
            (Derives.named kind).loosen .or (by decide)
          have readTarget := chain_reads below (by simp only [List.length_singleton]; omega) target
            depth before equals (tokens ++ next :: rest) complaints
            (by simp only [List.length_singleton]; omega)
            (by rw [sign]; exact ⟨rfl, by simp⟩)
          have readValue := below _ _ (by omega) value depth (equals :: name :: before) next rest
            complaints (by omega) follows
          simp only [List.cons_append, List.nil_append, List.reverse_cons,
            List.reverse_nil] at readTarget ⊢
          rw [expression, bind_of_ok readTarget, bind_of_ok (check_over ..), sign]
          simp only [beq_self_eq_true, if_true]
          rw [bind_of_ok (advance_over _ _ _ _ (by simp [sign]) (by simp)), bind_of_ok readValue]
          simp [pure_apply]
      | tighter inner =>
          intro depth before next rest complaints enough follows
          obtain ⟨depth, rfl⟩ : ∃ d, depth = d + 1 := ⟨depth - 1, by omega⟩
          have read := chain_reads below (by omega) inner depth before next rest complaints
            (by omega) follows.1
          have noSign : (next.kind == .symbol .equal) = false := by simpa using follows.2
          rw [expression, bind_of_ok read, bind_of_ok (check_over ..), noSign]
          rfl
      | operation _ joined _ => obtain listed | listed := joined <;> cases listed

end Jess.Parser
