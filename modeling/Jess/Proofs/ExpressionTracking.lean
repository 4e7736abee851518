import Jess.Proofs.ExpressionSoundness
import Jess.Proofs.Tracking

/-!
# The parsers of expressions track their languages

Each parser of expressions tracks the language of its phrase in front of
whatever does not continue the phrase. The induction is on the depth, for all of
them at once.
-/

namespace Jess.Parser

open Token (Kind)
open Grammar.Lenient
open scoped Computability

structure ExpressionsTrack (depth : Nat) : Prop where
  expression : ∀ {K : Language Kind} [Productive K], Heads K Stops →
    Follows (expression depth) expressions K
  chain : ∀ {K : Language Kind} [Productive K], Heads K StopsChain →
    Follows (chain depth) (spelled (.expression .or)) K
  links : ∀ {K : Language Kind} [Productive K] (done : Array Chain.Link), Heads K StopsChain →
    Follows (links depth done) linked K
  operand : ∀ {K : Language Kind} [Productive K], Heads K (· ≠ .symbol .leftParen) →
    Follows (operand depth) operands K
  calls : ∀ {K : Language Kind} [Productive K] (callee : Expr), Heads K (· ≠ .symbol .leftParen) →
    Follows (calls depth callee) applied K
  arguments : ∀ {K : Language Kind} [Productive K] (done : Array Expr),
    Heads K (fun kind => Stops kind ∧ kind ≠ .symbol .comma) →
    Follows (arguments depth done) (spelled .items) K
  primary : ∀ {K : Language Kind} [Productive K],
    Follows (primary depth) (spelled (.expression .primary)) K

section Prefixes

variable {K : Language Kind} (operands : Heads K fun kind => UnaryOp.ofKind? kind = none)

include operands

theorem skipPrefixes_accepts {t : Token} {rest : List Token} (closed : Closed (t :: rest)) :
    ∀ done before, ∃ used left, Passes before (t :: rest) (skipPrefixes done before t rest).2 used
      left ∧ Accepts prefixOps∗ K used left := by
  have unfolded : prefixOps∗ * K = K + prefixOps * (prefixOps∗ * K) := by
    rw [← mul_assoc, ← one_add_mul, Language.one_add_self_mul_kstar_eq_kstar]
  -- where no operator comes next there are none
  have stops : ∀ {t : Token} {rest : List Token}, UnaryOp.ofKind? t.kind = none →
      Accepts prefixOps∗ K [] (t :: rest) := by
    refine fun {t rest} none => ⟨Language.nil_mem_kstar _, ?_⟩
    intro u headed w member
    cases headed
    rw [unfolded] at member
    exact member.resolve_right ((begins_oneOf _).mul.heads.not_mem (by simp [none]))
  induction rest generalizing t with
  | nil =>
      intro done before
      cases closed with
      | ending isEnd =>
          exact ⟨[], [t], ⟨rfl, .ending isEnd, rfl⟩, stops (by simp [UnaryOp.ofKind?, isEnd])⟩
      | more _ others => cases others
  | cons next rest ih =>
      intro done before
      rw [skipPrefixes]
      cases stands : UnaryOp.ofKind? t.kind with
      | none => exact ⟨[], _, ⟨rfl, closed, rfl⟩, stops stands⟩
      | some op =>
          have inside : t.kind ≠ .eof := by
            intro eof
            simp [UnaryOp.ofKind?, eof] at stands
          obtain ⟨used, left, ⟨split, closedLeft, place⟩, accepts⟩ :=
            ih (closed.tail inside) ((op, t) :: done) (t :: before)
          have token : Accepts prefixOps (prefixOps∗ * K) [t] (used ++ left) := by
            refine ⟨⟨t.kind, ⟨op, stands⟩, rfl⟩, ?_⟩
            rintro u _ w ⟨_, ⟨kind, _, rfl⟩, back, member, joined⟩
            cases joined
            exact member
          refine ⟨t :: used, left, ⟨by rw [split]; rfl, closedLeft, by simp [place]⟩, ?_⟩
          refine (token.mul accepts).narrow mul_kstar_le_kstar ?_
          intro u headed w member
          cases headed
          rw [unfolded] at member
          rw [mul_assoc]
          exact member.resolve_left (operands.not_mem (by simp [stands]))

theorem prefixes_tracks : Follows prefixes prefixOps∗ K := by
  intro before pending closed complaints
  obtain ⟨t, rest, rfl⟩ := List.exists_cons_of_ne_nil closed.ne_nil
  obtain ⟨used, left, passes, accepts⟩ := skipPrefixes_accepts operands closed [] before
  exact .inl ⟨used, left, #[], passes, Array.append_empty.symm, harmless_empty, accepts⟩

end Prefixes

theorem keeps_assignment (target : Expr) (equals : Token) (value : Expr) :
    Keeps (match target with
      | .variable name => pure (.assign name value)
      | _ => do
          report equals .invalidTarget
          pure target : Parser Expr) := by
  split <;> infer_instance

theorem linked_heads {K : Language Kind} (stops : Heads K StopsChain) :
    Heads (linked * K) (· ≠ .symbol .leftParen) := by
  exact (stops.mono fun _ => And.right).linked fun _ _ => infix_ne_paren

/-- A primary expression is a single token unless it is in parentheses. -/
theorem primary_single {kind : Kind} {w : List Kind} (other : kind ≠ .symbol .leftParen)
    (member : kind :: w ∈ spelled (.expression .primary)) : kind :: w ∈ just kind := by
  rw [primary_eq] at member
  rcases member with (⟨_, _, same⟩ | same) | grouped
  · cases same
    rfl
  · cases same
    rfl
  · exact absurd (cons_mem_just_mul.mp grouped).1 other

section Step

variable {depth : Nat} (below : ExpressionsTrack depth) {K : Language Kind} [Productive K]

include below

theorem expression_tracks (stops : Heads K Stops) :
    Follows (expression (depth + 1)) expressions K := by
  intro before pending closed
  have next : Heads ((1 + just (.symbol .equal) * expressions) * K) StopsChain :=
    (stops.mono fun _ => And.left).optional
      (begins_just_mul (by simp [StopsChain, InfixOp.ofKind?]))
  rw [expression, assignment_eq]
  refine Tracks.bindKeeping (fun target => .after fun found => ?_) (below.chain next closed)
    fun target => ?_
  · split
    · exact .after fun equals => .after fun value => keeps_assignment target equals value
    · infer_instance
  intro before pending closed
  obtain ⟨t, rest, rfl⟩ := List.exists_cons_of_ne_nil closed.ne_nil
  apply Tracks.checks
  · intro equal
    refine Tracks.present ?_ fun w => stops.not_mem (by simp [Stops, equal])
    refine Tracks.advance closed equal (by simp) fun closedRest => ?_
    refine Tracks.finishKeeping (keeps_assignment target t) (below.expression stops closedRest) ?_
    intro value before pending closed
    split
    · exact tracks_pure closed
    · exact Tracks.report rfl (tracks_pure closed)
  · intro other
    exact Tracks.absent (tracks_pure closed) fun w => (begins_only _).mul.mul.heads.not_mem other

theorem chain_tracks (stops : Heads K StopsChain) :
    Follows (chain (depth + 1)) (spelled (.expression .or)) K := by
  intro before pending closed
  have next := linked_heads stops
  rw [chain, or_eq]
  refine Tracks.bind (below.operand next closed) fun first => ?_
  intro before pending closed
  exact Tracks.finish (below.links #[] stops closed) fun found _ _ closed => tracks_pure closed

theorem links_track (done : Array Chain.Link) (stops : Heads K StopsChain) :
    Follows (links (depth + 1) done) linked K := by
  intro before pending closed
  obtain ⟨t, rest, rfl⟩ := List.exists_cons_of_ne_nil closed.ne_nil
  have next := linked_heads stops
  rw [links, linked_eq]
  refine Tracks.look (fun _ => current_over ..) ?_
  cases stands : InfixOp.ofKind? t.kind with
  | none =>
      refine Tracks.absent (tracks_pure closed) fun w => ?_
      exact (begins_oneOf _).mul.mul.heads.not_mem (by simp [stands])
  | some op =>
      have operator : just t.kind ≤ infixes := by
        rintro _ rfl
        exact ⟨t.kind, ⟨op, stands⟩, rfl⟩
      refine Tracks.present ?_ fun w => stops.not_mem (by simp [StopsChain, stands])
      refine Tracks.narrow (A := just t.kind * (operands * linked)) ?_
        (mul_le_mul_left operator _) ?_
      · refine Tracks.advance closed rfl (infix_ne_eof stands) fun closedRest => ?_
        refine Tracks.bind (below.operand next closedRest) fun right => ?_
        exact below.links _ stops
      · rintro w ⟨_, ⟨_, ⟨kind, _, rfl⟩, front, member, rfl⟩, back, behind, joined⟩
        cases joined
        exact Language.append_mem_mul (cons_mem member) behind

theorem operand_tracks (stops : Heads K (· ≠ .symbol .leftParen)) :
    Follows (operand (depth + 1)) operands K := by
  intro before pending closed
  have next : Heads (spelled (.expression .primary) * applied * K)
      fun kind => UnaryOp.ofKind? kind = none :=
    (begins_primary.mono fun _ => unary_of_primary).mul.mul.heads
  rw [operand, operands_eq, call_eq]
  refine Tracks.bind (prefixes_tracks next closed) fun ops => ?_
  intro before pending closed
  refine Tracks.bind (below.primary closed) fun callee => ?_
  intro before pending closed
  exact Tracks.finish (below.calls callee stops closed) fun _ _ _ closed => tracks_pure closed

theorem calls_track (callee : Expr) (stops : Heads K (· ≠ .symbol .leftParen)) :
    Follows (calls (depth + 1) callee) applied K := by
  intro before pending closed
  obtain ⟨t, rest, rfl⟩ := List.exists_cons_of_ne_nil closed.ne_nil
  rw [calls, applied_eq]
  by_cases left : t.kind = .symbol .leftParen
  · refine Tracks.present ?_ fun w => stops.not_mem (not_not_intro left)
    refine Tracks.eats closed left (by simp) fun closedRest => ?_
    obtain ⟨u, later, rfl⟩ := List.exists_cons_of_ne_nil closedRest.ne_nil
    -- the parenthesis behind the arguments, and the lists after it
    have finish : ∀ args, Follows (do
        let paren ← expect (.symbol .rightParen) .parenAfterArguments
        calls depth (.call callee paren args)) (just (.symbol .rightParen) * applied) K := by
      intro args before pending closed
      obtain ⟨closing, others, rfl⟩ := List.exists_cons_of_ne_nil closed.ne_nil
      exact Tracks.expects closed (by simp) fun _ closedOthers => below.calls _ stops closedOthers
    rw [arguments_eq]
    apply Tracks.checks
    · intro right
      refine Tracks.bind (Tracks.absent (tracks_pure closedRest) fun w => ?_) finish
      exact begins_items.mul.heads.not_mem (by simp [right, BeginsExpression, BeginsPrimary])
    · intro other
      have next : Heads (just (.symbol .rightParen) * applied * K)
          fun kind => Stops kind ∧ kind ≠ .symbol .comma :=
        (begins_just_mul ⟨stops_rightParen, by simp⟩).mul.heads
      refine Tracks.bind (Tracks.present (below.arguments _ next closedRest) fun w => ?_) finish
      exact (begins_only _).mul.mul.heads.not_mem other
  · refine Tracks.absent (Tracks.skips left (tracks_pure closed)) fun w => ?_
    exact (begins_only _).mul.mul.heads.not_mem left

theorem arguments_track (done : Array Expr)
    (stops : Heads K fun kind => Stops kind ∧ kind ≠ .symbol .comma) :
    Follows (arguments (depth + 1) done) (spelled .items) K := by
  intro before pending closed
  have next : Heads ((1 + just (.symbol .comma) * spelled .items) * K) Stops :=
    (stops.mono fun _ => And.left).optional (begins_just_mul stops_comma)
  -- the part that is the same on both sides of the limit
  have items : Tracks (do
      let arg ← expression depth
      if ← eat (.symbol .comma) then
        arguments depth (done.push arg)
      else
        pure (done.push arg).toList) (spelled .items) K before pending := by
    rw [items_eq]
    refine Tracks.bind (below.expression next closed) fun arg => ?_
    intro before pending closed
    obtain ⟨t, rest, rfl⟩ := List.exists_cons_of_ne_nil closed.ne_nil
    by_cases comma : t.kind = .symbol .comma
    · refine Tracks.present ?_ fun w => stops.not_mem fun both => both.2 comma
      exact Tracks.eats closed comma (by simp) fun closedRest => below.arguments _ stops closedRest
    · refine Tracks.absent (Tracks.skips comma (tracks_pure closed)) fun w => ?_
      exact (begins_only _).mul.mul.heads.not_mem comma
  obtain ⟨t, rest, rfl⟩ := List.exists_cons_of_ne_nil closed.ne_nil
  rw [arguments]
  split
  · refine Tracks.look (fun _ => current_over ..) ?_
    exact Tracks.report rfl items
  · exact items

theorem primary_tracks : Follows (primary (depth + 1)) (spelled (.expression .primary)) K := by
  intro before pending closed
  obtain ⟨t, rest, rfl⟩ := List.exists_cons_of_ne_nil closed.ne_nil
  rw [primary]
  refine Tracks.look (fun _ => current_over ..) ?_
  split
  · rename_i v found
    have constant := literalOf_constant found
    have listed : t.kind ∈ constants := by
      cases constant <;> simp [constants, *]
    refine Tracks.choose (A := just t.kind) ?_ begins_primary ?_ fun w => primary_single ?_
    · exact Tracks.takes closed rfl (constant_inside constant) fun _ _ _ closed =>
        tracks_pure closed
    · rintro _ rfl
      exact Grammar.Lenient.Derives.literal listed
    · intro left
      simp [left, constants] at listed
  · rename_i found
    split
    · rename_i kind
      refine Tracks.choose (A := just .identifier) ?_ begins_primary ?_ ?_
      · exact Tracks.takes closed kind (by simp) fun _ _ _ closed => tracks_pure closed
      · rintro _ rfl
        exact Grammar.Lenient.Derives.named
      · rw [kind]
        exact fun w => primary_single (by simp)
    · rename_i left
      refine Tracks.choose
        (A := just (.symbol .leftParen) * (expressions * just (.symbol .rightParen))) ?_
        begins_primary (fun _ member => primary_eq ▸ .inr member) ?_
      · refine Tracks.advance closed left (by simp) fun closedRest => ?_
        refine Tracks.bind (below.expression (begins_just_mul stops_rightParen).heads closedRest) ?_
        intro inner before pending closed
        obtain ⟨u, others, rfl⟩ := List.exists_cons_of_ne_nil closed.ne_nil
        exact Tracks.ends closed (by simp) fun _ _ _ closed => tracks_pure closed
      · intro w member
        rw [primary_eq, left] at member
        rcases member with (⟨_, listed, same⟩ | same) | grouped
        · cases same
          simp [constants] at listed
        · cases same
        · exact left ▸ grouped
    · rename_i noName noParen
      refine tracks_fail fun w => begins_primary.mul.heads.not_mem fun begins => ?_
      simp only [BeginsPrimary, List.mem_cons, List.not_mem_nil, or_false] at begins
      rcases begins with kind | kind | kind | kind | kind | kind | kind
      · simp [literalOf?, kind] at found
      · simp [literalOf?, kind] at found
      · simp [literalOf?, kind] at found
      · simp [literalOf?, kind] at found
      · simp [literalOf?, kind] at found
      · exact noName kind
      · exact noParen kind

end Step

/-- The parsers of expressions track their languages at every depth. -/
theorem expressions_track (depth : Nat) : ExpressionsTrack depth := by
  induction depth with
  | zero =>
      refine ⟨?_, ?_, ?_, ?_, ?_, ?_, ?_⟩
      · intro K _ _ before pending _
        rw [expression]
        exact tracks_tooDeep
      · intro K _ _ before pending _
        rw [chain]
        exact tracks_tooDeep
      · intro K _ _ _ before pending _
        rw [links]
        exact tracks_tooDeep
      · intro K _ _ before pending _
        rw [operand]
        exact tracks_tooDeep
      · intro K _ _ _ before pending _
        rw [calls]
        exact tracks_tooDeep
      · intro K _ _ _ before pending _
        rw [arguments]
        exact tracks_tooDeep
      · intro K _ before pending _
        rw [primary]
        exact tracks_tooDeep
  | succ depth below =>
      exact {
        expression := expression_tracks below
        chain := chain_tracks below
        links := links_track below
        operand := operand_tracks below
        calls := calls_track below
        arguments := arguments_track below
        primary := primary_tracks below }

end Jess.Parser
