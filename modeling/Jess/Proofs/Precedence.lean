import Jess.Proofs.Tables

/-!
# Chains and levels

A chain of operands with operators between them has one tree by the levels of
the grammar, and it is the tree that `Chain.toExpr` builds in one pass. In one
direction a tree of a level is taken apart into its chain; while the chain is
resolved, the operators that wait bind less strongly than the level and stay
as they are. In the other direction the operators that wait are kept with the
tokens of their left operands, and each one that is settled is one use of a
rule.
-/

namespace Jess.Grammar

theorem Derives.loosen {level : Level} {e : Expr} {tokens : List Token}
    (derived : Derives (.expression level e) tokens) (weaker : Level)
    (below : weaker.rank ≤ level.rank) : Derives (.expression weaker e) tokens :=
  Level.weaken (P := fun level => Derives (.expression level e) tokens) (fun _ => .tighter)
    derived weaker below

inductive Linked : List Chain.Link → List Token → Prop
  | nil : Linked [] []
  | cons {op : InfixOp} {operator : Token} {right : Expr} {tokens rest : List Token}
      {links : List Chain.Link}
      (stands : InfixOp.ofKind? operator.kind = some op)
      (operand : Derives (.expression .unary right) tokens)
      (others : Linked links rest) :
      Linked (⟨op, operator, right⟩ :: links) (operator :: tokens ++ rest)

theorem Linked.append {front back : List Chain.Link} {tokens rest : List Token}
    (left : Linked front tokens) (right : Linked back rest) :
    Linked (front ++ back) (tokens ++ rest) := by
  induction left with
  | nil => exact right
  | cons stands operand _ ih =>
      have joined := Linked.cons stands operand ih
      simpa only [List.cons_append, List.append_assoc] using joined

theorem settle_of_lt (rank : Nat) (waiting : List Chain.Pending) (right : Expr)
    (weaker : ∀ p ∈ waiting.head?, p.op.rank < rank) :
    Chain.settle rank waiting right = (waiting, right) := by
  cases waiting with
  | nil => rfl
  | cons p rest =>
      have below := weaker p rfl
      rw [Chain.settle, if_neg (by omega)]

/-- An operator takes its right operand as soon as nothing stronger follows. -/
theorem resolve_pending (p : Chain.Pending) (waiting : List Chain.Pending) (right : Expr)
    (more : List Chain.Link) (follows : ∀ l ∈ more.head?, l.op.rank ≤ p.op.rank) :
    Chain.resolve (p :: waiting) right more =
      Chain.resolve waiting (p.op.apply p.operator p.left right) more := by
  cases more with
  | nil =>
      simp only [Chain.resolve]
      rw [Chain.settle, if_pos (Nat.zero_le _)]
  | cons link rest =>
      have below := follows link rfl
      simp only [Chain.resolve]
      rw [Chain.settle, if_pos below]

/-- Links behind a first operand are resolved to a tree, under any operators that wait for
something weaker and before any links that bind no more strongly. -/
def Resolves (level : Level) (first : Expr) (links : List Chain.Link) (e : Expr) : Prop :=
  ∀ waiting more, (∀ p ∈ waiting.head?, p.op.rank < level.rank) →
    (∀ l ∈ more.head?, l.op.rank ≤ level.rank) →
    Chain.resolve waiting first (links ++ more) = Chain.resolve waiting e more

theorem Resolves.operation {level : Level} {op : InfixOp} {operator : Token} {a b left right : Expr}
    {links later : List Chain.Link} (ranked : op.rank = level.rank)
    (next : level.tighter.rank = level.rank + 1) (first : Resolves level a links left)
    (second : Resolves level.tighter b later right) :
    Resolves level a (links ++ ⟨op, operator, b⟩ :: later) (op.apply operator left right) := by
  intro waiting more weaker follows
  have headOp : ∀ l ∈ ((⟨op, operator, b⟩ : Chain.Link) :: later ++ more).head?,
      l.op.rank ≤ level.rank := by
    intro l member
    cases member
    exact Nat.le_of_eq ranked
  have pendingBelow : ∀ p ∈ ((⟨left, op, operator⟩ : Chain.Pending) :: waiting).head?,
      p.op.rank < level.tighter.rank := by
    intro p member
    cases member
    simp only
    omega
  have moreBelow : ∀ l ∈ more.head?, l.op.rank ≤ level.tighter.rank := by
    intro l member
    have small := follows l member
    omega
  have moreRank : ∀ l ∈ more.head?,
      l.op.rank ≤ (⟨left, op, operator⟩ : Chain.Pending).op.rank := by
    intro l member
    have small := follows l member
    simp only
    omega
  have waits := settle_of_lt op.rank waiting left (by
    intro p member
    have small := weaker p member
    omega)
  calc Chain.resolve waiting a (links ++ ⟨op, operator, b⟩ :: later ++ more)
      = Chain.resolve waiting a (links ++ (⟨op, operator, b⟩ :: later ++ more)) := by
        rw [List.append_assoc]
    _ = Chain.resolve waiting left (⟨op, operator, b⟩ :: later ++ more) :=
        first _ _ weaker headOp
    _ = Chain.resolve (⟨left, op, operator⟩ :: waiting) b (later ++ more) := by
        rw [List.cons_append, Chain.resolve, waits]
    _ = Chain.resolve (⟨left, op, operator⟩ :: waiting) right more :=
        second _ _ pendingBelow moreBelow
    _ = Chain.resolve waiting (op.apply operator left right) more :=
        resolve_pending _ _ _ _ moreRank

theorem Resolves.loosen {level : Level} {first e : Expr} {links : List Chain.Link}
    (next : level.tighter.rank = level.rank + 1) (resolves : Resolves level.tighter first links e) :
    Resolves level first links e := by
  intro waiting more weaker follows
  apply resolves
  · intro p member
    have below := weaker p member
    omega
  · intro l member
    have below := follows l member
    omega

theorem exists_chain {phrase : Phrase} {tokens : List Token} (derived : Derives phrase tokens) :
    ∀ level e, phrase = .expression level e → 0 < level.rank → level.rank ≤ 7 →
      ∃ first links front back, tokens = front ++ back ∧
        Derives (.expression .unary first) front ∧ Linked links back ∧
        Resolves level first links e := by
  induction derived with
  | @operation level operator left right e front back first joined second ihFirst ihSecond =>
      intro level' e same positive bound
      cases same
      obtain ⟨op, stands, ranked, rfl⟩ := operation_iff.mp joined
      have atMost := rank_le op
      have next := Level.rank_tighter level (by omega)
      -- The left operand is of the same level, so its links come first.
      obtain ⟨a, linksA, frontA, backA, splitA, operandA, linkedA, resolveA⟩ :=
        ihFirst level left rfl positive bound
      obtain ⟨b, linksB, frontB, backB, splitB, operandB, linkedB, resolveB⟩ :=
        ihSecond level.tighter right rfl (by omega) (by omega)
      refine ⟨a, linksA ++ ⟨op, operator, b⟩ :: linksB, frontA, backA ++ operator :: back,
        ?_, operandA, ?_, resolveA.operation ranked next resolveB⟩
      · rw [splitA, List.append_assoc]
      · rw [splitB]
        exact linkedA.append (.cons stands operandB linkedB)
  | @tighter level e tokens inner ih =>
      intro level' e' same positive bound
      cases same
      by_cases operand : level = .unary
      · subst operand
        exact ⟨e, [], tokens, [], by simp, inner.tighter, .nil, fun _ _ _ _ => rfl⟩
      · have small : level.rank < 7 := by
          rcases Nat.lt_or_ge level.rank 7 with below | atLeast
          · exact below
          · have same : level.rank = Level.unary.rank := Nat.le_antisymm bound atLeast
            exact absurd (Level.rank_inj same) operand
        have next := Level.rank_tighter level (by omega)
        obtain ⟨first, links, front, back, split, operand, linked, resolved⟩ :=
          ih level.tighter e rfl (by omega) (by omega)
        exact ⟨first, links, front, back, split, operand, linked, resolved.loosen next⟩
  | unary listed operand ih =>
      intro level' e same positive bound
      cases same
      exact ⟨_, [], _, [], by simp, .unary listed operand, .nil, fun _ _ _ _ => rfl⟩
  | literal | named | grouping | call | assign =>
      intro level' e same positive bound
      cases same
      simp [Level.rank] at positive bound
  | noArguments | someArguments | lastItem | moreItems =>
      intro level' e same
      cases same

theorem exists_toExpr {e : Expr} {tokens : List Token}
    (derived : Derives (.expression .or e) tokens) :
    ∃ first links front back, tokens = front ++ back ∧
      Derives (.expression .unary first) front ∧ Linked links back ∧
      Chain.toExpr first links = e := by
  obtain ⟨first, links, front, back, split, operand, linked, resolved⟩ :=
    exists_chain derived .or e rfl (by decide) (by decide)
  refine ⟨first, links, front, back, split, operand, linked, ?_⟩
  have whole := resolved [] [] (by simp) (by simp)
  rw [List.append_nil] at whole
  rw [Chain.toExpr, whole]
  rfl

/-- Operators that wait, with the tokens of their left operands, and the rank of the
nearest one. Ranks fall from there on. -/
inductive Stacked : List Chain.Pending → Nat → List Token → Prop
  | nil : Stacked [] 0 []
  | cons {waiting : List Chain.Pending} {rank : Nat} {before front : List Token}
      {level : Level} {left : Expr} {op : InfixOp} {operator : Token}
      (below : Stacked waiting rank before) (falls : rank < op.rank)
      (same : level.rank = op.rank)
      (operand : Derives (.expression level left) front)
      (stands : InfixOp.ofKind? operator.kind = some op) :
      Stacked (⟨left, op, operator⟩ :: waiting) op.rank (before ++ front ++ [operator])

/-- Settling leaves operators of lower rank only, and an operand of the level asked for. -/
theorem Stacked.settle {waiting : List Chain.Pending} {rank : Nat} {before : List Token}
    (stacked : Stacked waiting rank before) (bound : Nat) :
    ∀ (level : Level) (right : Expr) (back : List Token), rank < level.rank →
      bound ≤ level.rank → level.rank ≤ 7 → Derives (.expression level right) back →
      ∃ rank' before' level' back',
        Stacked (Chain.settle bound waiting right).1 rank' before' ∧
        (rank' < bound ∨ (Chain.settle bound waiting right).1 = []) ∧
        bound ≤ level'.rank ∧ 0 < level'.rank ∧
        Derives (.expression level' (Chain.settle bound waiting right).2) back' ∧
        before' ++ back' = before ++ back := by
  induction stacked with
  | nil =>
      intro level right back above enough _ derived
      exact ⟨0, [], level, back, .nil, .inr rfl, enough, above, derived, rfl⟩
  | @cons waiting rank before front levelLeft left op operator below falls same operand stands ih =>
      intro level right back above enough atMost derived
      by_cases settles : bound ≤ op.rank
      · obtain ⟨strong, strongRank, strongNext⟩ := exists_level_of_rank op
        have sameLevel : levelLeft = strong := Level.rank_inj (same.trans strongRank.symm)
        subst sameLevel
        have rightOperand := derived.loosen levelLeft.tighter (by omega)
        have joined := Derives.operation operand
          (operation_iff.mpr ⟨op, stands, strongRank.symm, rfl⟩) rightOperand
        have small := rank_le op
        obtain ⟨rank', before', level', back', stacked', lower, high, positive, derived', tokens⟩ :=
          ih levelLeft (op.apply operator left right) (front ++ operator :: back) (by omega)
            (by omega) (by omega) joined
        simp only [Chain.settle, if_pos settles]
        refine ⟨rank', before', level', back', stacked', lower, high, positive, derived', ?_⟩
        rw [tokens]
        simp
      · simp only [Chain.settle, if_neg settles]
        exact ⟨_, _, level, back, .cons below falls same operand stands, .inl (by omega), enough,
          by omega, derived, rfl⟩

theorem Stacked.resolve {links : List Chain.Link} {rest : List Token} (linked : Linked links rest) :
    ∀ {waiting : List Chain.Pending} {rank : Nat} {before : List Token} (operand : Expr)
      (back : List Token), Stacked waiting rank before → rank < 7 →
      Derives (.expression .unary operand) back →
      Derives (.expression .or (Chain.resolve waiting operand links)) (before ++ back ++ rest) := by
  induction linked with
  | nil =>
      intro waiting rank before operand back stacked below derived
      obtain ⟨_, before', level', back', stacked', lower, _, positive, derived', tokens⟩ :=
        stacked.settle 0 .unary operand back below (Nat.zero_le _) (by decide) derived
      have empty : (Chain.settle 0 waiting operand).1 = [] := lower.resolve_left (Nat.not_lt_zero _)
      have noTokens : before' = [] := by
        rw [empty] at stacked'
        cases stacked'
        rfl
      subst noTokens
      simp only [Chain.resolve]
      rw [List.append_nil, ← tokens]
      exact derived'.loosen .or positive
  | @cons op operator right tokens rest links stands operandLink others ih =>
      intro waiting rank before operand back stacked below derived
      have small := rank_le op
      have positive := rank_pos op
      -- Stronger operators take what they wait for, and then this one waits on top.
      obtain ⟨rank', before', level', back', stacked', lower, high, _, derived', joined⟩ :=
        stacked.settle op.rank .unary operand back below
          (by simp only [Level.rank]; omega) (by decide) derived
      have falls : rank' < op.rank := by
        rcases lower with lower | empty
        · exact lower
        · rw [empty] at stacked'
          cases stacked'
          exact positive
      obtain ⟨level, levelRank, _⟩ := exists_level_of_rank op
      have left := derived'.loosen level (by omega)
      have next := ih right tokens (.cons stacked' falls levelRank left stands) (by omega)
        operandLink
      simp only [Chain.resolve]
      have assembled : before' ++ back' ++ [operator] ++ tokens ++ rest =
          before ++ back ++ (operator :: tokens ++ rest) := by
        rw [joined]
        simp
      exact assembled ▸ next

theorem derives_toExpr {first : Expr} {links : List Chain.Link} {front rest : List Token}
    (operand : Derives (.expression .unary first) front) (linked : Linked links rest) :
    Derives (.expression .or (Chain.toExpr first links)) (front ++ rest) :=
  Stacked.resolve linked first front .nil (by decide) operand

end Jess.Grammar
