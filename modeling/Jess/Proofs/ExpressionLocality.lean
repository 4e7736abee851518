import Jess.Proofs.Locality

/-!
# Expressions are read in step

No rule of expressions goes past a semicolon. So an expression ends where the
texts are still alike, and one that begins where the first text is at its end
has nothing to begin with.
-/

namespace Jess.Parser

open Token (Kind)

variable {later s l : List Token}

theorem skipPrefixes_alike {t : Token} (alike : Alike later (t :: s) (t :: l)) :
    ∀ (done : List (UnaryOp × Token)) (before before' : List Token), ∃ ops b b' s' l',
      skipPrefixes done before t s = (ops, Cursor.over b s') ∧
        skipPrefixes done before' t l = (ops, Cursor.over b' l') ∧ Alike later s' l' := by
  induction s generalizing t l with
  | nil =>
      intro done before before'
      have isEnd : t.kind = .eof :=
        Decidable.byContradiction fun inside => (alike.tail inside).ne_nil.1 rfl
      refine ⟨done, before, before', [t], t :: l, rfl, ?_, alike⟩
      cases l with
      | nil => rfl
      | cons next l => simp [skipPrefixes, UnaryOp.ofKind?, isEnd, Cursor.over]
  | cons next s ih =>
      intro done before before'
      cases found : UnaryOp.ofKind? t.kind with
      | none =>
          refine ⟨done, before, before', t :: next :: s, t :: l, ?_, ?_, alike⟩
          · rw [skipPrefixes, found]
            rfl
          · cases l with
            | nil => rfl
            | cons next' l =>
                rw [skipPrefixes, found]
                rfl
      | some op =>
          have goesOn : GoesOn t.kind := by
            constructor <;> intro same <;> simp [UnaryOp.ofKind?, same] at found
          have others := alike.rest goesOn
          obtain ⟨u, s', l', same, rfl⟩ := others.heads
          cases same
          obtain ⟨ops, b, b', s', l', short, long, related⟩ :=
            ih others ((op, t) :: done) (t :: before) (t :: before')
          refine ⟨ops, b, b', s', l', ?_, ?_, related⟩
          · rw [skipPrefixes, found]
            exact short
          · rw [skipPrefixes, found]
            exact long

theorem prefixes_inStep (alike : Alike later s l) :
    InStep later prefixes prefixes s l (Alike later) := by
  intro before before' c c'
  obtain ⟨t, s, l, rfl, rfl⟩ := alike.heads
  obtain ⟨ops, b, b', s', l', short, long, related⟩ := skipPrefixes_alike alike [] before before'
  simp only [prefixes, Cursor.over, short, long]
  exact .gives ops b b' #[] related

/-- What the rules of expressions do over texts that are alike, at some depths. -/
structure ExpressionsInStep (later : List Token) (d d' : Nat) : Prop where
  expression : ∀ {s l}, Alike later s l →
    InStep later (expression d) (expression d') s l (Alike later)
  chain : ∀ {s l}, Alike later s l → InStep later (chain d) (chain d') s l (Alike later)
  links : ∀ {s l} done, Alike later s l →
    InStep later (links d done) (links d' done) s l (Alike later)
  operand : ∀ {s l}, Alike later s l → InStep later (operand d) (operand d') s l (Alike later)
  calls : ∀ {s l} callee, Alike later s l →
    InStep later (calls d callee) (calls d' callee) s l (Alike later)
  arguments : ∀ {s l} done, Alike later s l →
    InStep later (arguments d done) (arguments d' done) s l (Alike later)
  primary : ∀ {s l}, Alike later s l → InStep later (primary d) (primary d') s l (Alike later)

section Deeper

variable {d d' : Nat} (deeper : ExpressionsInStep later d d')

include deeper

theorem expression_inStep (alike : Alike later s l) :
    InStep later (expression (d + 1)) (expression (d' + 1)) s l (Alike later) := by
  unfold expression
  refine InStep.bindKeeping ?_ (deeper.chain alike) ?_
  · intro target
    refine .after fun found => ?_
    split
    · refine .after fun equals => .after fun value => ?_
      split <;> infer_instance
    · infer_instance
  intro target s' l' related
  refine InStep.check related (fun assigns => ?_) (inStep_pure related)
  obtain ⟨t, s', l', rfl, rfl⟩ := related.heads
  have goesOn : GoesOn t.kind := assigns t rfl ▸ by decide
  refine InStep.advance related goesOn fun others => ?_
  refine InStep.bindKeeping ?_ (deeper.expression others) ?_
  · intro value
    split <;> infer_instance
  intro value s'' l'' behind
  cases target with
  | «variable» name => exact inStep_pure behind
  | _ => exact InStep.report (inStep_pure behind)

theorem chain_inStep (alike : Alike later s l) :
    InStep later (chain (d + 1)) (chain (d' + 1)) s l (Alike later) := by
  unfold chain
  refine (deeper.operand alike).bind fun first s' l' related => ?_
  exact (deeper.links #[] related).bind fun links s'' l'' behind => inStep_pure behind

theorem links_inStep (done : Array Chain.Link) (alike : Alike later s l) :
    InStep later (links (d + 1) done) (links (d' + 1) done) s l (Alike later) := by
  obtain ⟨t, s, l, rfl, rfl⟩ := alike.heads
  unfold links
  refine InStep.current ?_
  cases found : InfixOp.ofKind? t.kind with
  | none => exact inStep_pure alike
  | some op =>
      have goesOn : GoesOn t.kind := by
        constructor <;> intro same <;> simp [InfixOp.ofKind?, same] at found
      refine InStep.advance alike goesOn fun others => ?_
      exact (deeper.operand others).bind fun right s' l' related => deeper.links _ related

theorem operand_inStep (alike : Alike later s l) :
    InStep later (operand (d + 1)) (operand (d' + 1)) s l (Alike later) := by
  unfold operand
  refine (prefixes_inStep alike).bind fun ops s' l' related => ?_
  refine (deeper.primary related).bind fun callee s'' l'' behind => ?_
  exact (deeper.calls callee behind).bind fun called _ _ ends => inStep_pure ends

theorem calls_inStep (callee : Expr) (alike : Alike later s l) :
    InStep later (calls (d + 1) callee) (calls (d' + 1) callee) s l (Alike later) := by
  unfold calls
  refine InStep.eat alike (by decide) (fun s' l' others => ?_) (inStep_pure alike)
  have closes : ∀ {s' l'} args, Alike later s' l' → InStep later
      (do
        let paren ← expect (.symbol .rightParen) .parenAfterArguments
        calls d (.call callee paren args))
      (do
        let paren ← expect (.symbol .rightParen) .parenAfterArguments
        calls d' (.call callee paren args)) s' l' (Alike later) := by
    intro s' l' args related
    exact InStep.expect related (by decide) fun paren _ _ behind => deeper.calls _ behind
  refine InStep.check others (fun _ => ?_) ?_
  · exact closes [] others
  · exact (deeper.arguments #[] others).bind fun args _ _ related => closes args related

theorem arguments_inStep (done : Array Expr) (alike : Alike later s l) :
    InStep later (arguments (d + 1) done) (arguments (d' + 1) done) s l (Alike later) := by
  have reads : InStep later
      (do
        let arg ← expression d
        if ← eat (.symbol .comma) then arguments d (done.push arg)
        else pure (done.push arg).toList)
      (do
        let arg ← expression d'
        if ← eat (.symbol .comma) then arguments d' (done.push arg)
        else pure (done.push arg).toList) s l (Alike later) := by
    refine (deeper.expression alike).bind fun arg s' l' related => ?_
    refine InStep.eat related (by decide) (fun _ _ behind => ?_) (inStep_pure related)
    exact deeper.arguments _ behind
  unfold arguments
  split
  · obtain ⟨t, s, l, rfl, rfl⟩ := alike.heads
    exact InStep.current (InStep.report reads)
  · exact reads

theorem primary_inStep (alike : Alike later s l) :
    InStep later (primary (d + 1)) (primary (d' + 1)) s l (Alike later) := by
  obtain ⟨t, s, l, rfl, rfl⟩ := alike.heads
  unfold primary
  refine InStep.current ?_
  cases found : literalOf? t with
  | some literal =>
      have goesOn : GoesOn t.kind := by
        constructor <;> intro same <;> simp [literalOf?, same] at found
      exact InStep.advance alike goesOn inStep_pure
  | none =>
      simp only
      split
      · rename_i named
        exact InStep.advance alike (named ▸ by decide) inStep_pure
      · rename_i opens
        refine InStep.advance alike (opens ▸ by decide) fun others => ?_
        refine (deeper.expression others).bind fun inner s' l' related => ?_
        exact InStep.expect related (by decide) fun paren _ _ behind => inStep_pure behind
      · exact inStep_fail alike

end Deeper

theorem expressions_inStep {d d' : Nat} (deeper : d ≤ d') : ExpressionsInStep later d d' := by
  induction d generalizing d' with
  | zero =>
      constructor
      · intro s l alike
        unfold expression
        exact inStep_tooDeep
      · intro s l alike
        unfold chain
        exact inStep_tooDeep
      · intro s l done alike
        unfold links
        exact inStep_tooDeep
      · intro s l alike
        unfold operand
        exact inStep_tooDeep
      · intro s l callee alike
        unfold calls
        exact inStep_tooDeep
      · intro s l done alike
        unfold arguments
        exact inStep_tooDeep
      · intro s l alike
        unfold primary
        exact inStep_tooDeep
  | succ d ih =>
      cases d' with
      | zero => cases deeper
      | succ d' =>
          have inner := ih (Nat.le_of_succ_le_succ deeper)
          exact
            { expression := expression_inStep inner
              chain := chain_inStep inner
              links := links_inStep inner
              operand := operand_inStep inner
              calls := calls_inStep inner
              arguments := arguments_inStep inner
              primary := primary_inStep inner }

theorem expression_alike {d d' : Nat} (deeper : d ≤ d') (alike : Alike later s l) :
    InStep later (expression d) (expression d') s l (Alike later) :=
  (expressions_inStep deeper).expression alike

theorem primary_balks (depth : Nat) : Balks (primary depth) := by
  cases depth with
  | zero =>
      unfold primary
      exact balks_tooDeep
  | succ depth =>
      unfold primary
      refine Balks.look (fun _ _ _ _ => rfl) fun stop isEnd => ?_
      have none : literalOf? stop = none := by simp [literalOf?, isEnd]
      simp only [none, isEnd]
      exact balks_fail

theorem expression_balks (depth : Nat) : Balks (expression depth) := by
  have operands : ∀ depth, Balks (operand depth) := by
    intro depth
    cases depth with
    | zero =>
        unfold operand
        exact balks_tooDeep
    | succ depth =>
        unfold operand
        exact Balks.look (fun _ _ _ _ => rfl) fun _ _ => (primary_balks depth).bind
  have chains : ∀ depth, Balks (chain depth) := by
    intro depth
    cases depth with
    | zero =>
        unfold chain
        exact balks_tooDeep
    | succ depth =>
        unfold chain
        exact (operands depth).bind
  cases depth with
  | zero =>
      unfold expression
      exact balks_tooDeep
  | succ depth =>
      unfold expression
      exact (chains depth).bind

end Jess.Parser
