import Jess.Proofs.LenientGrammar
import Jess.Proofs.Precedence

/-!
# Equations of the lenient grammar

Each language of the grammar is put together from others the way a parser that
goes from left to right reads it: a chain of operands instead of levels, a
sequence of argument lists instead of nested calls, and alternatives that their
first kind tells apart.
-/

namespace Jess.Grammar.Lenient

open Token (Kind)
open scoped Computability

theorem mem_just_mul {kind : Kind} {A : Language Kind} {word : List Kind} :
    word ∈ just kind * A ↔ ∃ rest ∈ A, word = kind :: rest := by
  rw [Language.mem_mul]
  constructor
  · rintro ⟨_, rfl, rest, member, rfl⟩
    exact ⟨rest, member, rfl⟩
  · rintro ⟨rest, member, rfl⟩
    exact ⟨_, rfl, rest, member, rfl⟩

theorem cons_mem_just_mul {first kind : Kind} {A : Language Kind} {word : List Kind} :
    first :: word ∈ just kind * A ↔ first = kind ∧ word ∈ A := by
  rw [mem_just_mul]
  constructor
  · rintro ⟨rest, member, same⟩
    cases same
    exact ⟨rfl, member⟩
  · rintro ⟨rfl, member⟩
    exact ⟨word, member, rfl⟩

theorem cons_mem {kind : Kind} {A : Language Kind} {word : List Kind} (member : word ∈ A) :
    kind :: word ∈ just kind * A := ⟨[kind], rfl, word, member, rfl⟩

theorem mem_mul_just {kind : Kind} {A : Language Kind} {word : List Kind} :
    word ∈ A * just kind ↔ ∃ front ∈ A, word = front ++ [kind] := by
  rw [Language.mem_mul]
  constructor
  · rintro ⟨front, member, _, rfl, rfl⟩
    exact ⟨front, member, rfl⟩
  · rintro ⟨front, member, rfl⟩
    exact ⟨front, member, _, rfl, rfl⟩

def oneOf (Among : Kind → Prop) : Language Kind := { word | ∃ kind, Among kind ∧ word = [kind] }

abbrev infixes : Language Kind := oneOf fun kind => ∃ op, InfixOp.ofKind? kind = some op

abbrev prefixOps : Language Kind := oneOf fun kind => ∃ op, UnaryOp.ofKind? kind = some op

abbrev literals : Language Kind := oneOf (· ∈ constants)

abbrev operands : Language Kind := spelled (.expression .unary)

def linked : Language Kind := (infixes * operands)∗

def applied : Language Kind :=
  (just (.symbol .leftParen) * (spelled .arguments * just (.symbol .rightParen)))∗

theorem Derives.loosen {level : Level} {word : List Kind}
    (derived : Derives (.expression level) word) (weaker : Level)
    (below : weaker.rank ≤ level.rank) : Derives (.expression weaker) word :=
  Level.weaken (P := fun level => Derives (.expression level) word) (fun _ => .tighter) derived
    weaker below

/-- An operator with its operand goes behind whatever binds no more strongly: it becomes a part
of the last operand that does. -/
theorem Derives.operate {operator : Kind} {op : InfixOp} {back : List Kind}
    (stands : InfixOp.ofKind? operator = some op) (operand : Derives (.expression .unary) back)
    (gap : Nat) : ∀ {level : Level} {front : List Kind}, level.rank + gap = op.rank →
      0 < level.rank → Derives (.expression level) front →
      Derives (.expression level) (front ++ operator :: back) := by
  have small := rank_le op
  induction gap with
  | zero =>
      intro level front total _ derived
      have listed := (Level.mem_infixes_iff level operator).mpr ⟨op, stands, total.symm⟩
      have next := Level.rank_tighter level (by omega)
      have weaker : level.tighter.rank ≤ Level.unary.rank := by
        change level.tighter.rank ≤ 7
        omega
      exact .operation derived listed (operand.loosen _ weaker)
  | succ gap ih =>
      intro level front total positive derived
      have next := Level.rank_tighter level (by omega)
      cases derived with
      | operation first listed second =>
          have deeper := ih (by omega) (by omega) second
          simpa using Derives.operation first listed deeper
      | tighter inner => exact .tighter (ih (by omega) (by omega) inner)
      | literal | named | grouping | call | unary | assign =>
          simp only [Level.rank] at total positive
          omega

theorem operands_le_chain : operands ≤ operands * linked := fun word member =>
  ⟨word, member, [], Language.nil_mem_kstar _, List.append_nil word⟩

theorem chain_mul_chain :
    operands * linked * (infixes * (operands * linked)) ≤ operands * linked :=
  calc operands * linked * (infixes * (operands * linked))
      = operands * (linked * (infixes * operands * linked)) := by simp only [mul_assoc]
    _ ≤ operands * (linked * linked) :=
        mul_le_mul_right (mul_le_mul_right mul_kstar_le_kstar _) _
    _ = operands * linked := by rw [linked, kstar_mul_kstar]

theorem level_le_chain {phrase : Phrase} {word : List Kind} (derived : Derives phrase word) :
    ∀ level, phrase = .expression level → 0 < level.rank → level.rank ≤ 7 →
      word ∈ operands * linked := by
  induction derived with
  | @operation level operator front back first listed second ihFirst ihSecond =>
      intro level' same positive bound
      cases same
      obtain ⟨op, stands, ranked⟩ := (Level.mem_infixes_iff _ _).mp listed
      have atMost := rank_le op
      have next := Level.rank_tighter level (by omega)
      have left := ihFirst level rfl positive bound
      have right := ihSecond level.tighter rfl (by omega) (by omega)
      have operated : [operator] ∈ infixes := ⟨operator, ⟨op, stands⟩, rfl⟩
      exact chain_mul_chain
        (Language.append_mem_mul left (Language.append_mem_mul operated right))
  | @tighter level word inner ih =>
      intro level' same positive bound
      cases same
      by_cases operand : level = .unary
      · subst operand
        exact operands_le_chain (Derives.tighter inner)
      · have small : level.rank ≠ 7 := fun same => operand (Level.rank_inj same)
        have next := Level.rank_tighter level (by omega)
        exact ih level.tighter rfl (by omega) (by omega)
  | unary listed operand _ =>
      intro level same _ _
      exact operands_le_chain (Derives.unary listed operand)
  | literal | named | grouping | call | assign =>
      intro level same positive bound
      cases same
      simp [Level.rank] at positive bound
  | noArguments | someArguments | lastItem | moreItems =>
      intro level same
      cases same

/-- The words of the levels of operators are chains of operands. -/
theorem or_eq : spelled (.expression .or) = operands * linked := by
  apply le_antisymm
  · intro word derived
    exact level_le_chain derived .or rfl (by decide) (by decide)
  · apply mul_kstar_le
    · intro word derived
      exact Derives.loosen derived .or (by decide)
    · rintro _ ⟨front, derived, _, ⟨_, ⟨operator, ⟨op, stands⟩, rfl⟩, back, operand, rfl⟩, rfl⟩
      have positive := rank_pos op
      exact Derives.operate stands operand (op.rank - 1) (by simp only [Level.rank]; omega)
        (by decide) derived

theorem assignment_eq :
    expressions = spelled (.expression .or) * (1 + just (.symbol .equal) * expressions) := by
  rw [mul_add, mul_one]
  ext word
  constructor
  · intro derived
    cases derived with
    | assign target value => exact .inr (Language.append_mem_mul target (cons_mem value))
    | tighter inner => exact .inl inner
    | operation _ listed _ => cases listed
  · rintro (inner | ⟨front, target, _, assigned, rfl⟩)
    · exact Derives.tighter inner
    · obtain ⟨back, value, rfl⟩ := mem_just_mul.mp assigned
      exact Derives.assign target value

theorem operands_eq : operands = prefixOps∗ * spelled (.expression .call) := by
  apply le_antisymm
  · intro word derived
    change Derives (.expression .unary) word at derived
    generalize same : Phrase.expression .unary = phrase at derived
    induction derived with
    | @unary operator op word listed operand ih =>
        have operated : [operator] ∈ prefixOps :=
          ⟨operator, ⟨op, (mem_unaryOperators_iff _ _).mp listed⟩, rfl⟩
        have longer : prefixOps * (prefixOps∗ * spelled (.expression .call)) ≤
            prefixOps∗ * spelled (.expression .call) := by
          rw [← mul_assoc]
          exact mul_le_mul_left mul_kstar_le_kstar _
        exact longer (Language.append_mem_mul operated (ih rfl))
    | @tighter level word inner _ =>
        cases same
        exact ⟨[], Language.nil_mem_kstar _, word, inner, rfl⟩
    | operation _ listed _ =>
        cases same
        cases listed
    | literal | named | grouping | call | assign | noArguments | someArguments | lastItem
      | moreItems => cases same
  · apply kstar_mul_le
    · intro word derived
      exact Derives.tighter derived
    · rintro _ ⟨_, ⟨operator, ⟨op, stands⟩, rfl⟩, word, operand, rfl⟩
      exact Derives.unary ((mem_unaryOperators_iff _ _).mpr stands) operand

theorem call_eq : spelled (.expression .call) = spelled (.expression .primary) * applied := by
  apply le_antisymm
  · intro word derived
    generalize same : Phrase.expression .call = phrase at derived
    induction derived with
    | @call front word called given ih _ =>
        have list : .symbol .leftParen :: (word ++ [.symbol .rightParen]) ∈
            just (.symbol .leftParen) * (spelled .arguments * just (.symbol .rightParen)) :=
          mem_just_mul.mpr ⟨_, mem_mul_just.mpr ⟨word, given, rfl⟩, rfl⟩
        have longer : spelled (.expression .primary) * applied *
            (just (.symbol .leftParen) * (spelled .arguments * just (.symbol .rightParen))) ≤
            spelled (.expression .primary) * applied := by
          rw [mul_assoc]
          exact mul_le_mul_right kstar_mul_le_kstar _
        simpa using longer (Language.append_mem_mul (ih rfl) list)
    | @tighter level word inner _ =>
        cases same
        exact ⟨word, inner, [], Language.nil_mem_kstar _, List.append_nil word⟩
    | operation _ listed _ =>
        cases same
        cases listed
    | literal | named | grouping | unary | assign | noArguments | someArguments | lastItem
      | moreItems => cases same
  · apply mul_kstar_le
    · intro word derived
      exact Derives.tighter derived
    · rintro _ ⟨front, called, _, list, rfl⟩
      obtain ⟨_, closed, rfl⟩ := mem_just_mul.mp list
      obtain ⟨word, given, rfl⟩ := mem_mul_just.mp closed
      have whole := Derives.call called given
      rw [List.append_assoc] at whole
      exact whole

theorem primary_eq : spelled (.expression .primary) =
    literals + just .identifier +
      just (.symbol .leftParen) * (expressions * just (.symbol .rightParen)) := by
  apply le_antisymm
  · intro word derived
    generalize same : Phrase.expression .primary = phrase at derived
    induction derived with
    | literal listed => exact .inl (.inl ⟨_, listed, rfl⟩)
    | named => exact .inl (.inr rfl)
    | @grouping word inner _ =>
        exact .inr (mem_just_mul.mpr ⟨_, mem_mul_just.mpr ⟨word, inner, rfl⟩, rfl⟩)
    | tighter _ ih =>
        cases same
        exact ih rfl
    | operation _ listed _ =>
        cases same
        cases listed
    | call | unary | assign | noArguments | someArguments | lastItem | moreItems => cases same
  · rintro word ((⟨kind, listed, rfl⟩ | rfl) | grouped)
    · exact Derives.literal listed
    · exact Derives.named
    · obtain ⟨_, closed, rfl⟩ := mem_just_mul.mp grouped
      obtain ⟨word, inner, rfl⟩ := mem_mul_just.mp closed
      exact Derives.grouping inner

theorem arguments_eq : spelled .arguments = 1 + spelled .items := by
  ext word
  constructor
  · intro derived
    cases derived with
    | noArguments => exact .inl rfl
    | someArguments given => exact .inr given
  · rintro (rfl | given)
    · exact Derives.noArguments
    · exact Derives.someArguments given

theorem items_eq :
    spelled .items = expressions * (1 + just (.symbol .comma) * spelled .items) := by
  rw [mul_add, mul_one]
  ext word
  constructor
  · intro derived
    cases derived with
    | lastItem item => exact .inl item
    | moreItems item others => exact .inr (Language.append_mem_mul item (cons_mem others))
  · rintro (item | ⟨front, item, _, more, rfl⟩)
    · exact Derives.lastItem item
    · obtain ⟨rest, others, rfl⟩ := mem_just_mul.mp more
      exact Derives.moreItems item others

theorem names_eq : names = just .identifier * (1 + just (.symbol .comma) * names) := by
  rw [names, ← mul_assoc (just _), Language.one_add_self_mul_kstar_eq_kstar]

abbrev statements : Language Kind := formed .statement

abbrev bodies : Language Kind := formed .declarations

def guarded (A : Language Kind) : Language Kind :=
  just (.symbol .leftParen) * (expressions * (just (.symbol .rightParen) * A))

def looped : Language Kind :=
  just (.symbol .leftParen) * (initializers * (clauses * (just (.symbol .semicolon) *
    (clauses * (just (.symbol .rightParen) * statements)))))

def functions : Language Kind :=
  just .identifier * (just (.symbol .leftParen) * (parameters * (just (.symbol .rightParen) *
    (just (.symbol .leftBrace) * (bodies * just (.symbol .rightBrace))))))

def alternatives : Language Kind := 1 + just (.keyword .kwElse) * statements

/-- A statement by its first token. -/
theorem statements_eq : statements =
    just (.keyword .kwFor) * looped +
    just (.keyword .kwIf) * guarded (statements * alternatives) +
    just (.keyword .kwPrint) * (expressions * just (.symbol .semicolon)) +
    just (.keyword .kwReturn) * (clauses * just (.symbol .semicolon)) +
    just (.keyword .kwWhile) * guarded statements +
    just (.symbol .leftBrace) * (bodies * just (.symbol .rightBrace)) +
    expressions * just (.symbol .semicolon) := by
  -- The rules and the alternatives are listed in different orders.
  apply le_antisymm
  · intro word derived
    cases derived with
    | expression value => exact .inr (mem_mul_just.mpr ⟨_, value, rfl⟩)
    | block inner => exact .inl (.inr (cons_mem (mem_mul_just.mpr ⟨_, inner, rfl⟩)))
    | loop test repeated =>
        refine .inl (.inl (.inr (cons_mem (cons_mem ?_))))
        exact Language.append_mem_mul test (cons_mem repeated)
    | giveBack =>
        exact .inl (.inl (.inl (.inr (cons_mem (mem_mul_just.mpr ⟨[], .inl rfl, rfl⟩)))))
    | giveBackValue value =>
        exact .inl (.inl (.inl (.inr (cons_mem (mem_mul_just.mpr ⟨_, .inr value, rfl⟩)))))
    | print value =>
        exact .inl (.inl (.inl (.inl (.inr (cons_mem (mem_mul_just.mpr ⟨_, value, rfl⟩))))))
    | @ifThen tested word test first =>
        refine .inl (.inl (.inl (.inl (.inl (.inr (cons_mem (cons_mem ?_)))))))
        exact Language.append_mem_mul test (cons_mem ⟨word, first, [], .inl rfl, List.append_nil _⟩)
    | @ifElse tested word rest test first second =>
        refine .inl (.inl (.inl (.inl (.inl (.inr ?_)))))
        rw [List.append_assoc]
        refine cons_mem (cons_mem ?_)
        exact Language.append_mem_mul test
          (cons_mem (Language.append_mem_mul first (.inr (cons_mem second))))
    | loopWithClauses start test step repeated =>
        refine .inl (.inl (.inl (.inl (.inl (.inl ?_)))))
        simp only [List.append_assoc, List.cons_append]
        refine cons_mem (cons_mem ?_)
        exact Language.append_mem_mul start (Language.append_mem_mul test
          (cons_mem (Language.append_mem_mul step (cons_mem repeated))))
  · rintro word ((((((loop | conditional) | prints) | returns) | loop) | block) | simple)
    · obtain ⟨_, behind, rfl⟩ := mem_just_mul.mp loop
      obtain ⟨_, within, rfl⟩ := mem_just_mul.mp behind
      obtain ⟨started, start, _, ⟨tested, test, _, later, rfl⟩, rfl⟩ := within
      obtain ⟨_, ⟨stepped, step, _, last, rfl⟩, rfl⟩ := mem_just_mul.mp later
      obtain ⟨word, repeated, rfl⟩ := mem_just_mul.mp last
      have whole := Forms.loopWithClauses start test step repeated
      simp only [List.append_assoc, List.cons_append] at whole
      exact whole
    · obtain ⟨_, behind, rfl⟩ := mem_just_mul.mp conditional
      obtain ⟨_, ⟨tested, test, _, later, rfl⟩, rfl⟩ := mem_just_mul.mp behind
      obtain ⟨word, branches, rfl⟩ := mem_just_mul.mp later
      rw [alternatives, mul_add, mul_one] at branches
      rcases branches with first | ⟨front, first, _, other, rfl⟩
      · exact Forms.ifThen test first
      · obtain ⟨back, second, rfl⟩ := mem_just_mul.mp other
        have whole := Forms.ifElse test first second
        rw [List.append_assoc] at whole
        exact whole
    · obtain ⟨_, closed, rfl⟩ := mem_just_mul.mp prints
      obtain ⟨word, value, rfl⟩ := mem_mul_just.mp closed
      exact Forms.print value
    · obtain ⟨_, closed, rfl⟩ := mem_just_mul.mp returns
      obtain ⟨word, rfl | value, rfl⟩ := mem_mul_just.mp closed
      · exact Forms.giveBack
      · exact Forms.giveBackValue value
    · obtain ⟨_, behind, rfl⟩ := mem_just_mul.mp loop
      obtain ⟨_, ⟨tested, test, _, later, rfl⟩, rfl⟩ := mem_just_mul.mp behind
      obtain ⟨word, repeated, rfl⟩ := mem_just_mul.mp later
      exact Forms.loop test repeated
    · obtain ⟨_, closed, rfl⟩ := mem_just_mul.mp block
      obtain ⟨word, inner, rfl⟩ := mem_mul_just.mp closed
      exact Forms.block inner
    · obtain ⟨word, value, rfl⟩ := mem_mul_just.mp simple
      exact Forms.expression value

theorem declaration_eq : formed .declaration =
    just (.keyword .kwFunc) * functions + just (.keyword .kwVar) * bindings + statements := by
  apply le_antisymm
  · intro word derived
    cases derived with
    | statement inner => exact .inr inner
    | declared inner => exact .inl (.inr (cons_mem inner))
    | function params inner =>
        refine .inl (.inl ?_)
        simp only [List.append_assoc, List.cons_append]
        refine cons_mem (cons_mem (cons_mem ?_))
        exact Language.append_mem_mul params
          (cons_mem (cons_mem (mem_mul_just.mpr ⟨_, inner, rfl⟩)))
  · rintro word ((function | declared) | inner)
    · obtain ⟨_, named, rfl⟩ := mem_just_mul.mp function
      obtain ⟨_, opened, rfl⟩ := mem_just_mul.mp named
      obtain ⟨_, ⟨listed, params, _, closed, rfl⟩, rfl⟩ := mem_just_mul.mp opened
      obtain ⟨_, braced, rfl⟩ := mem_just_mul.mp closed
      obtain ⟨_, body, rfl⟩ := mem_just_mul.mp braced
      obtain ⟨word, inner, rfl⟩ := mem_mul_just.mp body
      have whole := Forms.function params inner
      simp only [List.append_assoc, List.cons_append] at whole
      exact whole
    · obtain ⟨word, inner, rfl⟩ := mem_just_mul.mp declared
      exact Forms.declared inner
    · exact Forms.statement inner

theorem bodies_eq : bodies = 1 + formed .declaration * bodies := by
  ext word
  constructor
  · intro derived
    cases derived with
    | noDeclarations => exact .inl rfl
    | moreDeclarations first others => exact .inr (Language.append_mem_mul first others)
  · rintro (rfl | ⟨front, first, back, others, rfl⟩)
    · exact Forms.noDeclarations
    · exact Forms.moreDeclarations first others

end Jess.Grammar.Lenient
