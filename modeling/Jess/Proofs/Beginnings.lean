import Jess.Proofs.LenientLanguages
import Jess.Proofs.StatementReading

/-!
# How the words of the lenient grammar begin

Every language of the grammar has words, and the kinds that begin them are few.
Where a language may be left out, what comes behind it begins the rest.
-/

namespace Jess.Grammar.Lenient

open Token (Kind)
open Jess.Parser (BeginsPrimary BeginsExpression BeginsStatement BeginsDeclaration)
open scoped Computability

class Productive (A : Language Kind) : Prop where
  exists_word : ∃ word, word ∈ A

namespace Productive

variable {A B : Language Kind}

instance (kind : Kind) : Productive (just kind) := ⟨_, rfl⟩

instance : Productive 1 := ⟨_, Language.nil_mem_one⟩

instance [first : Productive A] [second : Productive B] : Productive (A * B) where
  exists_word := by
    obtain ⟨front, inFirst⟩ := first.exists_word
    obtain ⟨back, inSecond⟩ := second.exists_word
    exact ⟨front ++ back, Language.append_mem_mul inFirst inSecond⟩

instance [first : Productive A] : Productive (A + B) :=
  ⟨first.exists_word.imp fun _ member => .inl member⟩

instance : Productive A∗ := ⟨_, Language.nil_mem_kstar A⟩

instance (level : Level) : Productive (spelled (.expression level)) :=
  ⟨_, Derives.named.loosen level (by cases level <;> decide)⟩

instance : Productive linked := inferInstanceAs (Productive _∗)

instance : Productive applied := inferInstanceAs (Productive _∗)

instance : Productive parameters := inferInstanceAs (Productive (1 + names))

instance : Productive clauses := inferInstanceAs (Productive (1 + expressions))

instance : Productive initializers := inferInstanceAs (Productive (just _ + _ + _))

instance : Productive statements := by
  rw [statements_eq, add_comm]
  infer_instance

instance : Productive bodies := by
  rw [bodies_eq]
  infer_instance

instance : Productive alternatives := inferInstanceAs (Productive (1 + _))

end Productive

/-- The words of a language that are not empty begin with such kinds only. -/
def Heads (A : Language Kind) (Starts : Kind → Prop) : Prop :=
  ∀ kind rest, kind :: rest ∈ A → Starts kind

/-- No word of a language is empty, and all of them begin with such kinds. -/
structure Begins (A : Language Kind) (Starts : Kind → Prop) : Prop where
  nonempty : [] ∉ A
  heads : Heads A Starts

section

variable {A B K : Language Kind} {Starts Others : Kind → Prop} {kind : Kind} {word : List Kind}

theorem Heads.not_mem (heads : Heads A Starts) (apart : ¬Starts kind) : kind :: word ∉ A :=
  fun member => apart (heads kind word member)

theorem Heads.mono (heads : Heads A Starts) (weaker : ∀ kind, Starts kind → Others kind) :
    Heads A Others := fun kind rest member => weaker kind (heads kind rest member)

theorem Begins.mono (begins : Begins A Starts) (weaker : ∀ kind, Starts kind → Others kind) :
    Begins A Others := ⟨begins.nonempty, begins.heads.mono weaker⟩

theorem Heads.add (first : Heads A Starts) (second : Heads B Starts) : Heads (A + B) Starts :=
  fun kind rest member => member.elim (first kind rest) (second kind rest)

theorem Begins.add (first : Begins A Starts) (second : Begins B Starts) : Begins (A + B) Starts :=
  ⟨fun member => member.elim first.nonempty second.nonempty, first.heads.add second.heads⟩

theorem Begins.mul (begins : Begins A Starts) : Begins (A * B) Starts where
  nonempty := by
    rintro ⟨front, member, back, _, joined⟩
    cases front with
    | nil => exact begins.nonempty member
    | cons _ _ => cases joined
  heads := by
    rintro kind rest ⟨front, member, back, _, joined⟩
    cases front with
    | nil => exact absurd member begins.nonempty
    | cons _ _ =>
        cases joined
        exact begins.heads _ _ member

theorem begins_just (starts : Starts kind) : Begins (just kind) Starts where
  nonempty member := by cases member
  heads _ _ member := by
    cases member
    exact starts

theorem begins_only (kind : Kind) : Begins (just kind) (· = kind) := begins_just rfl

theorem begins_just_mul (starts : Starts kind) : Begins (just kind * A) Starts :=
  (begins_just starts).mul

theorem Heads.optional (behind : Heads K Starts) (begins : Begins A Starts) :
    Heads ((1 + A) * K) Starts := by
  rw [add_mul, one_mul]
  exact behind.add begins.mul.heads

end

theorem linked_eq : linked = 1 + infixes * (operands * linked) := by
  rw [linked, ← mul_assoc, Language.one_add_self_mul_kstar_eq_kstar]

theorem applied_eq : applied =
    1 + just (.symbol .leftParen) *
      (spelled .arguments * (just (.symbol .rightParen) * applied)) := by
  rw [← mul_assoc (spelled _), ← mul_assoc (just (.symbol .leftParen)), applied,
    Language.one_add_self_mul_kstar_eq_kstar]

theorem begins_oneOf (Among : Kind → Prop) : Begins (oneOf Among) Among where
  nonempty := by
    rintro ⟨kind, _, impossible⟩
    cases impossible
  heads := by
    rintro _ _ ⟨kind, among, same⟩
    cases same
    exact among

theorem begins_primary : Begins (spelled (.expression .primary)) BeginsPrimary := by
  rw [primary_eq]
  refine Begins.add (Begins.add ((begins_oneOf _).mono ?_) (begins_just ?_)) (begins_just_mul ?_)
  · intro kind listed
    simp only [constants, List.mem_cons, List.not_mem_nil, or_false] at listed
    obtain rfl | rfl | rfl | rfl | rfl := listed <;> simp [BeginsPrimary]
  · simp [BeginsPrimary]
  · simp [BeginsPrimary]

theorem begins_call : Begins (spelled (.expression .call)) BeginsPrimary := by
  rw [call_eq]
  exact begins_primary.mul

theorem begins_operands : Begins operands BeginsExpression := by
  have unary : ∀ kind, (∃ op, UnaryOp.ofKind? kind = some op) → BeginsExpression kind := by
    rintro kind ⟨op, found⟩
    have listed := (mem_unaryOperators_iff kind op).mpr found
    simp only [unaryOperators, List.mem_cons, List.not_mem_nil, Prod.mk.injEq, or_false] at listed
    exact .inr (listed.imp And.left And.left)
  rw [operands_eq, ← Language.one_add_self_mul_kstar_eq_kstar, add_mul, one_mul]
  exact (begins_call.mono fun _ => .inl).add ((begins_oneOf _).mono unary).mul.mul

theorem begins_or : Begins (spelled (.expression .or)) BeginsExpression := by
  rw [or_eq]
  exact begins_operands.mul

theorem begins_expressions : Begins expressions BeginsExpression := by
  rw [assignment_eq]
  exact begins_or.mul

theorem begins_items : Begins (spelled .items) BeginsExpression := by
  rw [items_eq]
  exact begins_expressions.mul

theorem begins_statements : Begins statements BeginsStatement := by
  have keyword : ∀ {kind : Kind} {A : Language Kind}, kind ∈ [Kind.keyword .kwFor, .keyword .kwIf,
      .keyword .kwPrint, .keyword .kwReturn, .keyword .kwWhile, .symbol .leftBrace] →
      Begins (just kind * A) BeginsStatement := fun listed => begins_just_mul (.inr listed)
  rw [statements_eq]
  refine .add (.add (.add (.add (.add (.add ?_ ?_) ?_) ?_) ?_) ?_)
    (begins_expressions.mul.mono fun _ => .inl)
  all_goals exact keyword (by decide)

/-- What goes on behind the token that tells which statement it is. -/
def behind : Kind → Language Kind
  | .keyword .kwFor => looped
  | .keyword .kwIf => guarded (statements * alternatives)
  | .keyword .kwPrint => expressions * just (.symbol .semicolon)
  | .keyword .kwReturn => clauses * just (.symbol .semicolon)
  | .keyword .kwWhile => guarded statements
  | .symbol .leftBrace => bodies * just (.symbol .rightBrace)
  | _ => 0

theorem just_mul_behind_le (kind : Kind) : just kind * behind kind ≤ statements := by
  refine le_trans ?_ statements_eq.ge
  unfold behind
  split
  · exact fun _ member => .inl (.inl (.inl (.inl (.inl (.inl member)))))
  · exact fun _ member => .inl (.inl (.inl (.inl (.inl (.inr member)))))
  · exact fun _ member => .inl (.inl (.inl (.inl (.inr member))))
  · exact fun _ member => .inl (.inl (.inl (.inr member)))
  · exact fun _ member => .inl (.inl (.inr member))
  · exact fun _ member => .inl (.inr member)
  · rw [mul_zero]
    exact fun _ member => member.elim

/-- The first token of a statement tells how it goes on, or it begins an expression. -/
theorem statements_head {kind : Kind} {word : List Kind} (member : kind :: word ∈ statements) :
    word ∈ behind kind ∨ kind :: word ∈ expressions * just (.symbol .semicolon) := by
  rw [statements_eq] at member
  rcases member with ((((((known | known) | known) | known) | known) | known) | simple)
  case inr => exact .inr simple
  all_goals
    obtain ⟨rfl, rest⟩ := cons_mem_just_mul.mp known
    exact .inl rest

theorem begins_declaration : Begins (formed .declaration) BeginsDeclaration := by
  rw [declaration_eq]
  exact .add (.add (begins_just_mul (.inr (.inl rfl))) (begins_just_mul (.inr (.inr rfl))))
    (begins_statements.mono fun _ => .inl)

theorem Heads.linked {K : Language Kind} {Starts : Kind → Prop} (behind : Heads K Starts)
    (operators : ∀ kind op, InfixOp.ofKind? kind = some op → Starts kind) :
    Heads (linked * K) Starts := by
  rw [linked_eq]
  exact behind.optional ((begins_oneOf _).mono fun kind stands =>
    stands.elim (operators kind)).mul

theorem Heads.bodies {K : Language Kind} {Starts : Kind → Prop} (behind : Heads K Starts)
    (declarations : ∀ kind, BeginsDeclaration kind → Starts kind) : Heads (bodies * K) Starts := by
  rw [bodies_eq]
  exact behind.optional (begins_declaration.mono declarations).mul

end Jess.Grammar.Lenient
