import Jess.Parser.Statement
import Jess.Proofs.Grammar

/-!
# The tables of the grammar and of the parser

The grammar lists the operators of each level and spells out the trees of
operations and of loops with clauses. The parser looks an operator up by its
kind, goes by ranks, and has a function for each of the trees. Both come to the
same.
-/

namespace Jess.Grammar

open Token (Kind)

namespace Level

def rank : Level → Nat
  | assignment => 0
  | or => 1
  | and => 2
  | equality => 3
  | comparison => 4
  | additive => 5
  | multiplicative => 6
  | unary => 7
  | call => 8
  | primary => 9

theorem rank_tighter (level : Level) (notLast : level.rank < 9) :
    level.tighter.rank = level.rank + 1 := by
  cases level <;> first | rfl | exact absurd notLast (by decide)

theorem rank_inj {a b : Level} (same : a.rank = b.rank) : a = b := by
  cases a <;> cases b <;> first | rfl | exact absurd same (by decide)

theorem rank_le_nine (level : Level) : level.rank ≤ 9 := by
  cases level <;> decide

theorem weaken {P : Level → Prop} (step : ∀ level : Level, P level.tighter → P level)
    {level : Level} (holds : P level) (weaker : Level) (below : weaker.rank ≤ level.rank) :
    P weaker := by
  obtain ⟨gap, total⟩ : ∃ gap, weaker.rank + gap = level.rank := ⟨_, Nat.add_sub_cancel' below⟩
  induction gap generalizing weaker with
  | zero =>
      have same : weaker = level := rank_inj total
      exact same ▸ holds
  | succ gap ih =>
      have bound := rank_le_nine level
      have next := rank_tighter weaker (by omega)
      exact step weaker (ih weaker.tighter (by omega) (by omega))

theorem mem_binaryOperators_iff (level : Level) (kind : Kind) (op : BinaryOp) :
    (kind, op) ∈ level.binaryOperators ↔
      InfixOp.ofKind? kind = some (.binary op) ∧ (InfixOp.binary op).rank = level.rank := by
  constructor
  · have stand : ∀ entry ∈ level.binaryOperators, InfixOp.ofKind? entry.1 = some (.binary entry.2) ∧
        (InfixOp.binary entry.2).rank = level.rank := by
      cases level <;> simp [binaryOperators, InfixOp.ofKind?, InfixOp.rank, rank]
    exact stand (kind, op)
  · rintro ⟨stands, ranked⟩
    cases kind with
    | symbol s => cases s <;> cases stands <;> cases level <;> cases ranked <;> decide
    | keyword w => cases w <;> cases stands
    | _ => cases stands

theorem mem_logicalOperators_iff (level : Level) (kind : Kind) (op : LogicalOp) :
    (kind, op) ∈ level.logicalOperators ↔
      InfixOp.ofKind? kind = some (.logical op) ∧ (InfixOp.logical op).rank = level.rank := by
  constructor
  · have stand : ∀ entry ∈ level.logicalOperators,
        InfixOp.ofKind? entry.1 = some (.logical entry.2) ∧
          (InfixOp.logical entry.2).rank = level.rank := by
      cases level <;> simp [logicalOperators, InfixOp.ofKind?, InfixOp.rank, rank]
    exact stand (kind, op)
  · rintro ⟨stands, ranked⟩
    cases kind with
    | symbol s => cases s <;> cases stands
    | keyword w => cases w <;> cases stands <;> cases level <;> cases ranked <;> decide
    | _ => cases stands

theorem mem_infixes_iff (level : Level) (kind : Kind) :
    kind ∈ level.infixes ↔ ∃ op, InfixOp.ofKind? kind = some op ∧ op.rank = level.rank := by
  constructor
  · intro listed
    obtain binary | logical := List.mem_append.mp listed
    · obtain ⟨⟨_, op⟩, member, rfl⟩ := List.mem_map.mp binary
      exact ⟨.binary op, (mem_binaryOperators_iff level _ op).mp member⟩
    · obtain ⟨⟨_, op⟩, member, rfl⟩ := List.mem_map.mp logical
      exact ⟨.logical op, (mem_logicalOperators_iff level _ op).mp member⟩
  · rintro ⟨op | op, stands⟩
    · have member := (mem_binaryOperators_iff level kind op).mpr stands
      exact List.mem_append_left _ (List.mem_map.mpr ⟨_, member, rfl⟩)
    · have member := (mem_logicalOperators_iff level kind op).mpr stands
      exact List.mem_append_right _ (List.mem_map.mpr ⟨_, member, rfl⟩)

end Level

/-- The tree of an operation is what its operator makes of its operands. -/
theorem operation_iff {operator : Token} {left right e : Expr} {level : Level} :
    Operation operator left right level e ↔
      ∃ op, InfixOp.ofKind? operator.kind = some op ∧ op.rank = level.rank ∧
        e = op.apply operator left right := by
  constructor
  · rintro (listed | listed)
    · obtain ⟨stands, ranked⟩ := (Level.mem_binaryOperators_iff _ _ _).mp listed
      exact ⟨_, stands, ranked, rfl⟩
    · obtain ⟨stands, ranked⟩ := (Level.mem_logicalOperators_iff _ _ _).mp listed
      exact ⟨_, stands, ranked, rfl⟩
  · rintro ⟨op | op, stands, ranked, rfl⟩
    · exact .binary ((Level.mem_binaryOperators_iff _ _ _).mpr ⟨stands, ranked⟩)
    · exact .logical ((Level.mem_logicalOperators_iff _ _ _).mpr ⟨stands, ranked⟩)

theorem mem_unaryOperators_iff (kind : Kind) (op : UnaryOp) :
    (kind, op) ∈ unaryOperators ↔ UnaryOp.ofKind? kind = some op := by
  constructor
  · intro listed
    simp only [unaryOperators, List.mem_cons, List.not_mem_nil, Prod.mk.injEq, or_false] at listed
    rcases listed with ⟨rfl, rfl⟩ | ⟨rfl, rfl⟩ <;> rfl
  · intro stands
    cases kind with
    | symbol s => cases s <;> simp_all [UnaryOp.ofKind?, unaryOperators]
    | _ => simp [UnaryOp.ofKind?] at stands

theorem rank_pos (op : InfixOp) : 0 < op.rank := by
  rcases op with op | op <;> cases op <;> decide

theorem rank_le (op : InfixOp) : op.rank ≤ 6 := by
  rcases op with op | op <;> cases op <;> decide

theorem exists_level_of_rank (op : InfixOp) :
    ∃ level : Level, level.rank = op.rank ∧ level.tighter.rank = op.rank + 1 := by
  rcases op with op | op
  · cases op
    case add => exact ⟨.additive, rfl, rfl⟩
    case sub => exact ⟨.additive, rfl, rfl⟩
    case mul => exact ⟨.multiplicative, rfl, rfl⟩
    case div => exact ⟨.multiplicative, rfl, rfl⟩
    case eq => exact ⟨.equality, rfl, rfl⟩
    case notEq => exact ⟨.equality, rfl, rfl⟩
    all_goals exact ⟨.comparison, rfl, rfl⟩
  · cases op
    · exact ⟨.and, rfl, rfl⟩
    · exact ⟨.or, rfl, rfl⟩

/-- The tree of a loop with clauses is the one that the parser builds. -/
theorem isLoop_iff {initializer : Option Stmt} {condition increment : Option Expr}
    {body s : Stmt} :
    IsLoop initializer condition increment body s ↔
      s = Parser.desugarFor initializer condition increment body := by
  constructor
  · intro tree
    induction tree with
    | endless => rfl
    | tested => rfl
    | stepped _ ih => exact ih
    | started _ ih => exact congrArg (fun s => Stmt.block [_, s]) ih
  · rintro rfl
    have bare (body : Stmt) :
        IsLoop none condition none body (Parser.desugarFor none condition none body) := by
      cases condition with
      | none => exact .endless
      | some condition => exact .tested
    have repeats :
        IsLoop none condition increment body (Parser.desugarFor none condition increment body) := by
      cases increment with
      | none => exact bare body
      | some increment => exact .stepped (bare _)
    cases initializer with
    | none => exact repeats
    | some first => exact .started repeats

end Jess.Grammar
