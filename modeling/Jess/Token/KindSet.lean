import Jess.Token.Kind

/-!
Sets of kinds of tokens, one bit for each kind.
-/

namespace Jess.Token

structure KindSet where
  bits : BitVec 40
deriving DecidableEq

namespace KindSet

def empty : KindSet := ⟨0⟩

def contains (set : KindSet) (k : Kind) : Bool := set.bits.getLsbD k.index

def insert (set : KindSet) (k : Kind) : KindSet := ⟨set.bits ||| BitVec.twoPow 40 k.index⟩

def ofList (kinds : List Kind) : KindSet := kinds.foldl insert empty

def toList (set : KindSet) : List Kind := Kind.all.filter set.contains

def isEmpty (set : KindSet) : Bool := set.bits == 0

@[simp] theorem contains_empty (k : Kind) : empty.contains k = false := by
  simp [contains, empty]

@[simp] theorem contains_insert (set : KindSet) (j k : Kind) :
    (set.insert j).contains k = (set.contains k || decide (k = j)) := by
  have small := k.index_le
  simp only [Kind.maxIndex] at small
  have inside : k.index < 40 := by omega
  by_cases same : k = j
  · subst same
    simp [contains, insert, inside]
  · have apart : j.index ≠ k.index := fun h => same (Kind.index_inj h).symm
    simp [contains, insert, same, apart]

theorem contains_foldl_insert (set : KindSet) (kinds : List Kind) (k : Kind) :
    (kinds.foldl insert set).contains k = (set.contains k || decide (k ∈ kinds)) := by
  induction kinds generalizing set with
  | nil => simp
  | cons j rest ih =>
      rw [List.foldl_cons, ih, contains_insert]
      simp [Bool.or_assoc]

@[simp] theorem contains_ofList (kinds : List Kind) (k : Kind) :
    (ofList kinds).contains k = decide (k ∈ kinds) := by
  rw [ofList, contains_foldl_insert]
  simp

/-- The kinds that begin a statement. Two of them have no statement of their own, but
they too end a stretch of skipped tokens. -/
def statementStart : KindSet :=
  ofList [.keyword .kwClass, .keyword .kwFunc, .keyword .kwVar, .keyword .kwLet, .keyword .kwFor,
    .keyword .kwIf, .keyword .kwWhile, .keyword .kwPrint, .keyword .kwReturn]

theorem contains_statementStart {k : Kind} :
    statementStart.contains k = true ↔
      k ∈ [Kind.keyword .kwClass, .keyword .kwFunc, .keyword .kwVar, .keyword .kwLet,
        .keyword .kwFor, .keyword .kwIf, .keyword .kwWhile, .keyword .kwPrint,
        .keyword .kwReturn] := by
  rw [statementStart, contains_ofList, decide_eq_true_eq]

end KindSet

end Jess.Token
