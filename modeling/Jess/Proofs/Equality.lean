import Jess.Value.Operator
import Mathlib

/-!
# Equality of values

The equality that programs see is symmetric and transitive, and a value equals
itself unless it is the number that is not one. Values of two types are never
equal. Callable values are equal just if they have the same identity. The two
operators of equality give its answer and the opposite of it, for all operands.
-/

namespace Jess

namespace Value

/-- What sets a callable value apart from the others. -/
def identity? : Value → Option Nat
  | .callable identity _ => some identity
  | _ => none

theorem equals_comm (u v : Value) : u.equals v = v.equals u := by
  cases u <;> cases v <;> first
    | exact BEq.comm
    | rfl

theorem equals_trans {u v w : Value} (first : u.equals v = true) (second : v.equals w = true) :
    u.equals w = true := by
  -- Two values are equal within one type only, and there equality is that of the contents.
  cases u <;> cases v <;> first
    | exact absurd first Bool.false_ne_true
    | cases w <;> first
      | exact absurd second Bool.false_ne_true
      | exact PartialEquivBEq.trans first second
      | exact second

theorem equals_self_iff (v : Value) :
    v.equals v = true ↔ ∀ x, v = .number x → x.isNaN = false := by
  cases v with
  | number x =>
      have regular : x.isNaN = false ↔ (x == x) = true := by
        rw [Float.isNaN_eq_decide_eq_nan, decide_eq_false_iff_not]
        exact Float.beq_self_iff.symm
      constructor
      · rintro same _ ⟨⟩
        exact regular.mpr same
      · exact fun isNumber => regular.mp (isNumber x rfl)
  | _ => simp [equals]

theorem type_eq_of_equals {u v : Value} (same : u.equals v = true) : u.type = v.type := by
  cases u <;> cases v <;> first
    | rfl
    | exact absurd same Bool.false_ne_true

theorem type_of_identity {v : Value} {identity : Nat} (callable : v.identity? = some identity) :
    v.type = .function := by
  cases v <;> first
    | rfl
    | cases callable

theorem exists_identity {v : Value} (function : v.type = .function) :
    ∃ identity, v.identity? = some identity := by
  cases v with
  | callable identity c => exact ⟨identity, rfl⟩
  | _ => cases function

theorem equals_iff_identity {u v : Value} {first second : Nat} (one : u.identity? = some first)
    (other : v.identity? = some second) : u.equals v = true ↔ first = second := by
  cases u <;> cases one
  cases v <;> cases other
  exact beq_iff_eq

end Value

/-- What programs may rely on when they compare values. -/
structure Value.Comparable : Prop where
  /-- Both operators give a boolean for all operands. -/
  eq : ∀ u v : Value, BinaryOp.eq.apply u v = .ok (.boolean (u.equals v))
  notEq : ∀ u v : Value, BinaryOp.notEq.apply u v = .ok (.boolean (!u.equals v))
  symm : ∀ u v : Value, u.equals v = true → v.equals u = true
  trans : ∀ u v w : Value, u.equals v = true → v.equals w = true → u.equals w = true
  refl : ∀ v : Value, v.equals v = true ↔ ∀ x, v = .number x → x.isNaN = false
  apart : ∀ u v : Value, u.type ≠ v.type → u.equals v = false

theorem Value.comparable : Value.Comparable where
  eq _ _ := rfl
  notEq _ _ := rfl
  symm u v same := (equals_comm v u).trans same
  trans _ _ _ := equals_trans
  refl := equals_self_iff
  apart _ _ other := Bool.eq_false_iff.mpr fun same => other (type_eq_of_equals same)

end Jess
