import Jess.Number.Layout
import Jess.Proofs.Decimal
import Jess.Proofs.Double
import Mathlib.Algebra.Order.Field.Rat
import Mathlib.Data.Nat.Cast.Order.Field
import Mathlib.Tactic.FieldSimp
import Mathlib.Tactic.Linarith
import Mathlib.Tactic.LinearCombination
import Mathlib.Tactic.Positivity

/-!
# Rounding to the nearest number

In units of the least positive number every finite number is a whole number, and
codes count these upward. The numbers from a power of two on are the multiples
of one step, and all smaller numbers lie below that power. So a quotient that is
rounded to a whole number of its own steps is rounded to the nearest number, and
a code is even if the number of steps is. A quotient is too large exactly from
halfway between the largest finite number and the power of two behind it.
-/

namespace Jess.Binary

open Float.Model (Format UnpackedFloat)
open Float.Model.UnpackedFloat (unpack)

/-- The finite number of a code, in units of the least positive number. -/
def units (code : Nat) : Nat := significand code * 2 ^ shift code

theorem units_of_steps (doublings count : Nat) (small : count ≤ 2 * binade)
    (normal : doublings = 0 ∨ binade ≤ count) :
    units (doublings * binade + count) = count * 2 ^ doublings := by
  by_cases carry : count = 2 * binade
  · have shiftEq : shift (doublings * binade + count) = doublings + 1 := by
      simp only [shift, carry, binade]
      omega
    have rest : significand (doublings * binade + count) = binade := by
      rw [significand, shiftEq, carry]
      simp only [binade]
      omega
    rw [units, shiftEq, rest, carry, Nat.pow_succ]
    ring
  · have shiftEq : shift (doublings * binade + count) = doublings := by
      simp only [shift, binade] at small normal carry ⊢
      omega
    have rest : significand (doublings * binade + count) = count := by
      rw [significand, shiftEq, Nat.add_sub_cancel_left]
    rw [units, shiftEq, rest]

theorem units_strictMono : StrictMono units := by
  apply strictMono_nat_of_lt_succ
  intro code
  have below := significand_lt code
  have normal := shift_eq_zero_or code
  have next := units_of_steps (shift code) (significand code + 1) (by omega) (by omega)
  rw [← Nat.add_assoc, shift_significand] at next
  rw [next, units]
  exact Nat.mul_lt_mul_of_pos_right (Nat.lt_succ_self _) (Nat.two_pow_pos _)

theorem even_code_iff (code : Nat) : Even (significand code) ↔ Even code := by
  have evenBinade : Even binade := by decide
  have split := shift_significand code
  conv_rhs => rw [← split]
  rw [Nat.even_add]
  simp [evenBinade]

/-- A whole number that is nearest to a rational one, and even if another one is as near. -/
structure IsHalfEven (v : ℚ) (count : Nat) : Prop where
  near : |v - count| ≤ 1 / 2
  even : |v - count| = 1 / 2 → Even count

theorem halfEven_within (num den : Nat) (positive : 0 < den) :
    2 * (den * halfEven num den) ≤ 2 * num + den ∧
      2 * num ≤ 2 * (den * halfEven num den) + den ∧
      (2 * (den * halfEven num den) = 2 * num + den ∨
        2 * num = 2 * (den * halfEven num den) + den → Even (halfEven num den)) := by
  have split := Nat.div_add_mod num den
  have bound := Nat.mod_lt num positive
  simp only [halfEven]
  split
  · refine ⟨by omega, by omega, fun tie => ?_⟩
    omega
  · split
    · rw [Nat.mul_add, Nat.mul_one]
      refine ⟨by omega, by omega, fun tie => ?_⟩
      omega
    · have parity : num / den % 2 = 0 ∨ num / den % 2 = 1 := by omega
      rcases parity with even | odd
      · rw [even, Nat.add_zero]
        exact ⟨by omega, by omega, fun _ => Nat.even_iff.mpr even⟩
      · rw [odd, Nat.mul_add, Nat.mul_one]
        exact ⟨by omega, by omega, fun _ => Nat.even_iff.mpr (by omega)⟩

theorem halfEven_isHalfEven (num den : Nat) (positive : 0 < den) :
    IsHalfEven (num / den) (halfEven num den) := by
  obtain ⟨lower, upper, even⟩ := halfEven_within num den positive
  generalize halfEven num den = count at lower upper even ⊢
  have denPositive : (0 : ℚ) < den := by exact_mod_cast positive
  have lowerCast : (2 : ℚ) * (den * count) ≤ 2 * num + den := by exact_mod_cast lower
  have upperCast : (2 : ℚ) * num ≤ 2 * (den * count) + den := by exact_mod_cast upper
  have scaled : (num : ℚ) / den * den = num := div_mul_cancel₀ _ denPositive.ne'
  generalize (num : ℚ) / den = v at scaled ⊢
  refine ⟨?_, fun tie => ?_⟩
  · rw [abs_le]
    constructor <;> nlinarith
  · apply even
    rcases (abs_eq (by norm_num)).mp tie with above | below
    · right
      have exact_ : (2 : ℚ) * num = 2 * (den * count) + den := by
        rw [← scaled]
        linear_combination 2 * den * above
      exact_mod_cast exact_
    · left
      have exact_ : (2 : ℚ) * (den * count) = 2 * num + den := by
        rw [← scaled]
        linear_combination -2 * den * below
      exact_mod_cast exact_

namespace IsHalfEven

variable {v : ℚ} {count : Nat}

theorem nearest (rounded : IsHalfEven v count) {other : Nat} (differs : other ≠ count) :
    |v - count| ≤ |v - other| ∧ (|v - count| = |v - other| → Even count) := by
  have apart : (1 : ℚ) ≤ |(other : ℚ) - count| := by
    have whole : (1 : ℤ) ≤ |(other : ℤ) - count| := by
      apply Int.one_le_abs
      omega
    exact_mod_cast whole
  have near := rounded.near
  have triangle := abs_sub_le (other : ℚ) v count
  rw [abs_sub_comm (other : ℚ) v] at triangle
  refine ⟨by linarith, fun tie => rounded.even ?_⟩
  linarith

theorem le_of_lt (rounded : IsHalfEven v count) {bound : Nat} (below : v < bound) :
    count ≤ bound := by
  have near := (abs_le.mp rounded.near).1
  have cast : (count : ℚ) < (bound + 1 : Nat) := by
    push_cast
    linarith
  have whole : count < bound + 1 := by exact_mod_cast cast
  omega

theorem le_of_le (rounded : IsHalfEven v count) {bound : Nat} (above : bound ≤ v) :
    bound ≤ count := by
  have near := (abs_le.mp rounded.near).2
  have cast : (bound : ℚ) < (count + 1 : Nat) := by
    push_cast
    linarith
  have whole : bound < count + 1 := by exact_mod_cast cast
  omega

end IsHalfEven

/-- A code whose number of units is nearest to a rational number, and even if another one is as
near. Codes past the finite ones take part, as if there were no largest number. -/
structure IsNearest (v : ℚ) (code : Nat) : Prop where
  near : ∀ other, |v - units code| ≤ |v - units other|
  even : ∀ other, other ≠ code → |v - units code| = |v - units other| → Even code

/-- A number is a whole number of steps, or it lies below the power of two at which these steps
begin. -/
theorem units_grid (code doublings : Nat) :
    (∃ steps, units code = steps * 2 ^ doublings) ∨
      (doublings ≠ 0 ∧ units code < binade * 2 ^ doublings) := by
  rcases Nat.lt_or_ge (shift code) doublings with finer | coarser
  · refine .inr ⟨by omega, ?_⟩
    have power : 2 ^ (shift code + 1) ≤ 2 ^ doublings := Nat.pow_le_pow_right (by omega) finer
    calc units code < 2 * binade * 2 ^ shift code :=
          Nat.mul_lt_mul_of_pos_right (significand_lt code) (Nat.two_pow_pos _)
      _ = binade * 2 ^ (shift code + 1) := by ring
      _ ≤ binade * 2 ^ doublings := Nat.mul_le_mul_left _ power
  · refine .inl ⟨significand code * 2 ^ (shift code - doublings), ?_⟩
    rw [units, Nat.mul_assoc, ← Nat.pow_add, Nat.sub_add_cancel coarser]

section Steps

variable {v : ℚ} {doublings count : Nat}

theorem IsHalfEven.nearest_steps (rounded : IsHalfEven (v / 2 ^ doublings) count) (steps : Nat) :
    |v - (count * 2 ^ doublings : Nat)| ≤ |v - (steps * 2 ^ doublings : Nat)| ∧
      (steps ≠ count →
        |v - (count * 2 ^ doublings : Nat)| = |v - (steps * 2 ^ doublings : Nat)| →
        Even count) := by
  have step : (0 : ℚ) < 2 ^ doublings := by positivity
  have scaled : ∀ n : Nat,
      |v - (n * 2 ^ doublings : Nat)| = |v / 2 ^ doublings - n| * 2 ^ doublings := by
    intro n
    have split : v - (n * 2 ^ doublings : Nat) = (v / 2 ^ doublings - n) * 2 ^ doublings := by
      rw [sub_mul, div_mul_cancel₀ _ step.ne']
      push_cast
      rfl
    rw [split, abs_mul, abs_of_pos step]
  rw [scaled, scaled]
  constructor
  · by_cases same : steps = count
    · rw [same]
    · exact mul_le_mul_of_nonneg_right (rounded.nearest same).1 step.le
  · intro differs tie
    exact (rounded.nearest differs).2 (mul_right_cancel₀ step.ne' tie)

theorem isNearest_of_steps (rounded : IsHalfEven (v / 2 ^ doublings) count)
    (lower : doublings = 0 ∨ (binade : ℚ) ≤ v / 2 ^ doublings)
    (upper : v / 2 ^ doublings < (2 * binade : Nat)) :
    IsNearest v (doublings * binade + count) := by
  have small : count ≤ 2 * binade := rounded.le_of_lt upper
  have normal : doublings = 0 ∨ binade ≤ count := lower.imp_right rounded.le_of_le
  have own := units_of_steps doublings count small normal
  have evenCode : Even count → Even (doublings * binade + count) := fun even =>
    (Nat.even_mul.mpr (.inr (by decide))).add even
  -- A number of finer steps is farther away than the power of two at which the steps begin.
  have farther : ∀ other, doublings ≠ 0 → units other < binade * 2 ^ doublings →
      |v - units (doublings * binade + count)| < |v - units other| := by
    intro other some_ below
    have step : (0 : ℚ) < 2 ^ doublings := by positivity
    have atLeast : ((binade * 2 ^ doublings : Nat) : ℚ) ≤ v := by
      push_cast
      exact (le_div_iff₀ step).mp (lower.resolve_left some_)
    have belowCast : (units other : ℚ) < (binade * 2 ^ doublings : Nat) := by exact_mod_cast below
    have first := (rounded.nearest_steps binade).1
    rw [abs_of_nonneg (sub_nonneg.mpr atLeast)] at first
    rw [own, abs_of_pos (by linarith : 0 < v - units other)]
    linarith
  refine ⟨fun other => ?_, fun other differs tie => evenCode ?_⟩
  · rcases units_grid other doublings with ⟨steps, same⟩ | ⟨some_, below⟩
    · rw [own, same]
      exact (rounded.nearest_steps steps).1
    · exact (farther other some_ below).le
  · rcases units_grid other doublings with ⟨steps, same⟩ | ⟨some_, below⟩
    · rw [own, same] at tie
      refine (rounded.nearest_steps steps).2 ?_ tie
      rintro rfl
      exact differs (units_strictMono.injective (same.trans own.symm))
    · exact absurd tie (farther other some_ below).ne

end Steps

section Largest

variable {v : ℚ} {code : Nat}

theorem exists_largest : ∃ power : ℚ, 2 ^ 2044 = power ∧ 0 < power ∧
    (units (infinityCode - 1) : ℚ) = (4 * binade - 2) * power ∧
    (units infinityCode : ℚ) = 4 * binade * power := by
  obtain ⟨top, same⟩ : ∃ top, top = 2044 := ⟨_, rfl⟩
  have below := units_of_steps (top + 1) (2 * binade - 1) (Nat.sub_le _ _) (.inr (by decide))
  have behind := units_of_steps (top + 1) (2 * binade) (Nat.le_refl _) (.inr (by decide))
  have left : (top + 1) * binade + (2 * binade - 1) = infinityCode - 1 := by
    rw [same]
    decide
  have right : (top + 1) * binade + 2 * binade = infinityCode := by
    rw [same]
    decide
  rw [left] at below
  rw [right] at behind
  rw [below, behind, ← same, Nat.cast_mul, Nat.cast_sub (by decide)]
  refine ⟨_, rfl, by positivity, ?_, ?_⟩
  · push_cast
    ring
  · push_cast
    ring

theorem IsNearest.infinite_iff (rounded : IsNearest v code) :
    infinityCode ≤ code ↔ (4 * binade - 1) * 2 ^ 2044 ≤ v := by
  obtain ⟨power, same, positive, largest, behind⟩ := exists_largest
  rw [same]
  -- Arithmetic would try to compute the power.
  clear same
  constructor
  · intro large
    by_contra below
    have atLeast : (units infinityCode : ℚ) ≤ units code := by
      exact_mod_cast units_strictMono.monotone large
    have near := rounded.near (infinityCode - 1)
    rw [largest] at near
    rw [behind] at atLeast
    have bound : |v - (4 * binade - 2) * power| < units code - v := by
      rw [abs_lt]
      constructor <;> nlinarith
    have own := neg_abs_le (v - units code)
    linarith
  · intro above
    by_contra small
    have atMost : (units code : ℚ) ≤ units (infinityCode - 1) := by
      exact_mod_cast units_strictMono.monotone (by omega)
    have near := rounded.near infinityCode
    have own := le_abs_self (v - units code)
    have bound : |v - units infinityCode| ≤ v - units (infinityCode - 1) := by
      rw [largest, behind, abs_le]
      constructor <;> nlinarith
    -- Both neighbours are as near, and the finite one is odd.
    have tie : |v - units code| = |v - units infinityCode| := by linarith
    have equal : (units code : ℚ) = units (infinityCode - 1) := by linarith
    have least : code = infinityCode - 1 := units_strictMono.injective (by exact_mod_cast equal)
    have even := rounded.even infinityCode (by omega) tie
    rw [least] at even
    exact absurd even (by decide)

end Largest

theorem steps_of_log2 (quotient : Nat) :
    (Nat.log2 quotient - 52 = 0 ∨ binade * 2 ^ (Nat.log2 quotient - 52) ≤ quotient) ∧
      quotient < 2 * binade * 2 ^ (Nat.log2 quotient - 52) := by
  generalize doublingsEq : Nat.log2 quotient - 52 = doublings
  rw [binade_eq, ← Nat.pow_succ', ← Nat.pow_add, ← Nat.pow_add]
  by_cases zero : quotient = 0
  · subst zero
    refine ⟨.inl ?_, Nat.two_pow_pos _⟩
    rw [← doublingsEq]
    simp
  · refine ⟨?_, (Nat.log2_lt zero).mp (by omega)⟩
    by_cases none : doublings = 0
    · exact .inl none
    · exact .inr ((Nat.le_log2 zero).mp (by omega))

theorem nearest_isNearest (num den : Nat) (positive : 0 < den) :
    ∃ code, nearest num den = min infinityCode code ∧ IsNearest (num / den * 2 ^ 1074) code := by
  obtain ⟨scale, same⟩ : ∃ scale : Nat, 2 ^ 1074 = scale := ⟨_, rfl⟩
  have sameScale : (2 : ℚ) ^ 1074 = scale := by
    rw [← same, Nat.cast_pow, Nat.cast_ofNat]
  have quotient : (num / den * scale : ℚ) = (num * scale : Nat) / den := by
    push_cast
    ring
  refine ⟨_, nearest_of_scale num den scale same, ?_⟩
  rw [sameScale, quotient]
  obtain ⟨lower, upper⟩ := steps_of_log2 (num * scale / den)
  generalize Nat.log2 (num * scale / den) - 52 = doublings at lower upper ⊢
  have step : (0 : ℚ) < 2 ^ doublings := by positivity
  have denPositive : (0 : ℚ) < den := by exact_mod_cast positive
  have rounded : IsHalfEven ((num * scale : Nat) / den / 2 ^ doublings)
      (halfEven (num * scale) (den * 2 ^ doublings)) := by
    have whole := halfEven_isHalfEven (num * scale) (den * 2 ^ doublings)
      (Nat.mul_pos positive (Nat.two_pow_pos _))
    rwa [Nat.cast_mul den, Nat.cast_pow, Nat.cast_ofNat, ← div_div] at whole
  apply isNearest_of_steps rounded
  · apply lower.imp_right
    intro least
    have whole := (Nat.le_div_iff_mul_le positive).mp least
    rw [le_div_iff₀ step, le_div_iff₀ denPositive]
    exact_mod_cast whole
  · have whole := (Nat.div_lt_iff_lt_mul positive).mp upper
    rw [div_lt_iff₀ step, div_lt_iff₀ denPositive]
    exact_mod_cast whole

section Value

/-- The rational number of the parts of a number. What is infinite or no number has none, and counts
as zero. -/
def valueOf : UnpackedFloat → ℚ
  | .finite .positive mantissa exponent _ => mantissa * 2 ^ exponent
  | .finite .negative mantissa exponent _ => -(mantissa * 2 ^ exponent)
  | _ => 0

/-- The rational number that a finite number is. -/
def value (x : Float) : ℚ := valueOf x.toModel.unpack

theorem units_of_fields (exponent mantissa : Nat) (small : mantissa < 2 ^ 52) :
    units (exponent * 2 ^ 52 + mantissa) =
      if exponent = 0 then mantissa else (2 ^ 52 + mantissa) * 2 ^ (exponent - 1) := by
  rw [← binade_eq] at small ⊢
  split
  · rename_i zero
    have least := units_of_steps 0 mantissa (by omega) (.inl rfl)
    rw [zero, least, Nat.pow_zero, Nat.mul_one]
  · rename_i positive
    have steps := units_of_steps (exponent - 1) (binade + mantissa) (by omega) (.inr (by omega))
    have carried : (exponent - 1) * binade + (binade + mantissa) =
        exponent * binade + mantissa := by
      rw [← Nat.add_assoc, ← Nat.succ_mul, Nat.succ_eq_add_one, Nat.sub_add_cancel (by omega)]
    rw [← steps, carried]

theorem steps_eq_units {places : Nat} (same : places = 1074) (count doublings : Nat) {exponent : ℤ}
    (place : exponent = doublings - 1074) :
    (count : ℚ) * 2 ^ exponent = (count * 2 ^ doublings : Nat) / 2 ^ places := by
  have split : exponent = doublings - places := by omega
  rw [split, zpow_sub₀ two_ne_zero, zpow_natCast, zpow_natCast, Nat.cast_mul, Nat.cast_pow,
    Nat.cast_ofNat, mul_div_assoc]

theorem value_of_code {places : Nat} (same : places = 1074) {x : Float}
    (finite : code x < infinityCode) :
    value x = if isNegative x = true then -(units (code x) / 2 ^ places : ℚ)
      else units (code x) / 2 ^ places := by
  obtain ⟨sign, exponent, mantissa, bits, _⟩ := fields x
  have mantissaBound : mantissa.toNat < 2 ^ 52 := mantissa.isLt
  have codeEq := code_of_fields x sign exponent mantissa bits
  have signEq := isNegative_of_fields x sign exponent mantissa bits
  have unpacked : x.toModel.unpack = unpack Format.binary64 (word sign exponent mantissa) :=
    congrArg (unpack Format.binary64) bits
  have noTop : exponent ≠ -1#11 := by
    intro top
    rw [codeEq, (top_iff exponent).mp top, infinityCode, binade_eq] at finite
    omega
  have unitsEq := units_of_fields exponent.toNat mantissa.toNat mantissaBound
  rw [← codeEq] at unitsEq
  have finish : ∀ (count : Nat) (exponent : ℤ) (positive : 0 < count),
      (count : ℚ) * 2 ^ exponent = units (code x) / 2 ^ places →
      valueOf (.finite sign count exponent positive) = if isNegative x = true then
        -(units (code x) / 2 ^ places : ℚ) else units (code x) / 2 ^ places := by
    intro count exponent positive magnitude
    cases sign with
    | positive =>
        rw [if_neg (by simp [signEq]), ← magnitude]
        rfl
    | negative =>
        rw [if_pos (signEq.mpr rfl), ← magnitude]
        rfl
  rw [value, unpacked, unpack_word, if_neg noTop]
  by_cases least : exponent = 0#11
  · have none : exponent.toNat = 0 := by
      rw [least]
      rfl
    rw [if_pos none] at unitsEq
    rw [if_pos least]
    by_cases zero : mantissa = 0#52
    · have nothing : units (code x) = 0 := by
        rw [unitsEq, zero]
        rfl
      rw [dif_pos zero, nothing, Nat.cast_zero, zero_div, neg_zero, ite_self]
      rfl
    · rw [dif_neg zero]
      apply finish
      have steps := steps_eq_units same mantissa.toNat 0
        (show (exponent.toNat : Int) - 1075 + 1 = (0 : Nat) - 1074 by omega)
      rw [steps, unitsEq, Nat.pow_zero, Nat.mul_one]
  · have some_ : exponent.toNat ≠ 0 := fun none => least (BitVec.eq_of_toNat_eq none)
    rw [if_neg some_] at unitsEq
    rw [if_neg least]
    apply finish
    have steps := steps_eq_units same (2 ^ 52 + mantissa.toNat) (exponent.toNat - 1)
      (show (exponent.toNat : Int) - 1075 = (exponent.toNat - 1 : Nat) - 1074 by omega)
    rw [implicit_bit, steps, unitsEq]

end Value

/-- Halfway from the largest finite number to the power of two behind it. -/
def overflow : ℚ := (2 ^ 54 - 1) * 2 ^ 970

/-- What a rational number without a sign is rounded to: the nearest of all finite numbers, and of
two that are equally near the one with an even significand. From `overflow` on it is infinity. -/
structure Rounds (v : ℚ) (x : Float) : Prop where
  known : x.isNaN = false
  unsigned : isNegative x = false
  finite_iff : x.isFinite = true ↔ v < overflow
  nearest : x.isFinite = true → ∀ y : Float, y.isFinite = true → |v - value x| ≤ |v - value y|
  even : x.isFinite = true → ∀ y : Float, y.isFinite = true → value y ≠ value x →
    |v - value x| = |v - value y| → Even (significand (code x))

section Rounds

variable {v : ℚ} {rounded : Nat}

theorem overflow_le_iff : overflow ≤ v ↔ (4 * binade - 1) * 2 ^ 2044 ≤ v * 2 ^ 1074 := by
  obtain ⟨low, sameLow⟩ : ∃ low, low = 970 := ⟨_, rfl⟩
  obtain ⟨places, same⟩ : ∃ places, places = 1074 := ⟨_, rfl⟩
  have total : 2044 = low + places := by omega
  have bound : (4 * binade - 1 : ℚ) = 2 ^ 54 - 1 := by
    rw [binade]
    norm_num
  have positive : (0 : ℚ) < 2 ^ places := by positivity
  rw [overflow, ← sameLow, ← same, total, bound, pow_add, ← mul_assoc]
  exact (mul_le_mul_iff_of_pos_right positive).symm

theorem abs_sub_div {places : Nat} (v : ℚ) (count : Nat) :
    |v - count / 2 ^ places| = |v * 2 ^ places - count| / 2 ^ places := by
  have positive : (0 : ℚ) < 2 ^ places := by positivity
  rw [eq_div_iff positive.ne']
  nth_rewrite 2 [← abs_of_pos positive]
  rw [← abs_mul, sub_mul, div_mul_cancel₀ _ positive.ne']

theorem exists_unsigned {places : Nat} (same : places = 1074) (nonneg : 0 ≤ v) {y : Float}
    (finite : y.isFinite = true) :
    ∃ other, |v - units other / 2 ^ places| ≤ |v - value y| ∧
      (|v - units other / 2 ^ places| = |v - value y| → value y = units other / 2 ^ places) := by
  have valued := value_of_code same ((status_of_code y).1.mp finite)
  cases signed : isNegative y with
  | false =>
      rw [signed, if_neg Bool.false_ne_true] at valued
      rw [valued]
      exact ⟨code y, le_rfl, fun _ => rfl⟩
  | true =>
      rw [signed, if_pos rfl] at valued
      have magnitude : (0 : ℚ) ≤ units (code y) / 2 ^ places := by positivity
      have zero : (units 0 : ℚ) / 2 ^ places = 0 := by
        rw [show units 0 = 0 by decide, Nat.cast_zero, zero_div]
      refine ⟨0, ?_⟩
      rw [valued, zero, sub_zero, sub_neg_eq_add, abs_of_nonneg nonneg,
        abs_of_nonneg (add_nonneg nonneg magnitude)]
      exact ⟨by linarith, fun tie => by linarith⟩

theorem ofCode_rounds (nonneg : 0 ≤ v) (nearest : IsNearest (v * 2 ^ 1074) rounded) :
    Rounds v (ofCode (min infinityCode rounded)) := by
  have small : min infinityCode rounded ≤ infinityCode := Nat.min_le_left _ _
  have codeEq := code_ofCode _ small
  have unsigned := isNegative_ofCode _ small
  generalize ofCode (min infinityCode rounded) = x at codeEq unsigned ⊢
  obtain ⟨finiteIff, _, unknownIff⟩ := status_of_code x
  have overflows := nearest.infinite_iff
  rw [← overflow_le_iff] at overflows
  obtain ⟨places, same⟩ : ∃ places, places = 1074 := ⟨_, rfl⟩
  rw [← same] at nearest
  have positive : (0 : ℚ) < 2 ^ places := by positivity
  have own : x.isFinite = true → code x = rounded ∧ value x = units rounded / 2 ^ places := by
    intro finite
    have below := finiteIff.mp finite
    have capped : code x = rounded := by omega
    have valued := value_of_code same below
    rw [unsigned, if_neg Bool.false_ne_true, capped] at valued
    exact ⟨capped, valued⟩
  have near : ∀ other, |v - units rounded / 2 ^ places| ≤ |v - units other / 2 ^ places| := by
    intro other
    rw [abs_sub_div, abs_sub_div]
    exact div_le_div_of_nonneg_right (nearest.near other) positive.le
  refine ⟨?_, unsigned, ?_, fun finite y finite' => ?_, fun finite y finite' differs tie => ?_⟩
  · rw [Bool.eq_false_iff]
    intro unknown
    have past := unknownIff.mp unknown
    omega
  · have smaller : code x < infinityCode ↔ ¬infinityCode ≤ rounded := by omega
    rw [finiteIff, smaller, overflows, not_le]
  · rw [(own finite).2]
    obtain ⟨other, atMost, _⟩ := exists_unsigned same nonneg finite'
    exact (near other).trans atMost
  · obtain ⟨capped, valued⟩ := own finite
    obtain ⟨other, atMost, exact_⟩ := exists_unsigned same nonneg finite'
    rw [valued] at tie differs
    have between := near other
    have equal := exact_ (le_antisymm atMost (by linarith))
    rw [equal] at tie differs
    rw [capped, even_code_iff]
    rw [abs_sub_div, abs_sub_div] at tie
    apply nearest.even other
    · rintro rfl
      exact differs rfl
    · exact (div_left_inj' positive.ne').mp tie

theorem abs_sub_lt_of_between {a b c : ℚ} (below : a < b) (above : b < c)
    (tie : |v - a| = |v - c|) : |v - b| < |v - a| := by
  have middle : v - a = c - v := by
    rcases abs_eq_abs.mp tie with same | opposite
    · linarith
    · linarith
  have positive : 0 < v - a := by linarith
  rw [abs_of_pos positive, abs_lt]
  constructor <;> linarith

theorem Rounds.code_le_infinity {x : Float} (rounds : Rounds v x) : code x ≤ infinityCode := by
  have unknown := (status_of_code x).2.2
  rw [rounds.known] at unknown
  exact Nat.le_of_not_lt fun past => Bool.false_ne_true (unknown.mpr past)

theorem Rounds.code_le {x y : Float} (first : Rounds v x) (second : Rounds v y) :
    code y ≤ code x := by
  by_contra smaller
  have known := second.code_le_infinity
  have finite : x.isFinite = true := (status_of_code x).1.mpr (by omega)
  have finite' : y.isFinite = true := second.finite_iff.mpr (first.finite_iff.mp finite)
  have bound := (status_of_code y).1.mp finite'
  obtain ⟨places, same⟩ : ∃ places, places = 1074 := ⟨_, rfl⟩
  have valued : ∀ z : Float, code z < infinityCode → isNegative z = false →
      value z = units (code z) / 2 ^ places := by
    intro z below unsigned
    rw [value_of_code same below, unsigned, if_neg Bool.false_ne_true]
  have valueX := valued x (by omega) first.unsigned
  have valueY := valued y bound second.unsigned
  have ordered : ∀ a b : Nat, a < b → (units a : ℚ) / 2 ^ places < units b / 2 ^ places := by
    intro a b less
    apply div_lt_div_of_pos_right _ (by positivity)
    exact_mod_cast units_strictMono less
  have apart : value x < value y := by
    rw [valueX, valueY]
    exact ordered _ _ (by omega)
  have tie : |v - value x| = |v - value y| :=
    le_antisymm (first.nearest finite y finite') (second.nearest finite' x finite)
  have evenX := (even_code_iff _).mp (first.even finite y finite' apart.ne' tie)
  have evenY := (even_code_iff _).mp (second.even finite' x finite apart.ne tie.symm)
  -- Two even codes have another one between them.
  have between : code x + 1 < code y := by
    rw [Nat.even_iff] at evenX evenY
    omega
  let z := ofCode (code x + 1)
  have codeZ : code z = code x + 1 := code_ofCode _ (by omega)
  have finiteZ : z.isFinite = true := (status_of_code z).1.mpr (by omega)
  have valueZ := valued z (by omega) (isNegative_ofCode _ (by omega))
  have nearer : |v - value z| < |v - value x| := by
    apply abs_sub_lt_of_between _ _ tie
    · rw [valueX, valueZ]
      exact ordered _ _ (by omega)
    · rw [valueY, valueZ]
      exact ordered _ _ (by omega)
  exact absurd (first.nearest finite z finiteZ) (not_le.mpr nearer)

/-- A rational number is rounded to one number only. -/
theorem Rounds.unique {x y : Float} (first : Rounds v x) (second : Rounds v y) : x = y := by
  have codes : code x = code y := Nat.le_antisymm (second.code_le first) (first.code_le second)
  rw [← ofCode_code x first.code_le_infinity first.unsigned, codes,
    ofCode_code y second.code_le_infinity second.unsigned]

end Rounds

theorem read_rounds (digits places : Nat) :
    Rounds (digits / 10 ^ places) (Number.read digits places) := by
  have whole : 0 ≤ -(places : Int) + places := by omega
  have codeEq := Decimal.code_eq_nearest digits (-places) places whole
  rw [Int.add_left_neg, Int.toNat_zero, Nat.pow_zero, Nat.mul_one] at codeEq
  obtain ⟨rounded, nearestEq, nearest⟩ :=
    nearest_isNearest digits (10 ^ places) (Nat.pow_pos (by omega))
  rw [nearestEq] at codeEq
  rw [Nat.cast_pow, Nat.cast_ofNat] at nearest
  rw [Number.read, codeEq]
  exact ofCode_rounds (by positivity) nearest

end Jess.Binary
