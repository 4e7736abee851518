import Jess.Number.Decimal
import Mathlib.Tactic.Ring

/-!
# The shortest decimal reads back

`Binary.nearest` depends on a quotient only, so a decimal may be written with
any number of trailing zeros. The exact decimal of a finite code is
`significand * 2 ^ shift` units without rest, hence no rounding takes place
when it is read. Every shorter candidate was accepted because it reads back,
and `trim` only moves zeros from the digits to the exponent.
-/

namespace Jess

namespace Binary

theorem halfEven_scale (num den factor : Nat) (positive : 0 < factor) :
    halfEven (factor * num) (factor * den) = halfEven num den := by
  have quotient : factor * num / (factor * den) = num / den :=
    Nat.mul_div_mul_left num den positive
  have rest : factor * num % (factor * den) = factor * (num % den) :=
    Nat.mul_mod_mul_left factor num den
  have below : 2 * (factor * (num % den)) < factor * den ↔ 2 * (num % den) < den := by
    rw [Nat.mul_left_comm]
    exact Nat.mul_lt_mul_left positive
  have above : factor * den < 2 * (factor * (num % den)) ↔ den < 2 * (num % den) := by
    rw [Nat.mul_left_comm 2]
    exact Nat.mul_lt_mul_left positive
  simp only [halfEven, quotient, rest, below, above]

theorem nearest_scale (num den factor : Nat) (positive : 0 < factor) :
    nearest (factor * num) (factor * den) = nearest num den := by
  simp only [nearest]
  rw [Nat.mul_assoc factor num, Nat.mul_div_mul_left _ den positive, Nat.mul_assoc factor den,
    halfEven_scale _ _ factor positive]

theorem halfEven_mul_self (count den : Nat) (positive : 0 < den) :
    halfEven (count * den) den = count := by
  have quotient : count * den / den = count := Nat.mul_div_cancel count positive
  have rest : count * den % den = 0 := Nat.mul_mod_left count den
  simp only [halfEven, quotient, rest]
  rw [if_pos (by omega)]

theorem binade_eq : binade = 2 ^ 52 := by decide

theorem doublings_of_units (count doublings : Nat) (small : count < 2 * binade)
    (normal : doublings = 0 ∨ binade ≤ count) :
    Nat.log2 (count * 2 ^ doublings) - 52 = doublings := by
  rw [binade_eq] at small normal
  by_cases zero : count = 0
  · subst zero
    rcases normal with rfl | impossible
    · simp
    · simp at impossible
  · have nonzero : count * 2 ^ doublings ≠ 0 :=
      Nat.mul_ne_zero zero (Nat.two_pow_pos doublings).ne'
    have upper : Nat.log2 (count * 2 ^ doublings) < 53 + doublings := by
      rw [Nat.log2_lt nonzero, Nat.pow_add]
      exact Nat.mul_lt_mul_of_pos_right (by simpa [Nat.pow_succ] using small)
        (Nat.two_pow_pos doublings)
    rcases normal with rfl | large
    · omega
    · have lower : 52 + doublings ≤ Nat.log2 (count * 2 ^ doublings) := by
        rw [Nat.le_log2 nonzero, Nat.pow_add]
        exact Nat.mul_le_mul_right _ large
      omega

/-- The number of units in one, as a variable, so that the power is not computed. -/
theorem nearest_of_scale (num den scale : Nat) (same : 2 ^ 1074 = scale) :
    nearest num den =
      min infinityCode ((Nat.log2 (num * scale / den) - 52) * binade +
        halfEven (num * scale) (den * 2 ^ (Nat.log2 (num * scale / den) - 52))) := by
  simp only [nearest, Nat.pow_eq, same]

theorem nearest_of_units (num den count doublings : Nat) (positive : 0 < den)
    (units : num * 2 ^ 1074 = count * 2 ^ doublings * den) (small : count < 2 * binade)
    (normal : doublings = 0 ∨ binade ≤ count) :
    nearest num den = min infinityCode (doublings * binade + count) := by
  obtain ⟨scale, same⟩ : ∃ scale, 2 ^ 1074 = scale := ⟨_, rfl⟩
  rw [same] at units
  rw [nearest_of_scale num den scale same]
  have whole : num * scale / den = count * 2 ^ doublings := by
    rw [units]
    exact Nat.mul_div_cancel _ positive
  have steps : num * scale = count * (den * 2 ^ doublings) := by
    rw [units, Nat.mul_assoc, Nat.mul_comm (2 ^ doublings)]
  have scaled : 0 < den * 2 ^ doublings := Nat.mul_pos positive (Nat.two_pow_pos doublings)
  rw [whole, doublings_of_units count doublings small normal, steps,
    halfEven_mul_self count _ scaled]

theorem shift_eq_zero_or (code : Nat) : shift code = 0 ∨ binade ≤ significand code := by
  simp only [shift, significand, binade]
  omega

end Binary

namespace Decimal

/-- Any power of ten that makes the exponent whole may be used to read a decimal. -/
theorem code_eq_nearest (digits : Nat) (exponent : Int) (places : Nat)
    (whole : 0 ≤ exponent + places) :
    code ⟨digits, exponent⟩ =
      Binary.nearest (digits * 10 ^ (exponent + places).toNat) (10 ^ places) := by
  have tens : 0 < 10 ^ places := Nat.pow_pos (by omega)
  by_cases positive : 0 ≤ exponent
  · have split : (exponent + places).toNat = places + exponent.toNat := by omega
    simp only [code, if_pos positive]
    rw [split, Nat.pow_add, Nat.mul_left_comm, Nat.pow_eq]
    have scaled := Binary.nearest_scale (digits * 10 ^ exponent.toNat) 1 _ tens
    rw [Nat.mul_one] at scaled
    exact scaled.symm
  · have split : places = (exponent + places).toNat + (-exponent).toNat := by omega
    have factor : 0 < 10 ^ (exponent + places).toNat := Nat.pow_pos (by omega)
    simp only [code, if_neg positive]
    have scaled := Binary.nearest_scale digits (10 ^ (-exponent).toNat) _ factor
    rw [← Nat.pow_add, ← split, Nat.mul_comm] at scaled
    rw [Nat.pow_eq]
    exact scaled.symm

theorem code_mul_ten_pow (digits zeros : Nat) (exponent : Int) :
    code ⟨digits * 10 ^ zeros, exponent⟩ = code ⟨digits, exponent + zeros⟩ := by
  let places := (-exponent).toNat
  have whole : 0 ≤ exponent + places := by omega
  have wholeAfter : 0 ≤ exponent + zeros + places := by omega
  have split : (exponent + zeros + places).toNat = zeros + (exponent + places).toNat := by omega
  rw [code_eq_nearest _ _ places whole, code_eq_nearest _ _ places wholeAfter, split,
    Nat.pow_add, Nat.mul_assoc]

theorem code_trim (d : Decimal) : d.trim.code = d.code := by
  induction size : d.digits using Nat.strongRecOn generalizing d with
  | ind n ih =>
      rw [trim]
      split
      · rename_i zero
        obtain ⟨positive, divides⟩ := zero
        have shorter : d.digits / 10 < n := by omega
        rw [ih _ shorter _ rfl]
        have back := code_mul_ten_pow (d.digits / 10) 1 d.exponent
        have whole : d.digits / 10 * 10 = d.digits := by omega
        rw [Nat.pow_one, whole] at back
        exact back.symm
      · rfl

theorem code_le_infinity (d : Decimal) : d.code ≤ Binary.infinityCode := by
  unfold code
  split
  · exact Binary.nearest_le_infinity _ _
  · exact Binary.nearest_le_infinity _ _

private theorem exact_units (count places : Nat) (within : places ≤ 1074) :
    count * 5 ^ places * 2 ^ 1074 = count * 2 ^ (1074 - places) * 10 ^ places := by
  have split : (2 : Nat) ^ 1074 = 2 ^ places * 2 ^ (1074 - places) := by
    rw [← Nat.pow_add, Nat.add_sub_cancel' within]
  have ten : (10 : Nat) ^ places = 5 ^ places * 2 ^ places := by rw [← Nat.mul_pow]
  rw [split, ten]
  ring

theorem code_exact (finite : Nat) (small : finite ≤ Binary.infinityCode) :
    (exact finite).code = finite := by
  have rebuilt := Binary.shift_significand finite
  have range := Binary.significand_lt finite
  have normal := Binary.shift_eq_zero_or finite
  have result : min Binary.infinityCode
      (Binary.shift finite * Binary.binade + Binary.significand finite) = finite := by
    rw [rebuilt]
    exact Nat.min_eq_right small
  have read : ∀ num den, 0 < den →
      num * 2 ^ 1074 = Binary.significand finite * 2 ^ Binary.shift finite * den →
      Binary.nearest num den = finite := by
    intro num den positive units
    rw [Binary.nearest_of_units num den _ _ positive units range normal, result]
  -- A large number is whole. Others need a place for each doubling that they lack.
  simp only [exact, Nat.pow_eq]
  split
  · rename_i large
    rw [code_eq_nearest _ _ 0 (by omega)]
    apply read _ _ (by simp)
    simp only [Int.toNat_zero, Nat.cast_zero, add_zero, pow_zero, Nat.mul_one]
    rw [Nat.mul_assoc, ← Nat.pow_add, Nat.sub_add_cancel large]
  · rename_i small
    have split : 1074 = (1074 - Binary.shift finite) + Binary.shift finite := by omega
    split
    · rename_i divides
      rw [code_eq_nearest _ _ 0 (by omega)]
      apply read _ _ (by simp)
      simp only [Int.toNat_zero, Nat.cast_zero, add_zero, pow_zero, Nat.mul_one]
      have whole := Nat.div_mul_cancel (Nat.dvd_of_mod_eq_zero divides)
      have power : (2 : Nat) ^ 1074 =
          2 ^ (1074 - Binary.shift finite) * 2 ^ Binary.shift finite := by
        rw [← Nat.pow_add, ← split]
      rw [power, ← Nat.mul_assoc, whole]
    · rw [code_eq_nearest _ _ (1074 - Binary.shift finite) (by omega)]
      apply read _ _ (Nat.pow_pos (by omega))
      have cancelled : (-((1074 - Binary.shift finite : Nat) : Int) +
          ((1074 - Binary.shift finite : Nat) : Int)).toNat = 0 := by omega
      rw [cancelled, Nat.pow_zero, Nat.mul_one, exact_units _ _ (by omega)]
      have shift : 1074 - (1074 - Binary.shift finite) = Binary.shift finite := by omega
      rw [shift]

/-- The decimal that a number is printed with reads back as the number. -/
theorem code_shortest (finite : Nat) (small : finite ≤ Binary.infinityCode) :
    (shortest finite).code = finite := by
  simp only [shortest]
  rw [code_trim]
  generalize lengths : (List.range _).map (· + 1) = candidates
  cases found : candidates.findSome? fun length =>
      coarser? finite (exact finite) (width (exact finite).digits - length) with
  | none => exact code_exact finite small
  | some d =>
      obtain ⟨length, _, accepted⟩ := List.exists_of_findSome?_eq_some found
      exact code_of_coarser? accepted

end Decimal

end Jess
