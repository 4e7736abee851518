import Jess.Number.Binary
import Mathlib.Tactic.Ring

/-!
# Numbers from their codes

A number is its sign and its code. A number without a sign is the one that
`Binary.ofCode` makes of its code, and a number with a sign is the negation of
that one. There is only one NaN. These facts unfold the logical model of
`Float`, which packs a sign, eleven bits of exponent and fifty-two bits of
significand into a word.
-/

namespace Jess.Binary

open Float.Model (Format UnpackedFloat)
open Float.Model.UnpackedFloat

abbrev word (sign : Sign) (exponent : BitVec 11) (mantissa : BitVec 52) : BitVec 64 :=
  packComponents Format.binary64 sign exponent mantissa

private theorem sign_word (sign : Sign) (exponent : BitVec 11) (mantissa : BitVec 52) :
    @unpackSign Format.binary64 (word sign exponent mantissa) = sign.toBitVec := by
  change (sign.toBitVec ++ exponent ++ mantissa).extractLsb' 63 1 = sign.toBitVec
  rw [BitVec.extractLsb'_append_eq_of_le (by decide),
    BitVec.extractLsb'_append_eq_of_le (by decide)]
  cases sign <;> rfl

private theorem ofBitVec_toBitVec (sign : Sign) : Sign.ofBitVec sign.toBitVec = sign := by
  cases sign <;> rfl

theorem word_toNat (sign : Sign) (exponent : BitVec 11) (mantissa : BitVec 52) :
    (word sign exponent mantissa).toNat =
      sign.toBitVec.toNat * 2 ^ 63 + exponent.toNat * 2 ^ 52 + mantissa.toNat := by
  have exponentBound : exponent.toNat < 2 ^ 11 := exponent.isLt
  have mantissaBound : mantissa.toNat < 2 ^ 52 := mantissa.isLt
  change (sign.toBitVec ++ exponent ++ mantissa).toNat = _
  rw [BitVec.toNat_append, BitVec.toNat_append, Nat.shiftLeft_eq, Nat.shiftLeft_eq,
    Nat.mul_comm _ (2 ^ 11), ← Nat.two_pow_add_eq_or_of_lt exponentBound,
    Nat.mul_comm _ (2 ^ 52), ← Nat.two_pow_add_eq_or_of_lt mantissaBound]
  ring

theorem exists_word (bits : BitVec 64) :
    ∃ sign exponent mantissa, bits = word sign exponent mantissa := by
  have bound : bits.toNat < 2 ^ 64 := bits.isLt
  let exponent := BitVec.ofNat 11 (bits.toNat / 2 ^ 52)
  let mantissa := BitVec.ofNat 52 bits.toNat
  by_cases negative : 2 ^ 63 ≤ bits.toNat
  · refine ⟨.negative, exponent, mantissa, BitVec.eq_of_toNat_eq ?_⟩
    rw [word_toNat]
    simp only [exponent, mantissa, BitVec.toNat_ofNat, Sign.toBitVec]
    omega
  · refine ⟨.positive, exponent, mantissa, BitVec.eq_of_toNat_eq ?_⟩
    rw [word_toNat]
    simp only [exponent, mantissa, BitVec.toNat_ofNat, Sign.toBitVec]
    omega

theorem implicit_bit (mantissa : BitVec 52) :
    (1#1 ++ mantissa).toNat = 2 ^ 52 + mantissa.toNat := by
  change 2 ^ 52 ||| mantissa.toNat = _
  rw [Nat.or_comm, Nat.or_two_pow_eq_add_of_lt mantissa.isLt, Nat.add_comm]

theorem unpack_word (sign : Sign) (exponent : BitVec 11) (mantissa : BitVec 52) :
    unpack Format.binary64 (word sign exponent mantissa) =
      if exponent = -1#11 then
        if mantissa = 0#52 then .infinity sign else .notANumber
      else if exponent = 0#11 then
        if h : mantissa = 0#52 then .zero sign
        else .finite sign mantissa.toNat ((exponent.toNat : Int) - 1075 + 1)
          (by simpa [BitVec.toNat_pos, BitVec.pos_iff_ne_zero])
      else .finite sign (1#1 ++ mantissa).toNat ((exponent.toNat : Int) - 1075)
        (by rw [implicit_bit]; omega) := by
  have onSign : Sign.ofBitVec (@unpackSign Format.binary64 (word sign exponent mantissa)) =
      sign := by
    rw [sign_word, ofBitVec_toBitVec]
  have onExponent : @unpackExponent Format.binary64 (word sign exponent mantissa) = exponent :=
    unpackExponent_packComponents
  have onMantissa : @unpackMantissa Format.binary64 (word sign exponent mantissa) = mantissa :=
    unpackMantissa_packComponents
  -- The three fields are all that unpacking reads of a word.
  generalize word sign exponent mantissa = bits at onSign onExponent onMantissa ⊢
  subst onSign onExponent onMantissa
  rfl

theorem neg_unpack_word (sign : Sign) (exponent : BitVec 11) (mantissa : BitVec 52) :
    (unpack Format.binary64 (word sign exponent mantissa)).neg =
      unpack Format.binary64 (word (-sign) exponent mantissa) := by
  rw [unpack_word, unpack_word]
  by_cases top : exponent = -1#11
  · rw [if_pos top, if_pos top]
    by_cases zero : mantissa = 0#52
    · rw [if_pos zero, if_pos zero]
      rfl
    · rw [if_neg zero, if_neg zero]
      rfl
  · rw [if_neg top, if_neg top]
    by_cases least : exponent = 0#11
    · rw [if_pos least, if_pos least]
      by_cases zero : mantissa = 0#52
      · rw [dif_pos zero, dif_pos zero]
        rfl
      · rw [dif_neg zero, dif_neg zero]
        rfl
    · rw [if_neg least, if_neg least]
      rfl

private theorem log2_lt_of_bits (mantissa : BitVec 52) (nonzero : mantissa ≠ 0#52) :
    mantissa.toNat.log2 < 52 := by
  have positive : mantissa.toNat ≠ 0 := by
    intro zero
    exact nonzero (BitVec.eq_of_toNat_eq zero)
  exact (Nat.log2_lt positive).mpr mantissa.isLt

theorem top_iff (exponent : BitVec 11) : exponent = -1#11 ↔ exponent.toNat = 2047 := by
  constructor
  · rintro rfl
    rfl
  · intro top
    apply BitVec.eq_of_toNat_eq
    rw [top]
    rfl

theorem pack_unpack_word (sign : Sign) (exponent : BitVec 11) (mantissa : BitVec 52)
    (valid : Format.binary64.Valid (word sign exponent mantissa)) :
    pack Format.binary64 (unpack Format.binary64 (word sign exponent mantissa)) =
      word sign exponent mantissa := by
  have exponentBound : exponent.toNat < 2048 := exponent.isLt
  have mantissaBound : mantissa.toNat < 2 ^ 52 := mantissa.isLt
  rw [unpack_word]
  by_cases top : exponent = -1#11
  · rw [if_pos top]
    -- infinities, and the one NaN
    by_cases zero : mantissa = 0#52
    · rw [if_pos zero, top, zero]
      rfl
    · rw [if_neg zero]
      have canonical := valid.eq_packedNaN
      simp only [unpackMantissa_packComponents, unpackExponent_packComponents] at canonical
      exact (canonical top zero).symm
  · rw [if_neg top]
    have belowTop : exponent.toNat < 2047 := by
      have other := mt (top_iff exponent).mpr top
      omega
    by_cases least : exponent = 0#11
    · rw [if_pos least]
      -- zeros and subnormal numbers
      by_cases zero : mantissa = 0#52
      · rw [dif_pos zero, least, zero]
        rfl
      · rw [dif_neg zero]
        have small := log2_lt_of_bits mantissa zero
        have kept : BitVec.ofNat 52 mantissa.toNat = mantissa := by simp
        have biased : ((exponent.toNat : Int) - 1075 + 1 + 1023 + 52).toNat = 1 := by
          rw [least]
          rfl
        change (if 2 ^ 11 ≤ ((exponent.toNat : Int) - 1075 + 1 + 1023 + 52).toNat + 1 then _
          else if mantissa.toNat.log2 + 1 = 53 then _
          else packComponents Format.binary64 sign 0#11 (BitVec.ofNat 52 mantissa.toNat)) = _
        rw [biased, if_neg (by decide), if_neg (by omega), kept, least]
    · rw [if_neg least]
      -- normal numbers, with a leading bit that is not stored
      have leading : (1#1 ++ mantissa).toNat.log2 = 52 := by
        rw [implicit_bit]
        exact (Nat.log2_eq_iff (by omega)).mpr ⟨by omega, by omega⟩
      have biased : ((exponent.toNat : Int) - 1075 + 1023 + 52).toNat = exponent.toNat := by omega
      have kept : BitVec.ofNat 52 (1#1 ++ mantissa).toNat = mantissa := by
        apply BitVec.eq_of_toNat_eq
        rw [implicit_bit, BitVec.toNat_ofNat, Nat.add_mod_left, Nat.mod_eq_of_lt mantissaBound]
      have exponentKept : BitVec.ofNat 11 exponent.toNat = exponent := by simp
      change (if 2 ^ 11 ≤ ((exponent.toNat : Int) - 1075 + 1023 + 52).toNat + 1 then _
        else if (1#1 ++ mantissa).toNat.log2 + 1 = 53 then
          packComponents Format.binary64 sign
            (BitVec.ofNat 11 ((exponent.toNat : Int) - 1075 + 1023 + 52).toNat)
            (BitVec.ofNat 52 (1#1 ++ mantissa).toNat)
        else _) = _
      rw [biased, if_neg (by omega), leading, if_pos (by decide), exponentKept, kept]

theorem float_of_bits {x y : Float} (same : x.toBits = y.toBits) : x = y := by
  obtain ⟨⟨bits, valid⟩⟩ := x
  obtain ⟨⟨others, validToo⟩⟩ := y
  change bits = others at same
  subst same
  rfl

theorem fields (x : Float) : ∃ sign exponent mantissa,
    x.toBits.toBitVec = word sign exponent mantissa ∧
      Format.binary64.Valid (word sign exponent mantissa) := by
  obtain ⟨⟨bits, valid⟩⟩ := x
  obtain ⟨sign, exponent, mantissa, same⟩ := exists_word bits.toBitVec
  refine ⟨sign, exponent, mantissa, same, ?_⟩
  rw [← same]
  exact valid

theorem toBits_ofBits (bits : UInt64) (sign : Sign) (exponent : BitVec 11) (mantissa : BitVec 52)
    (same : bits.toBitVec = word sign exponent mantissa)
    (valid : Format.binary64.Valid (word sign exponent mantissa)) :
    (Float.ofBits bits).toBits = bits := by
  apply UInt64.toBitVec_inj.mp
  change pack Format.binary64 (unpack Format.binary64 bits.toBitVec) = bits.toBitVec
  rw [same]
  exact pack_unpack_word sign exponent mantissa valid

theorem toBits_neg (x : Float) (sign : Sign) (exponent : BitVec 11) (mantissa : BitVec 52)
    (same : x.toBits.toBitVec = word sign exponent mantissa)
    (valid : Format.binary64.Valid (word (-sign) exponent mantissa)) :
    (-x).toBits.toBitVec = word (-sign) exponent mantissa := by
  change pack Format.binary64 (unpack Format.binary64 x.toBits.toBitVec).neg = _
  rw [same, neg_unpack_word]
  exact pack_unpack_word (-sign) exponent mantissa valid

theorem code_of_fields (x : Float) (sign : Sign) (exponent : BitVec 11) (mantissa : BitVec 52)
    (same : x.toBits.toBitVec = word sign exponent mantissa) :
    code x = exponent.toNat * 2 ^ 52 + mantissa.toNat := by
  have exponentBound : exponent.toNat < 2 ^ 11 := exponent.isLt
  have mantissaBound : mantissa.toNat < 2 ^ 52 := mantissa.isLt
  have bits : x.toBits.toNat =
      sign.toBitVec.toNat * 2 ^ 63 + exponent.toNat * 2 ^ 52 + mantissa.toNat := by
    rw [← word_toNat, ← same]
    rfl
  simp only [code, signBit, bits]
  omega

theorem isNegative_of_fields (x : Float) (sign : Sign) (exponent : BitVec 11)
    (mantissa : BitVec 52) (same : x.toBits.toBitVec = word sign exponent mantissa) :
    isNegative x = true ↔ sign = .negative := by
  have exponentBound : exponent.toNat < 2 ^ 11 := exponent.isLt
  have mantissaBound : mantissa.toNat < 2 ^ 52 := mantissa.isLt
  have bits : x.toBits.toNat =
      sign.toBitVec.toNat * 2 ^ 63 + exponent.toNat * 2 ^ 52 + mantissa.toNat := by
    rw [← word_toNat, ← same]
    rfl
  simp only [isNegative, signBit, bits, decide_eq_true_eq]
  cases sign with
  | negative =>
      simp only [Sign.toBitVec, iff_true]
      change _ ≤ 1 * 2 ^ 63 + _ + _
      omega
  | positive =>
      simp only [Sign.toBitVec, reduceCtorEq, iff_false]
      change ¬_ ≤ 0 * 2 ^ 63 + _ + _
      omega

/-- The codes below infinity are those of finite numbers, and the codes past it are no numbers. -/
theorem status_of_code (x : Float) :
    (x.isFinite = true ↔ code x < infinityCode) ∧ (x.isInf = true ↔ code x = infinityCode) ∧
      (x.isNaN = true ↔ infinityCode < code x) := by
  obtain ⟨sign, exponent, mantissa, same, _⟩ := fields x
  have exponentBound : exponent.toNat < 2048 := exponent.isLt
  have mantissaBound : mantissa.toNat < 2 ^ 52 := mantissa.isLt
  have codeEq := code_of_fields x sign exponent mantissa same
  have unpacked : x.toModel.unpack = unpack Format.binary64 (word sign exponent mantissa) :=
    congrArg (unpack Format.binary64) same
  change (x.toModel.unpack.isFinite = true ↔ _) ∧ (x.toModel.unpack.isInf = true ↔ _) ∧
    (x.toModel.unpack.isNaN = true ↔ _)
  rw [unpacked, unpack_word]
  by_cases top : exponent = -1#11
  · have large := (top_iff exponent).mp top
    rw [if_pos top]
    by_cases zero : mantissa = 0#52
    · have infinite : code x = infinityCode := by
        simp only [codeEq, large, zero, infinityCode, binade]
        rfl
      rw [if_pos zero]
      exact ⟨iff_of_false Bool.false_ne_true (by omega), iff_of_true rfl infinite,
        iff_of_false Bool.false_ne_true (by omega)⟩
    · have some_ : mantissa.toNat ≠ 0 := fun none => zero (BitVec.eq_of_toNat_eq none)
      have past : infinityCode < code x := by
        simp only [codeEq, large, infinityCode, binade]
        omega
      rw [if_neg zero]
      exact ⟨iff_of_false Bool.false_ne_true (by omega), iff_of_false Bool.false_ne_true (by omega),
        iff_of_true rfl past⟩
  · have small := mt (top_iff exponent).mpr top
    have below : code x < infinityCode := by
      simp only [codeEq, infinityCode, binade]
      omega
    have decided : ∀ u : UnpackedFloat, u.isFinite = true → u.isInf = false → u.isNaN = false →
        (u.isFinite = true ↔ code x < infinityCode) ∧ (u.isInf = true ↔ code x = infinityCode) ∧
          (u.isNaN = true ↔ infinityCode < code x) := by
      intro u finite noInfinity known
      rw [finite, noInfinity, known]
      exact ⟨iff_of_true rfl below, iff_of_false Bool.false_ne_true (by omega),
        iff_of_false Bool.false_ne_true (by omega)⟩
    rw [if_neg top]
    by_cases least : exponent = 0#11
    · rw [if_pos least]
      by_cases zero : mantissa = 0#52
      · rw [dif_pos zero]
        exact decided _ rfl rfl rfl
      · rw [dif_neg zero]
        exact decided _ rfl rfl rfl
    · rw [if_neg least]
      exact decided _ rfl rfl rfl

theorem valid_of_code (sign : Sign) (exponent : BitVec 11) (mantissa : BitVec 52)
    (ordered : exponent.toNat * 2 ^ 52 + mantissa.toNat ≤ infinityCode) :
    Format.binary64.Valid (word sign exponent mantissa) := by
  constructor
  intro top nonzero
  simp only [unpackMantissa_packComponents, unpackExponent_packComponents] at top nonzero
  have large := (top_iff exponent).mp top
  have zero : mantissa.toNat = 0 := by
    simp only [infinityCode, binade, large] at ordered
    omega
  exact absurd (BitVec.eq_of_toNat_eq zero) nonzero

theorem toBits_ofCode (ordered : Nat) (small : ordered ≤ infinityCode) :
    (ofCode ordered).toBits = UInt64.ofNat ordered := by
  have bound : ordered < 2 ^ 64 := by
    simp only [infinityCode, binade] at small
    omega
  let exponent := BitVec.ofNat 11 (ordered / 2 ^ 52)
  let mantissa := BitVec.ofNat 52 ordered
  have code : exponent.toNat * 2 ^ 52 + mantissa.toNat = ordered := by
    simp only [exponent, mantissa, BitVec.toNat_ofNat]
    simp only [infinityCode, binade] at small
    omega
  have same : (UInt64.ofNat ordered).toBitVec = word .positive exponent mantissa := by
    apply BitVec.eq_of_toNat_eq
    have noSign : (Sign.toBitVec .positive).toNat = 0 := rfl
    rw [word_toNat, noSign, Nat.zero_mul, Nat.zero_add, code]
    exact UInt64.toNat_ofNat_of_lt' bound
  exact toBits_ofBits _ _ _ _ same (valid_of_code _ _ _ (by rw [code]; exact small))

theorem code_ofCode (ordered : Nat) (small : ordered ≤ infinityCode) :
    code (ofCode ordered) = ordered := by
  simp only [code, toBits_ofCode ordered small]
  simp only [infinityCode, binade] at small
  rw [UInt64.toNat_ofNat_of_lt' (show ordered < UInt64.size by simp only [UInt64.size]; omega)]
  exact Nat.mod_eq_of_lt (by simp only [signBit]; omega)

theorem isNegative_ofCode (ordered : Nat) (small : ordered ≤ infinityCode) :
    isNegative (ofCode ordered) = false := by
  simp only [isNegative, toBits_ofCode ordered small]
  simp only [infinityCode, binade] at small
  rw [UInt64.toNat_ofNat_of_lt' (show ordered < UInt64.size by simp only [UInt64.size]; omega)]
  exact decide_eq_false (by simp only [signBit]; omega)

theorem ofCode_code (x : Float) (ordered : code x ≤ infinityCode)
    (unsigned : isNegative x = false) :
    ofCode (code x) = x := by
  apply float_of_bits
  rw [toBits_ofCode _ ordered]
  have below : x.toBits.toNat < signBit := by
    simpa [isNegative] using unsigned
  have same : code x = x.toBits.toNat := Nat.mod_eq_of_lt below
  rw [same]
  exact UInt64.ofNat_toNat

theorem neg_ofCode_code (x : Float) (ordered : code x ≤ infinityCode)
    (signed : isNegative x = true) : -ofCode (code x) = x := by
  obtain ⟨sign, exponent, mantissa, same, valid⟩ := fields x
  have negative : sign = .negative := (isNegative_of_fields x sign exponent mantissa same).mp signed
  subst negative
  have codeEq := code_of_fields x _ exponent mantissa same
  have unsigned : (ofCode (code x)).toBits.toBitVec = word .positive exponent mantissa := by
    rw [toBits_ofCode _ ordered]
    apply BitVec.eq_of_toNat_eq
    have noSign : (Sign.toBitVec .positive).toNat = 0 := rfl
    rw [word_toNat, noSign, Nat.zero_mul, Nat.zero_add, ← codeEq]
    simp only [infinityCode, binade] at ordered
    exact UInt64.toNat_ofNat_of_lt' (show _ < UInt64.size by simp only [UInt64.size]; omega)
  have negated := toBits_neg _ _ _ _ unsigned valid
  apply float_of_bits
  apply UInt64.toBitVec_inj.mp
  rw [negated, same]
  rfl

/-- All numbers past infinity are the one NaN. -/
theorem nan_unique (x y : Float) (left : infinityCode < code x) (right : infinityCode < code y) :
    x = y := by
  have packed : ∀ z : Float, infinityCode < code z →
      z.toBits.toBitVec = packedNaN Format.binary64 := by
    intro z past
    obtain ⟨sign, exponent, mantissa, same, valid⟩ := fields z
    have exponentBound : exponent.toNat < 2048 := exponent.isLt
    have mantissaBound : mantissa.toNat < 2 ^ 52 := mantissa.isLt
    rw [code_of_fields z sign exponent mantissa same] at past
    simp only [infinityCode, binade] at past
    have canonical := valid.eq_packedNaN
    simp only [unpackMantissa_packComponents, unpackExponent_packComponents] at canonical
    have top : exponent = -1#11 := (top_iff exponent).mpr (by omega)
    have nonzero : mantissa ≠ 0#52 := by
      rintro rfl
      simp only [BitVec.toNat_zero] at past
      omega
    rw [same]
    exact canonical top nonzero
  apply float_of_bits
  apply UInt64.toBitVec_inj.mp
  rw [packed x left, packed y right]

end Jess.Binary
