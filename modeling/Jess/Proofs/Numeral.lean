import Jess.Proofs.Decimal
import Jess.Token.Reading
import Mathlib.Data.List.TakeWhile

/-!
# Numerals

A numeral is a run of digits, or two runs with a point between them. The
positional text of a decimal is a numeral, and the number it is read as is the
one nearest to the decimal, whatever zeros the layout puts in front of or
behind the digits.
-/

namespace Jess.Token

/-- The text of a number: some digits, and possibly a point with digits after it. -/
structure IsNumeral (lexeme whole fraction : List Char) : Prop where
  someWhole : whole ≠ []
  wholeDigits : ∀ c ∈ whole, c.isDigit = true
  fractionDigits : ∀ c ∈ fraction, c.isDigit = true
  spelled : lexeme = if fraction = [] then whole else whole ++ '.' :: fraction

theorem IsNumeral.starts {lexeme whole fraction : List Char}
    (numeral : IsNumeral lexeme whole fraction) :
    ∃ c cs, lexeme = c :: cs ∧ c.isDigit = true := by
  obtain ⟨some_, wholeDigits, _, spelled⟩ := numeral
  obtain ⟨c, cs, rfl⟩ := List.exists_cons_of_ne_nil some_
  have digit := wholeDigits c (List.mem_cons_self ..)
  split at spelled
  · exact ⟨c, cs, spelled, digit⟩
  · exact ⟨c, _, spelled, digit⟩

private theorem foldl_digits (digits : List Char) (total : Nat) :
    digits.foldl (fun total c => total * 10 + (c.toNat - '0'.toNat)) total =
      total * 10 ^ digits.length + digitsValue digits := by
  induction digits generalizing total with
  | nil => simp [digitsValue]
  | cons c rest ih =>
      rw [digitsValue, List.foldl_cons, List.foldl_cons, ih, ih (0 * 10 + _), List.length_cons,
        Nat.pow_succ]
      ring

theorem digitsValue_append (front back : List Char) :
    digitsValue (front ++ back) = digitsValue front * 10 ^ back.length + digitsValue back := by
  rw [digitsValue, List.foldl_append, foldl_digits]
  rfl

theorem digitsValue_zeros (count : Nat) : digitsValue (List.replicate count '0') = 0 := by
  induction count with
  | zero => rfl
  | succ count ih =>
      have front : List.replicate (count + 1) '0' = ['0'] ++ List.replicate count '0' := rfl
      have zero : digitsValue ['0'] = 0 := by decide
      rw [front, digitsValue_append, ih, zero, Nat.zero_mul]

theorem digitsValue_toDigits (n : Nat) : digitsValue (Nat.toDigits 10 n) = n := by
  induction n using Nat.strongRecOn with
  | ind n ih =>
      have last : ∀ d, d < 10 → digitsValue [d.digitChar] = d := by
        intro d small
        have code := Nat.toNat_digitChar_sub_48_of_lt_ten small
        simpa [digitsValue] using code
      rw [Nat.toDigits_eq_if (by omega)]
      split
      · rename_i small
        exact last n small
      · rename_i large
        rw [digitsValue_append, ih (n / 10) (by omega), last (n % 10) (by omega)]
        simp only [List.length_singleton]
        omega

private theorem takeWhile_digits (digits rest : List Char) (all : ∀ c ∈ digits, c.isDigit = true) :
    (digits ++ '.' :: rest).takeWhile Char.isDigit = digits ∧
      (digits ++ '.' :: rest).dropWhile Char.isDigit = '.' :: rest := by
  have point : Char.isDigit '.' = false := by decide
  constructor
  · rw [List.takeWhile_append_of_pos all, List.takeWhile_cons_of_neg (by simp [point]),
      List.append_nil]
  · rw [List.dropWhile_append_of_pos all, List.dropWhile_cons_of_neg (by simp [point])]

/-- A numeral is read as its digits, with the point moved behind the last one. -/
theorem numberValue_of_numeral {lexeme whole fraction : List Char}
    (numeral : IsNumeral lexeme whole fraction) :
    numberValue lexeme = Number.read (digitsValue (whole ++ fraction)) fraction.length := by
  obtain ⟨_, wholeDigits, _, spelled⟩ := numeral
  rw [spelled]
  split
  · rename_i none
    subst none
    have kept : whole.takeWhile Char.isDigit = whole := List.takeWhile_eq_self_iff.mpr wholeDigits
    have nothing : whole.dropWhile Char.isDigit = [] := List.dropWhile_eq_nil_iff.mpr wholeDigits
    simp [numberValue, kept, nothing]
  · obtain ⟨taken, dropped⟩ := takeWhile_digits whole fraction wholeDigits
    simp [numberValue, taken, dropped]

end Jess.Token

namespace Jess.Number

open Token

private theorem toString_toList (n : Nat) : (toString n).toList = Nat.toDigits 10 n := by
  rw [Nat.toString_eq_ofList_toDigits, String.toList_ofList]

private theorem toDigits_isDigit (n : Nat) : ∀ c ∈ Nat.toDigits 10 n, c.isDigit = true :=
  fun _ member => Nat.isDigit_of_mem_toDigits (by omega) (by omega) member

private theorem zeros_isDigit (count : Nat) :
    ∀ c ∈ List.replicate count '0', c.isDigit = true := by
  intro c member
  rw [List.eq_of_mem_replicate member]
  decide

/-- The positional text of a decimal is a numeral that is read as the decimal. -/
theorem positional_numeral (d : Decimal) :
    ∃ whole fraction, IsNumeral (positional d).toList whole fraction ∧
      numberValue (positional d).toList = Binary.ofCode d.code := by
  obtain ⟨digits, exponent⟩ := d
  -- Zeros go behind the digits, or before them to make room for the point.
  by_cases positive : 0 ≤ exponent
  · let zeros := List.replicate exponent.toNat '0'
    have text : (positional ⟨digits, exponent⟩).toList = Nat.toDigits 10 digits ++ zeros := by
      simp only [positional, if_pos positive]
      rw [String.toList_append, toString_toList, String.toList_ofList]
    have numeral : IsNumeral (positional ⟨digits, exponent⟩).toList
        (Nat.toDigits 10 digits ++ zeros) [] := by
      refine ⟨?_, ?_, by simp, by simp [text]⟩
      · exact List.append_ne_nil_of_left_ne_nil Nat.toDigits_ne_nil _
      · intro c member
        rcases List.mem_append.mp member with inDigits | inZeros
        · exact toDigits_isDigit digits c inDigits
        · exact zeros_isDigit _ c inZeros
    refine ⟨_, _, numeral, ?_⟩
    have scaled := Decimal.code_mul_ten_pow digits exponent.toNat 0
    have whole : (0 : Int) + exponent.toNat = exponent := by omega
    rw [whole] at scaled
    rw [numberValue_of_numeral numeral, List.append_nil, digitsValue_append, digitsValue_toDigits,
      digitsValue_zeros]
    simp only [read, zeros, List.length_replicate, List.length_nil, Nat.add_zero, Nat.cast_zero,
      neg_zero, scaled]
  · let places := (-exponent).toNat
    let text := Nat.toDigits 10 digits
    let padded := List.replicate (places + 1 - text.length) '0' ++ text
    have long : places < padded.length := by
      simp only [padded, List.length_append, List.length_replicate]
      omega
    have written : (positional ⟨digits, exponent⟩).toList =
        padded.take (padded.length - places) ++ '.' :: padded.drop (padded.length - places) := by
      have length : (toString digits).length = text.length := by
        rw [← String.length_toList, toString_toList]
      simp only [positional, if_neg positive, length, toString_toList]
      simp [padded, text, places]
    have allDigits : ∀ c ∈ padded, c.isDigit = true := by
      intro c member
      rcases List.mem_append.mp member with inZeros | inText
      · exact zeros_isDigit _ c inZeros
      · exact toDigits_isDigit digits c inText
    have someFraction : padded.drop (padded.length - places) ≠ [] := by
      rw [ne_eq, List.drop_eq_nil_iff]
      omega
    have numeral : IsNumeral (positional ⟨digits, exponent⟩).toList
        (padded.take (padded.length - places)) (padded.drop (padded.length - places)) := by
      refine ⟨?_, ?_, ?_, by rw [written, if_neg someFraction]⟩
      · rw [ne_eq, List.take_eq_nil_iff, not_or]
        refine ⟨by omega, ?_⟩
        intro empty
        rw [empty] at long
        simp at long
      · intro c member
        exact allDigits c (List.mem_of_mem_take member)
      · intro c member
        exact allDigits c (List.mem_of_mem_drop member)
    refine ⟨_, _, numeral, ?_⟩
    have value : digitsValue padded = digits := by
      rw [digitsValue_append, digitsValue_zeros, digitsValue_toDigits, Nat.zero_mul, Nat.zero_add]
    have fractionLength : (padded.drop (padded.length - places)).length = places := by
      rw [List.length_drop]
      omega
    have exponentEq : -((places : Nat) : Int) = exponent := by omega
    rw [numberValue_of_numeral numeral, List.take_append_drop, value, fractionLength, read,
      exponentEq]

end Jess.Number
