import Mathlib.Algebra.Order.Group.Nat
import Mathlib.Tactic.Ring
import Unstack.Number.Layout
import Unstack.Number.Numeral

/-! # Digits and lengths

What lists of digits stand for, and how many digits a number has. -/

namespace Unstack

namespace Numeral

/-! ### The number of a list of digits -/

theorem natOfDigits_append (xs ys : List Char) :
    natOfDigits (xs ++ ys) = natOfDigits xs * 10 ^ ys.length + natOfDigits ys := by
  show Nat.ofDigitChars 10 (xs ++ ys) 0 = _
  rw [Nat.ofDigitChars_append, Nat.ofDigitChars_eq_ofDigitChars_zero, Nat.mul_comm]
  rfl

@[simp] theorem natOfDigits_replicate (n : Nat) : natOfDigits (List.replicate n '0') = 0 := by
  show Nat.ofDigitChars 10 (List.replicate n '0') 0 = 0
  rw [Nat.ofDigitChars_replicate_zero, Nat.mul_zero]

@[simp] theorem natOfDigits_natText (n : Nat) : natOfDigits (Layout.natText n) = n :=
  Nat.ofDigitChars_ten_toDigits

end Numeral

namespace Layout

open Numeral

theorem isDigit_of_mem_natText {n : Nat} {c : Char} (h : c ∈ natText n) : c.isDigit = true :=
  Nat.isDigit_of_mem_toDigits (by decide) (by decide) h

/-- The zeros at the end of a list can be put back. -/
theorem exists_stripZeros_append (ds : List Char) :
    ∃ k, ds = stripZeros ds ++ List.replicate k '0' := by
  have hzeros : ∀ c ∈ (ds.reverse.takeWhile (· = '0')), c = '0' := by
    intro c hc
    simpa using List.all_eq_true.mp List.all_takeWhile c hc
  refine ⟨(ds.reverse.takeWhile (· = '0')).length, ?_⟩
  have hsplit := congrArg List.reverse
    (List.takeWhile_append_dropWhile (p := (· = '0')) (l := ds.reverse))
  rw [List.reverse_append, List.reverse_reverse] at hsplit
  unfold stripZeros
  rw [← List.reverse_replicate, ← List.eq_replicate_of_mem hzeros]
  exact hsplit.symm

end Layout

namespace Number

/-! ### How many digits a number has -/

/-- A number with `k + 1` digits lies between two powers of ten. -/
theorem le_and_lt_of_decimalLength {n : Nat} (hn : n ≠ 0) :
    ∃ k, decimalLength n = k + 1 ∧ 10 ^ k ≤ n ∧ n < 10 ^ (k + 1) := by
  unfold decimalLength
  dsimp only
  split_ifs with h₁ h₂
  · exact ⟨_, rfl, h₁⟩
  · exact ⟨_, rfl, h₂⟩
  · have hpos : 0 < (Nat.toDigits 10 n).length := Nat.length_toDigits_pos
    obtain ⟨k, hk⟩ := Nat.exists_eq_succ_of_ne_zero (Nat.ne_of_gt hpos)
    refine ⟨k, hk, ?_, ?_⟩
    · cases k with
      | zero => exact Nat.one_le_iff_ne_zero.mpr hn
      | succ k =>
          refine Nat.le_of_not_lt fun hlt => ?_
          have hle := (Nat.length_toDigits_le_iff (by decide) (Nat.succ_pos k)).mpr hlt
          omega
    · exact (Nat.length_toDigits_le_iff (by decide) (Nat.succ_pos k)).mp (Nat.le_of_eq hk)

theorem decimalLength_eq {n k : Nat} (hle : 10 ^ k ≤ n) (hlt : n < 10 ^ (k + 1)) :
    decimalLength n = k + 1 := by
  have hn : n ≠ 0 := Nat.ne_of_gt (Nat.lt_of_lt_of_le (Nat.pow_pos (by decide)) hle)
  obtain ⟨j, hj, hle', hlt'⟩ := le_and_lt_of_decimalLength hn
  have h₁ : k < j + 1 := (Nat.pow_lt_pow_iff_right (by decide)).mp (Nat.lt_of_le_of_lt hle hlt')
  have h₂ : j < k + 1 := (Nat.pow_lt_pow_iff_right (by decide)).mp (Nat.lt_of_le_of_lt hle' hlt)
  omega

/-- Zeros at the end count. -/
theorem decimalLength_mul_pow {n : Nat} (hn : n ≠ 0) (k : Nat) :
    decimalLength (n * 10 ^ k) = decimalLength n + k := by
  obtain ⟨j, hj, hle, hlt⟩ := le_and_lt_of_decimalLength hn
  rw [hj, Nat.add_right_comm]
  refine decimalLength_eq ?_ ?_
  · rw [Nat.pow_add]
    exact Nat.mul_le_mul_right _ hle
  · rw [Nat.add_right_comm, Nat.pow_add]
    exact (Nat.mul_lt_mul_right (Nat.pow_pos (by decide))).mpr hlt

theorem lt_decimalLength_of_pow_le {n k : Nat} (h : 10 ^ k ≤ n) : k < decimalLength n := by
  have hn : n ≠ 0 := Nat.ne_of_gt (Nat.lt_of_lt_of_le (Nat.pow_pos (by decide)) h)
  obtain ⟨j, hj, -, hlt⟩ := le_and_lt_of_decimalLength hn
  rw [hj]
  exact (Nat.pow_lt_pow_iff_right (by decide)).mp (Nat.lt_of_le_of_lt h hlt)

theorem decimalLength_le_of_lt_pow {n k : Nat} (hn : n ≠ 0) (h : n < 10 ^ k) :
    decimalLength n ≤ k := by
  obtain ⟨j, hj, hle, -⟩ := le_and_lt_of_decimalLength hn
  rw [hj]
  exact (Nat.pow_lt_pow_iff_right (by decide)).mp (Nat.lt_of_le_of_lt hle h)

end Number

end Unstack
