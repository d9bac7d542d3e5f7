import Unstack.Proofs.Number.Rounding
import Unstack.Proofs.Reading.Symbols

/-! # Written numbers read back

A layout puts the shortest digits of a number around a point or in front of a power of ten.  Either
way the text is a decimal of the value that the digits had (`decimal_plain`, `decimal_scientific`),
so the number is read back (`decimal_finite`).  It has a point or the mark of a power of ten
(`exists_mark_finite`), so it is not read as an integer. -/

namespace Unstack.Layout

open Grammar Numeral

variable {ds sign : List Char} {b : Bool} {e : Int}

/-! ### The two forms -/

theorem isDigit_of_mem_zeros (n : Nat) : ∀ c ∈ List.replicate n '0', c.isDigit = true := by
  intro c hc
  rw [List.eq_of_mem_replicate hc]
  rfl

theorem digits_zero : Digits ['0'] := ⟨List.cons_ne_nil _ _, isDigit_of_mem_zeros 1⟩

/-- Digits around a point. -/
theorem decimal_plain (hds : Digits ds) (hsign : Sign sign b) (e : Int) :
    DecimalNumber (sign ++ plain ds e) (.ofDecimal b (natOfDigits ds) (e - ds.length)) := by
  unfold plain
  split_ifs with hsmall hlarge
  · -- Nothing in front of the point.
    have hdigits : ∀ c ∈ List.replicate (-e).toNat '0' ++ ds, c.isDigit = true := by
      intro c hc
      rcases List.mem_append.mp hc with hc | hc
      · exact isDigit_of_mem_zeros _ c hc
      · exact hds.2 c hc
    refine ⟨sign, b, ['0'], _, _, [], 0, hsign, digits_zero, .point hdigits, .none, by simp, ?_⟩
    rw [natOfDigits_append, natOfDigits_append, natOfDigits_replicate]
    congr 1
    · simp [natOfDigits]
    · simp only [List.length_append, List.length_replicate]
      omega
  · -- Zeros up to the point, and one behind it.
    obtain ⟨m, hm⟩ := Int.eq_ofNat_of_zero_le (by omega : 0 ≤ e - ds.length)
    have hcount : e.toNat - ds.length = m := by omega
    have hdigits : Digits (ds ++ List.replicate m '0') := by
      refine ⟨by simp [hds.1], fun c hc => ?_⟩
      rcases List.mem_append.mp hc with hc | hc
      · exact hds.2 c hc
      · exact isDigit_of_mem_zeros _ c hc
    refine ⟨sign, b, ds ++ List.replicate m '0', _, ['0'], [], 0, hsign, hdigits,
      .point digits_zero.2, .none, by simp [hcount], ?_⟩
    have hvalue : natOfDigits (ds ++ List.replicate m '0' ++ ['0'])
        = natOfDigits ds * 10 ^ (m + 1) := by
      rw [List.append_assoc, ← List.replicate_succ', natOfDigits_append, natOfDigits_replicate,
        List.length_replicate, Nat.add_zero]
    rw [hvalue, Number.ofDecimal_mul_pow]
    congr 1
    simp only [List.length_singleton]
    omega
  · -- The point among the digits.
    have hne : ds.take e.toNat ≠ [] := by
      rw [Ne, List.take_eq_nil_iff, not_or]
      exact ⟨by omega, hds.1⟩
    refine ⟨sign, b, ds.take e.toNat, _, ds.drop e.toNat, [], 0, hsign,
      ⟨hne, fun c hc => hds.2 c (List.mem_of_mem_take hc)⟩,
      .point fun c hc => hds.2 c (List.mem_of_mem_drop hc), .none, by simp, ?_⟩
    rw [List.take_append_drop, List.length_drop]
    congr 1
    omega

theorem power_natText {plus : List Char} (hplus : Sign plus false) (e : Int) :
    Power ('e' :: ((if e < 0 then ['-'] else plus) ++ natText e.natAbs)) e := by
  have hdigits : Digits (natText e.natAbs) :=
    ⟨Nat.toDigits_ne_nil, fun c hc => isDigit_of_mem_natText hc⟩
  by_cases he : e < 0
  · have hvalue : signed true (natText e.natAbs) = e := by
      simp only [signed, natOfDigits_natText, if_true]
      omega
    have hpower := Power.mark (Or.inl rfl) Sign.minus hdigits
    rw [if_pos he]
    rwa [hvalue] at hpower
  · have hvalue : signed false (natText e.natAbs) = e := by
      simp only [signed, natOfDigits_natText, Bool.false_eq_true, if_false]
      omega
    have hpower := Power.mark (Or.inl rfl) hplus hdigits
    rw [if_neg he]
    rwa [hvalue] at hpower

/-- Digits in front of a power of ten. -/
theorem decimal_scientific (hds : Digits ds) (hsign : Sign sign b) {plus : List Char}
    (hplus : Sign plus false) (e : Int) :
    DecimalNumber (sign ++ scientific plus ds e)
      (.ofDecimal b (natOfDigits ds) (e + 1 - ds.length)) := by
  have hpower := power_natText hplus e
  obtain ⟨hne, hall⟩ := hds
  match ds, hne with
  | [d], _ =>
      refine ⟨sign, b, [d], [], [], _, e, hsign, ⟨by simp, hall⟩, .none, hpower, ?_, ?_⟩
      · simp [scientific]
      · congr 1
        simp only [List.length_singleton, List.length_nil]
        omega
  | d :: d' :: ds, _ =>
      refine ⟨sign, b, [d], _, d' :: ds, _, e, hsign, ⟨by simp, by simpa using hall d⟩,
        .point fun c hc => hall c (List.mem_cons_of_mem _ hc), hpower, ?_, ?_⟩
      · simp [scientific]
      · congr 1
        simp only [List.length_cons]
        omega

/-! ### Whole numbers -/

/-- **A written magnitude** is a decimal that is read as it, whatever sign stands in front. -/
theorem decimal_magnitude {l : Layout} (hplus : Sign l.plus false) (hsign : Sign sign b)
    (p : Fin finiteMagnitudes) :
    DecimalNumber (sign ++ l.magnitude p) (.finite b p) := by
  unfold magnitude
  split_ifs with hp
  · refine ⟨sign, b, ['0'], ['.', '0'], ['0'], [], 0, hsign, digits_zero, .point digits_zero.2,
      .none, by simp, ?_⟩
    show _ = Number.ofDecimal b 0 _
    rw [Number.ofDecimal_zero, ← hp, Number.atPlace_val]
  · have hread := Decimal.readsAs_iff.mp (Decimal.readsAs_shortest l.tie p)
    generalize Decimal.shortest l.tie p = d at hread ⊢
    dsimp only
    obtain ⟨k, hk⟩ := exists_stripZeros_append (natText d.digits)
    generalize stripZeros (natText d.digits) = ds at hk ⊢
    have hvalue : d.digits = natOfDigits ds * 10 ^ k := by
      rw [← natOfDigits_natText d.digits, hk, natOfDigits_append, natOfDigits_replicate,
        List.length_replicate, Nat.add_zero]
    have hlength : (natText d.digits).length = ds.length + k := by
      rw [hk, List.length_append, List.length_replicate]
    have hdigits : Digits ds := by
      refine ⟨?_, fun c hc => isDigit_of_mem_natText (hk ▸ List.mem_append_left _ hc)⟩
      rintro rfl
      rw [hvalue, show natOfDigits [] = 0 from rfl, Nat.zero_mul, Number.ofDecimal_zero] at hread
      cases hread
      exact hp rfl
    have hfinite : Number.ofDecimal b (natOfDigits ds) (d.exponent + k) = .finite b p := by
      rw [← Number.ofDecimal_mul_pow, ← hvalue]
      exact (Number.ofDecimal_eq_finite_iff b false).mpr hread
    rw [← hfinite, hlength]
    split_ifs
    · have hplain := decimal_plain hdigits hsign ((ds.length + k : Nat) + d.exponent)
      have hexponent : ((ds.length + k : Nat) : Int) + d.exponent - ds.length = d.exponent + k := by
        omega
      rwa [hexponent] at hplain
    · have hscientific := decimal_scientific hdigits hsign hplus
        ((ds.length + k : Nat) + d.exponent - 1)
      have hexponent : ((ds.length + k : Nat) : Int) + d.exponent - 1 + 1 - ds.length
          = d.exponent + k := by
        omega
      rwa [hexponent] at hscientific

/-- **A written number** is a decimal that is read as it. -/
theorem decimal_finite {l : Layout} (hplus : Sign l.plus false) (b : Bool)
    (p : Fin finiteMagnitudes) : DecimalNumber (l.finite b p) (.finite b p) := by
  cases b with
  | true => exact decimal_magnitude hplus .minus p
  | false => exact decimal_magnitude hplus .none p

theorem point_mem_plain (ds : List Char) (e : Int) : '.' ∈ plain ds e := by
  unfold plain
  split_ifs <;> simp

theorem mark_mem_scientific (plus ds : List Char) (e : Int) : 'e' ∈ scientific plus ds e := by
  simp [scientific]

/-- A written number has a point or a power of ten. -/
theorem exists_mark_finite (l : Layout) (b : Bool) (p : Fin finiteMagnitudes) :
    ∃ c ∈ l.finite b p, c = '.' ∨ c = 'e' := by
  have hmagnitude : ∃ c ∈ l.magnitude p, c = '.' ∨ c = 'e' := by
    unfold magnitude
    generalize Decimal.shortest l.tie p = d
    split_ifs with hp
    · exact ⟨'.', by decide, .inl rfl⟩
    · dsimp only
      split_ifs
      · exact ⟨'.', point_mem_plain _ _, .inl rfl⟩
      · exact ⟨'e', mark_mem_scientific _ _ _, .inr rfl⟩
  obtain ⟨c, hc, hmark⟩ := hmagnitude
  refine ⟨c, ?_, hmark⟩
  unfold finite
  split_ifs
  · exact List.mem_cons_of_mem _ hc
  · exact hc

end Unstack.Layout
