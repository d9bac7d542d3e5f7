import Unstack.Proofs.Number.Digits

/-! # Decimals read back

A decimal is read as the nearest number.

* **Scale.**  What a decimal is read as depends on its value only: zeros at the end of the digits
  can be traded for the exponent (`ofDecimal_mul_pow`).
* **Exactness.**  The exact expansion of a number is read as that number (`ofDecimal_exact`),
  because its units are hit without any rounding.
* **Shortest digits.**  So the shortest decimal that is read as a number always exists
  (`readsAs_shortest`). -/

namespace Unstack

namespace Number

/-! ### Rounding -/

theorem roundHalfEven_mul_right (n d : Nat) {c : Nat} (hc : 0 < c) :
    roundHalfEven (n * c) (d * c) = roundHalfEven n d := by
  have hlt : ∀ x y : Nat, x * c < y * c ↔ x < y := fun x y => Nat.mul_lt_mul_right hc
  simp only [roundHalfEven, Nat.mul_div_mul_right _ _ hc, Nat.mul_mod_mul_right, ← Nat.mul_assoc,
    hlt]

theorem roundHalfEven_mul_self (n : Nat) {d : Nat} (hd : 0 < d) : roundHalfEven (n * d) d = n := by
  simp [roundHalfEven, Nat.mul_div_cancel n hd, hd]

theorem shiftLeft_mul_right (d c s : Nat) : (d * c) <<< s = d <<< s * c := by
  rw [Nat.shiftLeft_eq, Nat.shiftLeft_eq, Nat.mul_right_comm]

theorem nearestPlace_mul_right (n d : Nat) {c : Nat} (hc : 0 < c) :
    nearestPlace (n * c) (d * c) = nearestPlace n d := by
  simp only [nearestPlace, Nat.mul_div_mul_right _ _ hc, shiftLeft_mul_right,
    roundHalfEven_mul_right _ _ hc]

/-! ### Places and units -/

theorem units_of_lt {p : Nat} (h : p < binade) : units p = p := by
  simp [units, significand, exponentAt, h, Nat.div_eq_of_lt h]

/-- From the second binade on a place is a binary exponent and a significand. -/
theorem units_of_le {p : Nat} (h : binade ≤ p) :
    units p = (binade + p % binade) * 2 ^ (p / binade - 1) := by
  rw [units, significand, if_neg (Nat.not_lt.mpr h), exponentAt, Nat.shiftLeft_eq]

theorem log2_of_lt_binade {p : Nat} (h : p < binade) : Nat.log2 p < 52 := by
  by_cases hp : p = 0
  · rw [hp]
    decide
  · exact (Nat.log2_lt hp).mpr h

theorem log2_units_of_le {p : Nat} (h : binade ≤ p) :
    Nat.log2 (units p) = 52 + (p / binade - 1) := by
  have hbinade : binade = 2 ^ 52 := by norm_num
  have hmod : p % binade < binade := Nat.mod_lt _ (by decide)
  have hpos : 0 < 2 ^ (p / binade - 1) := Nat.pow_pos (by decide)
  have hlow : 2 ^ (52 + (p / binade - 1)) ≤ units p := by
    rw [units_of_le h, Nat.pow_add, ← hbinade]
    exact Nat.mul_le_mul_right _ (Nat.le_add_right _ _)
  have hhigh : units p < 2 ^ (52 + (p / binade - 1) + 1) := by
    rw [units_of_le h, Nat.add_right_comm, Nat.pow_add, Nat.pow_succ, ← hbinade]
    exact (Nat.mul_lt_mul_right hpos).mpr (by omega)
  have hne : units p ≠ 0 := Nat.ne_of_gt (Nat.lt_of_lt_of_le (Nat.pow_pos (by decide)) hlow)
  exact (Nat.log2_eq_iff hne).mpr ⟨hlow, hhigh⟩

/-- A whole number of units that is a magnitude is not rounded. -/
theorem nearestPlace_units (p : Nat) {d : Nat} (hd : 0 < d) : nearestPlace (units p * d) d = p := by
  unfold nearestPlace
  dsimp only
  rw [Nat.mul_div_cancel _ hd]
  rcases Nat.lt_or_ge p binade with h | h
  · have hshift : Nat.log2 (units p) - 52 = 0 := by
      rw [units_of_lt h]
      exact Nat.sub_eq_zero_of_le (Nat.le_of_lt (log2_of_lt_binade h))
    rw [hshift, Nat.zero_mul, Nat.zero_add, Nat.shiftLeft_zero, roundHalfEven_mul_self _ hd,
      units_of_lt h]
  · have hpos : 0 < d * 2 ^ (p / binade - 1) := Nat.mul_pos hd (Nat.pow_pos (by decide))
    rw [log2_units_of_le h, Nat.add_sub_cancel_left, Nat.shiftLeft_eq, units_of_le h, Nat.mul_assoc,
      Nat.mul_comm (2 ^ (p / binade - 1)) d, roundHalfEven_mul_self _ hpos]
    have hdiv : 1 ≤ p / binade := (Nat.one_le_div_iff (by decide)).mpr h
    unfold binade at hdiv ⊢
    omega

/-! ### Decimals -/

theorem ofRatio_mul_right (negative : Bool) (n d : Nat) {c : Nat} (hc : 0 < c) :
    ofRatio negative (n * c) (d * c) = ofRatio negative n d := by
  rw [ofRatio, ofRatio, shiftLeft_mul_right, nearestPlace_mul_right _ _ hc]

theorem atPlace_val (b : Bool) (p : Fin finiteMagnitudes) : atPlace b p = .finite b p :=
  dif_pos p.isLt

theorem ofDecimal_zero (b : Bool) (e : Int) : ofDecimal b 0 e = atPlace b 0 := by
  unfold ofDecimal
  exact if_pos (Or.inl rfl)

/-- **Scale**: zeros at the end can be traded for the exponent. -/
theorem ofDecimal_mul_pow (negative : Bool) (n k : Nat) (e : Int) :
    ofDecimal negative (n * 10 ^ k) e = ofDecimal negative n (e + k) := by
  by_cases hn : n = 0
  · rw [hn, Nat.zero_mul, ofDecimal_zero, ofDecimal_zero]
  have hpow : ∀ j : Nat, 0 < 10 ^ j := fun j => Nat.pow_pos (by decide)
  have hne : n * 10 ^ k ≠ 0 := Nat.mul_ne_zero hn (Nat.ne_of_gt (hpow k))
  have hmagnitude : e + (decimalLength (n * 10 ^ k) : Int) = e + k + decimalLength n := by
    rw [decimalLength_mul_pow hn]
    omega
  unfold ofDecimal
  dsimp only
  rw [hmagnitude]
  simp only [hn, hne, false_or]
  split_ifs with hsmall hlarge he hek hek
  · rfl
  · rfl
  · -- Both exponents are powers of ten above the point.
    obtain ⟨m, rfl⟩ := Int.eq_ofNat_of_zero_le he
    congr 1
    show n * 10 ^ k * 10 ^ m = n * 10 ^ (m + k)
    rw [Nat.mul_assoc, ← Nat.pow_add, Nat.add_comm k]
  · omega
  · -- The zeros reach over the point.
    obtain ⟨m, hm⟩ := Int.eq_ofNat_of_zero_le hek
    have hk : k = m + (-e).toNat := by omega
    have hm' : (e + k).toNat = m := by omega
    show ofRatio negative (n * 10 ^ k) (10 ^ (-e).toNat)
      = ofRatio negative (n * 10 ^ (e + k).toNat) 1
    rw [hm', ← ofRatio_mul_right negative (n * 10 ^ m) 1 (hpow (-e).toNat), Nat.one_mul,
      Nat.mul_assoc, ← Nat.pow_add, ← hk]
  · have hsum : (-e).toNat = (-(e + k)).toNat + k := by omega
    show ofRatio negative (n * 10 ^ k) (10 ^ (-e).toNat)
      = ofRatio negative n (10 ^ (-(e + k)).toNat)
    rw [hsum, Nat.pow_add, ofRatio_mul_right negative _ _ (hpow k)]

/-- The sign of a decimal is the sign of what it is read as. -/
theorem ofDecimal_eq_finite_iff {n : Nat} {e : Int} {p : Fin finiteMagnitudes} (b c : Bool) :
    ofDecimal b n e = .finite b p ↔ ofDecimal c n e = .finite c p := by
  have hplace : ∀ q, atPlace b q = .finite b p ↔ atPlace c q = .finite c p := by
    intro q
    unfold atPlace
    split_ifs <;> simp
  unfold ofDecimal ofRatio
  dsimp only
  split_ifs <;> simp [hplace]

/-! ### Exact expansions -/

theorem units_pos {p : Nat} (h : p ≠ 0) : 0 < units p := by
  rcases Nat.lt_or_ge p binade with hp | hp
  · rw [units_of_lt hp]
    exact Nat.pos_of_ne_zero h
  · rw [units_of_le hp]
    exact Nat.mul_pos (Nat.add_pos_left (by decide) _) (Nat.pow_pos (by decide))

theorem units_lt {p k : Nat} (h : p < finiteMagnitudes) (hk : k = 2098) : units p < 2 ^ k := by
  have hlog : Nat.log2 (units p) + 1 ≤ k := by
    rcases Nat.lt_or_ge p binade with hp | hp
    · rw [units_of_lt hp]
      have := log2_of_lt_binade hp
      omega
    · rw [log2_units_of_le hp]
      unfold finiteMagnitudes binade at h
      unfold binade
      omega
  exact Nat.lt_of_lt_of_le Nat.lt_log2_self (Nat.pow_le_pow_right (by decide) hlog)

/-- The exact expansion is within the range of decimals that are rounded at all. -/
theorem decimalLength_exact {p k : Nat} (hp : p ≠ 0) (hlt : p < finiteMagnitudes) (hk : k = 1074) :
    749 ≤ decimalLength (units p * 5 ^ k) ∧ decimalLength (units p * 5 ^ k) ≤ 1384 := by
  have hfive : 0 < 5 ^ k := Nat.pow_pos (by decide)
  have hne : units p * 5 ^ k ≠ 0 := Nat.ne_of_gt (Nat.mul_pos (units_pos hp) hfive)
  constructor
  · apply Nat.le_of_lt
    apply lt_decimalLength_of_pow_le
    calc 10 ^ 749 ≤ 5 ^ k := by subst hk; decide +kernel
      _ = 1 * 5 ^ k := (Nat.one_mul _).symm
      _ ≤ units p * 5 ^ k := Nat.mul_le_mul_right _ (units_pos hp)
  · obtain ⟨j, hj⟩ : ∃ j : Nat, j = 2098 := ⟨_, rfl⟩
    apply decimalLength_le_of_lt_pow hne
    calc units p * 5 ^ k < 2 ^ j * 5 ^ k := (Nat.mul_lt_mul_right hfive).mpr (units_lt hlt hj)
      _ ≤ 10 ^ 1384 := by subst hj hk; decide +kernel

theorem ofRatio_units (b : Bool) (p : Fin finiteMagnitudes) {k : Nat} (hk : k = 1074) :
    ofRatio b (units p * 5 ^ k) (10 ^ k) = .finite b p := by
  have hten : 10 ^ k = 5 ^ k * 2 ^ k := by rw [← Nat.mul_pow]
  have hpos : 0 < 5 ^ k * 2 ^ k := Nat.mul_pos (Nat.pow_pos (by decide)) (Nat.pow_pos (by decide))
  rw [ofRatio, Nat.shiftLeft_eq, ← hk, hten, Nat.mul_assoc, nearestPlace_units p hpos, atPlace_val]

/-- **Exactness**: the exact expansion of a magnitude is read as it. -/
theorem ofDecimal_exact (b : Bool) (p : Fin finiteMagnitudes) :
    ofDecimal b (Decimal.exact p).digits (Decimal.exact p).exponent = .finite b p := by
  -- The power of ten becomes a variable, so that nothing tries to compute it.
  obtain ⟨k, hk⟩ : ∃ k : Nat, k = 1074 := ⟨_, rfl⟩
  have hexact : Decimal.exact p = ⟨units p * 5 ^ k, -k⟩ := by
    have hexponent : (-1074 : Int) = -k := by omega
    show Decimal.exact p = ⟨units p * Nat.pow 5 k, -k⟩
    rw [Decimal.exact, hexponent, ← hk]
  rw [hexact]
  by_cases hp : p.val = 0
  · rw [hp, units_of_lt (by decide), Nat.zero_mul, ofDecimal_zero, ← hp, atPlace_val]
  obtain ⟨hlow, hhigh⟩ := decimalLength_exact hp p.isLt hk
  have hne : units p * 5 ^ k ≠ 0 :=
    Nat.ne_of_gt (Nat.mul_pos (units_pos hp) (Nat.pow_pos (by decide)))
  unfold ofDecimal
  dsimp only
  rw [if_neg (by omega), if_neg (by omega), if_neg (by omega), Int.neg_neg]
  exact ofRatio_units b p hk

end Number

/-! ### Shortest digits -/

namespace Decimal

theorem readsAs_iff {d : Decimal} {p : Fin finiteMagnitudes} :
    d.readsAs p = true ↔ Number.ofDecimal false d.digits d.exponent = .finite false p :=
  beq_iff_eq

theorem readsAs_of_withDigits? {tie : Tie} {p : Fin finiteMagnitudes} {full d : Decimal}
    {length count : Nat} (h : withDigits? tie p full length count = some d) :
    d.readsAs p = true := by
  unfold withDigits? at h
  dsimp only at h
  split at h
  · rename_i hlower hupper
    cases h
    split_ifs
    · exact hupper
    · exact hlower
  · rename_i hlower _
    cases h
    exact hlower
  · rename_i _ hupper
    cases h
    exact hupper
  · cases h

/-- **Shortest digits** are read as the magnitude they are taken from. -/
theorem readsAs_shortest (tie : Tie) (p : Fin finiteMagnitudes) :
    (shortest tie p).readsAs p = true := by
  unfold shortest
  dsimp only
  cases hfound : (List.range 17).findSome? fun n =>
      withDigits? tie p (exact p) (Number.decimalLength (exact p).digits) (n + 1) with
  | none => exact readsAs_iff.mpr (Number.ofDecimal_exact false p)
  | some d =>
      obtain ⟨n, -, hn⟩ := List.exists_of_findSome?_eq_some hfound
      exact readsAs_of_withDigits? hn

end Decimal

end Unstack
