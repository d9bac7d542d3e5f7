import Mathlib.Data.List.Basic
import Unstack.Proofs.Reading.Grammar

/-! # What symbols stand for

The functions that read integers, decimals and symbols give exactly what the grammar says
(`readInt_eq_some_iff`, `readStrict_eq_some_iff`, `denotes_iff`).  Numerals start with a sign or a
digit and have no delimiters, so they are symbols and no names of constants. -/

namespace Unstack.Grammar

variable {cs ds text rest : List Char} {c : Char} {b : Bool}

/-! ### Signs and digits -/

theorem sign_of_splitSign (h : Numeral.splitSign cs = (b, rest)) :
    ∃ sign, Sign sign b ∧ cs = sign ++ rest := by
  unfold Numeral.splitSign at h
  split at h <;> cases h
  · exact ⟨_, .minus, rfl⟩
  · exact ⟨_, .plus, rfl⟩
  · exact ⟨_, .none, rfl⟩

/-- A sign is found in front of what does not start with one. -/
theorem splitSign_append (h : Sign text b) (hplus : rest.head? ≠ some '+')
    (hminus : rest.head? ≠ some '-') : Numeral.splitSign (text ++ rest) = (b, rest) := by
  cases h with
  | plus => rfl
  | minus => rfl
  | none =>
      unfold Numeral.splitSign
      split
      · rename_i heq
        exact absurd (congrArg List.head? heq) hminus
      · rename_i heq
        exact absurd (congrArg List.head? heq) hplus
      · rfl

/-- A digit is none of the marks of numerals. -/
theorem ne_of_isDigit (h : c.isDigit = true) (d : Char) (hd : d.isDigit = false) : c ≠ d := by
  rintro rfl
  rw [hd] at h
  cases h

theorem Digits.head?_ne (h : Digits ds) (text : List Char) (d : Char) (hd : d.isDigit = false) :
    (ds ++ text).head? ≠ some d := by
  obtain ⟨hne, hall⟩ := h
  cases ds with
  | nil => exact absurd rfl hne
  | cons c ds =>
      intro he
      exact ne_of_isDigit (hall c List.mem_cons_self) d hd (Option.some.inj he)

theorem splitSign_digits (h : Sign text b) (hds : Digits ds) (rest : List Char) :
    Numeral.splitSign (text ++ (ds ++ rest)) = (b, ds ++ rest) :=
  splitSign_append h (hds.head?_ne rest '+' rfl) (hds.head?_ne rest '-' rfl)

theorem digits_iff : Digits ds ↔ ds ≠ [] ∧ ds.all Char.isDigit = true := by
  rw [Digits, List.all_eq_true]

/-- A run of digits ends where a character follows that is none. -/
theorem span_digits (hds : ∀ c ∈ ds, c.isDigit = true)
    (hrest : ∀ c, rest.head? = some c → c.isDigit = false) :
    (ds ++ rest).takeWhile Char.isDigit = ds ∧ (ds ++ rest).dropWhile Char.isDigit = rest := by
  have hstop : rest.takeWhile Char.isDigit = [] ∧ rest.dropWhile Char.isDigit = rest := by
    cases rest with
    | nil => exact ⟨rfl, rfl⟩
    | cons c rest =>
        have hc := hrest c rfl
        simp [hc]
  rw [List.takeWhile_append_of_pos hds, List.dropWhile_append_of_pos hds, hstop.1, hstop.2,
    List.append_nil]
  exact ⟨rfl, rfl⟩

/-! ### Integers -/

theorem readInt_eq_some_iff {n : Int64} : Leaf.readInt cs = some n ↔ Integer cs n := by
  constructor
  · intro h
    obtain ⟨⟨b, ds⟩, hsplit⟩ : ∃ p, Numeral.splitSign cs = p := ⟨_, rfl⟩
    obtain ⟨sign, hsign, rfl⟩ := sign_of_splitSign hsplit
    unfold Leaf.readInt at h
    rw [hsplit] at h
    obtain ⟨⟨hne, hall, hmin, hmax⟩, hn⟩ := Option.ite_none_right_eq_some.mp h
    refine ⟨sign, b, ds, hsign, digits_iff.mpr ⟨hne, hall⟩, rfl, ?_⟩
    rw [← Option.some.inj hn,
      Int64.toInt_ofInt_of_le hmin (Int.lt_of_le_of_lt hmax (by decide))]
    rfl
  · rintro ⟨sign, b, ds, hsign, hds, rfl, hn⟩
    have hsplit := splitSign_digits hsign hds []
    rw [List.append_nil] at hsplit
    obtain ⟨hne, hall⟩ := digits_iff.mp hds
    unfold signed at hn
    unfold Leaf.readInt
    rw [hsplit]
    dsimp only
    rw [← hn, if_pos ⟨hne, hall, Int64.minValue_le_toInt n, Int64.toInt_le n⟩, Int64.ofInt_toInt]

/-! ### Decimals -/

theorem isDigit_of_mem_takeWhile (h : c ∈ cs.takeWhile Char.isDigit) : c.isDigit = true :=
  List.all_eq_true.mp (List.all_takeWhile) c h

theorem fraction_of_splitFraction (h : Numeral.splitFraction cs = (ds, rest)) :
    ∃ fraction, Fraction fraction ds ∧ cs = fraction ++ rest := by
  unfold Numeral.splitFraction at h
  split at h <;> cases h
  · refine ⟨_, .point fun c => isDigit_of_mem_takeWhile, ?_⟩
    rw [List.cons_append, List.takeWhile_append_dropWhile]
  · exact ⟨_, .none, rfl⟩

theorem readExponent_eq_some_iff {e : Int} : Numeral.readExponent cs = some e ↔ Power cs e := by
  constructor
  · intro h
    cases cs with
    | nil =>
        cases h
        exact .none
    | cons c cs =>
        obtain ⟨⟨b, ds⟩, hsplit⟩ : ∃ p, Numeral.splitSign cs = p := ⟨_, rfl⟩
        obtain ⟨sign, hsign, rfl⟩ := sign_of_splitSign hsplit
        unfold Numeral.readExponent at h
        dsimp only at h
        rw [hsplit] at h
        obtain ⟨⟨hc, hne, hall⟩, he⟩ := Option.ite_none_right_eq_some.mp h
        rw [← Option.some.inj he]
        exact .mark hc hsign (digits_iff.mpr ⟨hne, hall⟩)
  · intro h
    cases h with
    | none => rfl
    | mark hc hsign hds =>
        rename_i c sign ds b
        have hsplit := splitSign_digits hsign hds []
        rw [List.append_nil] at hsplit
        obtain ⟨hne, hall⟩ := digits_iff.mp hds
        unfold Numeral.readExponent
        dsimp only
        rw [hsplit]
        dsimp only
        rw [if_pos ⟨hc, hne, hall⟩]
        rfl

/-- A power of ten starts with its mark. -/
theorem Power.head {e : Int} (h : Power text e) (hc : text.head? = some c) : c = 'e' ∨ c = 'E' := by
  cases h with
  | none => cases hc
  | mark hmark =>
      cases hc
      exact hmark

theorem splitFraction_append {e : Int} (h : Fraction text ds) (hpower : Power rest e) :
    Numeral.splitFraction (text ++ rest) = (ds, rest) := by
  have hdigit : ∀ c, rest.head? = some c → c.isDigit = false := by
    intro c hc
    rcases hpower.head hc with rfl | rfl <;> rfl
  cases h with
  | point hds =>
      obtain ⟨htake, hdrop⟩ := span_digits hds hdigit
      show ((ds ++ rest).takeWhile Char.isDigit, (ds ++ rest).dropWhile Char.isDigit) = _
      rw [htake, hdrop]
  | none =>
      unfold Numeral.splitFraction
      split
      · rename_i heq
        have hc : rest.head? = some '.' := by
          rw [← List.nil_append rest, heq]
          rfl
        rcases hpower.head hc with h | h <;> cases h
      · rfl

theorem readStrict_eq_some_iff {x : Number} :
    Numeral.readStrict cs = some x ↔ DecimalNumber cs x := by
  constructor
  · intro h
    obtain ⟨n, hscan, hn⟩ := Option.bind_eq_some_iff.mp h
    obtain ⟨hwhole, hn⟩ := Option.ite_none_left_eq_some.mp hn
    obtain ⟨⟨b, body⟩, hsplit⟩ : ∃ p, Numeral.splitSign cs = p := ⟨_, rfl⟩
    obtain ⟨⟨ds, power⟩, hpoint⟩ : ∃ p, Numeral.splitFraction (body.dropWhile Char.isDigit) = p :=
      ⟨_, rfl⟩
    unfold Numeral.scan at hscan
    rw [hsplit] at hscan
    dsimp only at hscan
    rw [hpoint] at hscan
    obtain ⟨e, he, rfl⟩ := Option.map_eq_some_iff.mp hscan
    obtain ⟨sign, hsign, rfl⟩ := sign_of_splitSign hsplit
    obtain ⟨fraction, hfraction, hrest⟩ := fraction_of_splitFraction hpoint
    refine ⟨sign, b, body.takeWhile Char.isDigit, fraction, ds, power, e, hsign,
      ⟨hwhole, fun c => isDigit_of_mem_takeWhile⟩, hfraction, readExponent_eq_some_iff.mp he, ?_,
      (Option.some.inj hn).symm⟩
    rw [List.append_assoc, List.append_assoc, ← hrest, List.takeWhile_append_dropWhile]
  · rintro ⟨sign, b, whole, fraction, ds, power, e, hsign, hwhole, hfraction, hpower, rfl, rfl⟩
    have hstop : ∀ c, (fraction ++ power).head? = some c → c.isDigit = false := by
      intro c hc
      cases hfraction with
      | none => rcases hpower.head hc with rfl | rfl <;> rfl
      | point _ =>
          cases hc
          rfl
    have hsplit := splitSign_digits hsign hwhole (fraction ++ power)
    obtain ⟨htake, hdrop⟩ := span_digits hwhole.2 hstop
    have hscan : Numeral.scan (sign ++ whole ++ fraction ++ power) = some ⟨b, whole, ds, e⟩ := by
      unfold Numeral.scan
      rw [List.append_assoc, List.append_assoc, hsplit]
      dsimp only
      rw [htake, hdrop, splitFraction_append hfraction hpower]
      dsimp only
      rw [readExponent_eq_some_iff.mpr hpower]
      rfl
    unfold Numeral.readStrict
    rw [hscan, Option.bind_some, if_neg hwhole.1]
    rfl

/-! ### Symbols -/

theorem not_constant_iff : (∀ l, ¬Constant cs l) ↔
    cs ≠ ['t', 'r', 'u', 'e'] ∧ cs ≠ ['f', 'a', 'l', 's', 'e'] ∧ cs ≠ ['n', 'i', 'l'] := by
  constructor
  · intro h
    refine ⟨?_, ?_, ?_⟩
    · rintro rfl
      exact h _ .true
    · rintro rfl
      exact h _ .false
    · rintro rfl
      exact h _ .nil
  · rintro ⟨h₁, h₂, h₃⟩ l hl
    cases hl with
    | true => exact h₁ rfl
    | false => exact h₂ rfl
    | nil => exact h₃ rfl

theorem denotes_ofSymbol (cs : List Char) : Denotes cs (.ofSymbol cs) := by
  unfold Leaf.ofSymbol
  split_ifs with h₁ h₂ h₃
  · exact .constant (h₁ ▸ .true)
  · exact .constant (h₂ ▸ .false)
  · exact .constant (h₃ ▸ .nil)
  · have hname := not_constant_iff.mpr ⟨h₁, h₂, h₃⟩
    cases hint : Leaf.readInt cs with
    | some n => exact .integer hname (readInt_eq_some_iff.mp hint)
    | none =>
        have hno : ∀ n, ¬Integer cs n := by
          intro n hn
          rw [readInt_eq_some_iff.mpr hn] at hint
          cases hint
        cases hdec : Numeral.readStrict cs with
        | some x => exact .decimal hname hno (readStrict_eq_some_iff.mp hdec)
        | none =>
            refine .text hname hno fun x hx => ?_
            rw [readStrict_eq_some_iff.mpr hx] at hdec
            cases hdec

theorem Integer.unique {m n : Int64} (h : Integer cs m) (h' : Integer cs n) : m = n :=
  Option.some.inj ((readInt_eq_some_iff.mpr h).symm.trans (readInt_eq_some_iff.mpr h'))

theorem DecimalNumber.unique {x y : Number} (h : DecimalNumber cs x) (h' : DecimalNumber cs y) :
    x = y :=
  Option.some.inj ((readStrict_eq_some_iff.mpr h).symm.trans (readStrict_eq_some_iff.mpr h'))

theorem Denotes.unique {l m : Leaf} (h : Denotes cs l) (h' : Denotes cs m) : l = m := by
  cases h with
  | constant h =>
      cases h' with
      | constant h' => cases h <;> cases h' <;> rfl
      | integer hname => exact absurd h (hname _)
      | decimal hname => exact absurd h (hname _)
      | text hname => exact absurd h (hname _)
  | integer hname hint =>
      cases h' with
      | constant h' => exact absurd h' (hname _)
      | integer _ hint' => rw [hint.unique hint']
      | decimal _ hno => exact absurd hint (hno _)
      | text _ hno => exact absurd hint (hno _)
  | decimal hname hno hdec =>
      cases h' with
      | constant h' => exact absurd h' (hname _)
      | integer _ hint => exact absurd hint (hno _)
      | decimal _ _ hdec' => rw [hdec.unique hdec']
      | text _ _ hno' => exact absurd hdec (hno' _)
  | text hname hno hno' =>
      cases h' with
      | constant h' => exact absurd h' (hname _)
      | integer _ hint => exact absurd hint (hno _)
      | decimal _ _ hdec => exact absurd hdec (hno' _)
      | text => rfl

/-- **Every symbol** stands for one leaf, the one that the reader takes it for. -/
theorem denotes_iff {l : Leaf} : Denotes cs l ↔ Leaf.ofSymbol cs = l := by
  constructor
  · exact fun h => (denotes_ofSymbol cs).unique h
  · rintro rfl
    exact denotes_ofSymbol cs

/-! ### Characters of numerals -/

/-- A character that integers are made of. -/
def IntegerChar (c : Char) : Prop := c.isDigit = true ∨ c = '+' ∨ c = '-'

theorem Sign.integerChar (h : Sign text b) (hc : c ∈ text) : IntegerChar c := by
  cases h with
  | none => cases hc
  | plus => exact .inr (.inl (List.mem_singleton.mp hc))
  | minus => exact .inr (.inr (List.mem_singleton.mp hc))

theorem Integer.integerChar {n : Int64} (h : Integer cs n) (hc : c ∈ cs) : IntegerChar c := by
  obtain ⟨sign, b, ds, hsign, hds, rfl, -⟩ := h
  rcases List.mem_append.mp hc with hc | hc
  · exact hsign.integerChar hc
  · exact .inl (hds.2 c hc)

theorem Power.char {e : Int} (h : Power text e) (hc : c ∈ text) :
    IntegerChar c ∨ c = 'e' ∨ c = 'E' := by
  cases h with
  | none => cases hc
  | mark hmark hsign hds =>
      rcases List.mem_cons.mp hc with rfl | hc
      · exact .inr hmark
      rcases List.mem_append.mp hc with hc | hc
      · exact .inl (hsign.integerChar hc)
      · exact .inl (.inl (hds.2 c hc))

theorem Fraction.char (h : Fraction text ds) (hc : c ∈ text) : IntegerChar c ∨ c = '.' := by
  cases h with
  | none => cases hc
  | point hds =>
      rcases List.mem_cons.mp hc with rfl | hc
      · exact .inr rfl
      · exact .inl (.inl (hds c hc))

theorem not_delimiter_of_isDigit (h : c.isDigit = true) : ¬Delimiter c := by
  have hrange : 48 ≤ c.toNat ∧ c.toNat ≤ 57 := by
    rw [Char.isDigit, Bool.and_eq_true, decide_eq_true_iff, decide_eq_true_iff] at h
    exact h
  rintro (hblank | rfl | rfl | rfl | rfl)
  · have hcases := (Text.inRanges_iff _ c).mp hblank
    simp only [Text.blankRanges, List.exists_mem_cons_iff, List.not_mem_nil, false_and,
      exists_false, or_false] at hcases
    omega
  all_goals cases h

theorem IntegerChar.not_delimiter (h : IntegerChar c) : ¬Delimiter c := by
  rcases h with h | rfl | rfl
  · exact not_delimiter_of_isDigit h
  · decide
  · decide

theorem DecimalNumber.char {x : Number} (h : DecimalNumber cs x) (hc : c ∈ cs) :
    IntegerChar c ∨ c = '.' ∨ c = 'e' ∨ c = 'E' := by
  obtain ⟨sign, b, whole, fraction, ds, power, e, hsign, hwhole, hfraction, hpower, rfl, -⟩ := h
  rcases List.mem_append.mp hc with hc | hc
  · rcases List.mem_append.mp hc with hc | hc
    · rcases List.mem_append.mp hc with hc | hc
      · exact .inl (hsign.integerChar hc)
      · exact .inl (.inl (hwhole.2 c hc))
    · exact (hfraction.char hc).imp_right .inl
  · exact (hpower.char hc).imp_right .inr

/-- Numerals are symbols. -/
theorem DecimalNumber.not_delimiter {x : Number} (h : DecimalNumber cs x) (hc : c ∈ cs) :
    ¬Delimiter c := by
  rcases h.char hc with hc | rfl | rfl | rfl
  · exact hc.not_delimiter
  all_goals decide

/-- A sign and digits start like an integer, whatever follows. -/
theorem exists_head_of_digits (hsign : Sign text b) (hds : Digits ds) (rest : List Char) :
    ∃ c tail, text ++ (ds ++ rest) = c :: tail ∧ IntegerChar c := by
  cases hsign with
  | plus => exact ⟨_, _, rfl, .inr (.inl rfl)⟩
  | minus => exact ⟨_, _, rfl, .inr (.inr rfl)⟩
  | none =>
      obtain ⟨hne, hall⟩ := hds
      cases ds with
      | nil => exact absurd rfl hne
      | cons d ds => exact ⟨d, ds ++ rest, rfl, .inl (hall d List.mem_cons_self)⟩

theorem Integer.exists_head {n : Int64} (h : Integer cs n) :
    ∃ c tail, cs = c :: tail ∧ IntegerChar c := by
  obtain ⟨sign, b, ds, hsign, hds, rfl, -⟩ := h
  simpa using exists_head_of_digits hsign hds []

theorem DecimalNumber.exists_head {x : Number} (h : DecimalNumber cs x) :
    ∃ c tail, cs = c :: tail ∧ IntegerChar c := by
  obtain ⟨sign, b, whole, fraction, ds, power, e, hsign, hwhole, hfraction, hpower, rfl, -⟩ := h
  simpa using exists_head_of_digits hsign hwhole (fraction ++ power)

/-- The names of constants start with letters. -/
theorem not_constant_of_head (h : IntegerChar c) (l : Leaf) : ¬Constant (c :: cs) l := by
  intro hname
  cases hname <;> rcases h with h | h | h <;> revert h <;> decide

theorem Integer.ne_nil {n : Int64} (h : Integer cs n) : cs ≠ [] := by
  obtain ⟨c, tail, rfl, -⟩ := h.exists_head
  exact List.cons_ne_nil c tail

theorem DecimalNumber.ne_nil {x : Number} (h : DecimalNumber cs x) : cs ≠ [] := by
  obtain ⟨c, tail, rfl, -⟩ := h.exists_head
  exact List.cons_ne_nil c tail

theorem Integer.denotes {n : Int64} (h : Integer cs n) : Denotes cs (.int n) := by
  refine .integer ?_ h
  obtain ⟨c, tail, rfl, hc⟩ := h.exists_head
  exact not_constant_of_head hc

theorem DecimalNumber.denotes {x : Number} (h : DecimalNumber cs x) (hno : ∀ n, ¬Integer cs n) :
    Denotes cs (.number x) := by
  refine .decimal ?_ hno h
  obtain ⟨c, tail, rfl, hc⟩ := h.exists_head
  exact not_constant_of_head hc

end Unstack.Grammar
