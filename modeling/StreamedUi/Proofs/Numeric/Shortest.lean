import StreamedUi.Numeric.Shortest
import StreamedUi.Proofs.Numeric.Rounding

/-! Decimals that stand for a binary number. A decimal reads the same whether a zero ends its
coefficient or its exponent is one more (`Decimal.toBinary?_mul_pow`), so the shortest decimal of a
number reads back as the number (`Binary.toBinary?_shortest`). -/

namespace StreamedUi.Numeric

/-! ## Digits -/

theorem isDigit_of_mem_digitChars {n : Nat} {c : Char} (h : c ∈ digitChars n) :
    c.isDigit = true := Nat.isDigit_of_mem_toDigits (by decide) (by decide) h

theorem ofDigitChars_digitChars (n : Nat) : ofDigitChars (digitChars n) = n :=
  Nat.ofDigitChars_ten_toDigits

theorem digitCount_pos (n : Nat) : 0 < digitCount n := Nat.length_toDigits_pos

theorem digitCount_le_iff {n k : Nat} (hk : 0 < k) : digitCount n ≤ k ↔ n < 10 ^ k :=
  Nat.length_toDigits_le_iff (by decide) hk

theorem pow_digitCount_sub_one_le {n : Nat} (hn : n ≠ 0) : 10 ^ (digitCount n - 1) ≤ n := by
  by_cases h1 : digitCount n = 1
  · rw [h1]
    exact Nat.pos_of_ne_zero hn
  · have hpos := digitCount_pos n
    refine Nat.le_of_not_lt fun hlt => ?_
    have := (digitCount_le_iff (by omega)).2 hlt
    omega

/-- A number below `2 ^ p * 10 ^ k` has at most `p + k` digits. -/
theorem digitCount_sub_one_lt {n p k : Nat} (hn : n ≠ 0) (h : n < 2 ^ p * 10 ^ k) :
    digitCount n - 1 < p + k := by
  refine (Nat.pow_lt_pow_iff_right (by decide : 1 < 10)).1 ?_
  calc 10 ^ (digitCount n - 1) ≤ n := pow_digitCount_sub_one_le hn
    _ < 2 ^ p * 10 ^ k := h
    _ ≤ 10 ^ p * 10 ^ k := Nat.mul_le_mul_right _ (Nat.pow_le_pow_left (by decide) p)
    _ = 10 ^ (p + k) := (Nat.pow_add ..).symm

theorem digitCount_mul_pow {n : Nat} (hn : n ≠ 0) (k : Nat) :
    digitCount (n * 10 ^ k) = digitCount n + k := by
  induction k with
  | zero => rw [Nat.pow_zero, Nat.mul_one, Nat.add_zero]
  | succ k ih =>
    have hpos : 0 < n * 10 ^ k := Nat.mul_pos (Nat.pos_of_ne_zero hn) (Nat.pow_pos (by decide))
    have hzero := Nat.toDigits_append_toDigits (by decide : 1 < 10) hpos (by decide : 0 < 10)
    rw [Nat.pow_succ, ← Nat.mul_assoc, Nat.mul_comm _ 10, ← Nat.add_assoc, ← ih]
    exact (congrArg List.length hzero).symm.trans List.length_append

theorem stripZeros_mul_pow (n : Nat) : (stripZeros n).1 * 10 ^ (stripZeros n).2 = n := by
  induction n using stripZeros.induct with
  | case1 n h m k hmk ih =>
    rw [hmk] at ih
    rw [stripZeros, dif_pos h, hmk]
    show m * 10 ^ (k + 1) = n
    rw [Nat.pow_succ, ← Nat.mul_assoc, ih]
    omega
  | case2 n h =>
    rw [stripZeros, dif_neg h]
    exact Nat.mul_one n

/-- Only zero ends in a zero once its trailing zeros are gone. -/
theorem stripZeros_mod {n : Nat} (hn : n ≠ 0) : (stripZeros n).1 % 10 ≠ 0 := by
  induction n using stripZeros.induct with
  | case1 n h m k hmk ih =>
    have hm := ih (by omega)
    rw [stripZeros, dif_pos h, hmk]
    rwa [hmk] at hm
  | case2 n h =>
    rw [stripZeros, dif_neg h]
    exact fun hmod => h ⟨hn, hmod⟩

/-! ## Decimals -/

namespace Decimal

variable {F : Format}

theorem denominator_pos (d : Decimal) : 0 < d.denominator := Nat.pow_pos (by decide)

/-- The exact value. -/
def value (d : Decimal) : ℚ := d.coefficient * 10 ^ d.exponent

theorem value_eq (d : Decimal) : d.value = d.numerator / d.denominator := by
  obtain ⟨c, e⟩ := d
  obtain ⟨k, rfl | rfl⟩ := e.eq_nat_or_neg
  · simp [value, numerator, denominator]
  · simp [value, numerator, denominator, div_eq_mul_inv]

/-- Zeros at the end of the coefficient may as well be counted in the exponent. -/
theorem toBinary?_mul_pow (F : Format) (negative : Bool) (c k : Nat) (e : Int) :
    toBinary? F negative ⟨c * 10 ^ k, e⟩ = toBinary? F negative ⟨c, e + k⟩ := by
  by_cases hc : c = 0
  · subst hc
    simp [toBinary?]
  have hpow : 10 ^ k ≠ 0 := (Nat.pow_pos (by decide)).ne'
  have hpoint : point ⟨c * 10 ^ k, e⟩ = point ⟨c, e + k⟩ := by
    simp only [point, digitCount_mul_pow hc]
    omega
  have hround : Binary.round? F negative (numerator ⟨c * 10 ^ k, e⟩) (denominator ⟨c * 10 ^ k, e⟩) =
      Binary.round? F negative (numerator ⟨c, e + k⟩) (denominator ⟨c, e + k⟩) := by
    refine Binary.round?_congr F negative (denominator_pos _) (denominator_pos _) ?_
    simp only [numerator, denominator, Nat.pow_eq, Nat.mul_assoc, ← Nat.pow_add]
    congr 2
    omega
  simp only [toBinary?, Nat.mul_eq_zero, hc, hpow, or_self, false_or, hpoint, hround]

theorem toBinary?_normalize (F : Format) (negative : Bool) (d : Decimal) :
    d.normalize.toBinary? F negative = d.toBinary? F negative := by
  obtain ⟨c, e⟩ := d
  rw [← stripZeros_mul_pow c, toBinary?_mul_pow, stripZeros_mul_pow, normalize]

theorem toBinary?_sign (F : Format) (negative : Bool) (d : Decimal) :
    d.toBinary? F negative =
      (d.toBinary? F false).map fun x => { x with negative := negative } := by
  simp only [toBinary?]
  split_ifs
  · exact Binary.round?_sign ..
  · rfl
  · exact Binary.round?_sign ..

/-- A decimal that is read as a number other than zero has its point within bounds. -/
theorem round?_of_toBinary? {negative : Bool} {d : Decimal} {x : Binary F}
    (h : d.toBinary? F negative = some x) (hx : ¬x.isZero = true) :
    F.minExponent - 1 ≤ d.point ∧ d.point - 1 ≤ F.maxExponent + F.precision ∧
      Binary.round? F negative d.numerator d.denominator = some x := by
  unfold toBinary? at h
  split_ifs at h with hzero hhigh
  · rw [Binary.round?_zero, Binary.ofParts?] at h
    split at h
    · cases h
      exact absurd rfl hx
    · cases h
  · exact ⟨not_lt.1 fun hlow => hzero (.inr hlow), not_lt.1 hhigh, h⟩

end Decimal

/-! ## The decimals of a number -/

namespace Binary

variable {F : Format} {x : Binary F} {d : Decimal}

theorem round?_isZero (hx : x.isZero = true) : round? F x.negative 0 1 = some x := by
  obtain ⟨negative, m, e, hcanonical⟩ := x
  obtain rfl : m = 0 := eq_of_beq hx
  obtain rfl : e = F.minExponent := hcanonical.2.2.2 (Nat.two_pow_pos _)
  exact (round?_zero F negative).trans (dif_pos hcanonical)

/-- The exact value is within the bounds that a decimal must keep to be read as written. -/
theorem point_exactDecimal (hmin : F.minExponent ≤ 0) (hmax : 0 ≤ F.maxExponent)
    (hx : x.significand ≠ 0) :
    F.minExponent - 1 ≤ x.exactDecimal.point ∧
      x.exactDecimal.point - 1 ≤ F.maxExponent + F.precision := by
  obtain ⟨hwidth, hlow, hhigh, -⟩ := x.canonical
  unfold exactDecimal
  split
  next hexp =>
    have hne : x.significand * Nat.pow 2 x.exponent.toNat ≠ 0 :=
      Nat.mul_ne_zero hx (Nat.two_pow_pos _).ne'
    have hlt : x.significand * Nat.pow 2 x.exponent.toNat <
        2 ^ (F.precision + x.exponent.toNat) * 10 ^ 0 := by
      rw [Nat.pow_zero, Nat.mul_one, Nat.pow_add]
      exact Nat.mul_lt_mul_of_pos_right hwidth (Nat.two_pow_pos _)
    have := digitCount_sub_one_lt hne hlt
    have := digitCount_pos (x.significand * Nat.pow 2 x.exponent.toNat)
    simp only [Decimal.point]
    omega
  next hexp =>
    have hne : x.significand * Nat.pow 5 (-x.exponent).toNat ≠ 0 :=
      Nat.mul_ne_zero hx (Nat.pow_pos (by decide)).ne'
    have hlt : x.significand * Nat.pow 5 (-x.exponent).toNat <
        2 ^ F.precision * 10 ^ (-x.exponent).toNat :=
      calc x.significand * 5 ^ (-x.exponent).toNat
        _ ≤ x.significand * 10 ^ (-x.exponent).toNat :=
          Nat.mul_le_mul_left _ (Nat.pow_le_pow_left (by decide) _)
        _ < 2 ^ F.precision * 10 ^ (-x.exponent).toNat :=
          Nat.mul_lt_mul_of_pos_right hwidth (Nat.pow_pos (by decide))
    have := digitCount_sub_one_lt hne hlt
    have := digitCount_pos (x.significand * Nat.pow 5 (-x.exponent).toNat)
    simp only [Decimal.point]
    omega

theorem exactDecimal_cross (x : Binary F) :
    x.exactDecimal.numerator * x.denominator = x.numerator * x.exactDecimal.denominator := by
  simp only [exactDecimal, numerator, denominator]
  split
  next hexp =>
    have hneg : (-x.exponent).toNat = 0 := by omega
    simp [Decimal.numerator, Decimal.denominator, hneg]
  next hexp =>
    have hpos : x.exponent.toNat = 0 := by omega
    have hten : 10 ^ (-x.exponent).toNat = 5 ^ (-x.exponent).toNat * 2 ^ (-x.exponent).toNat :=
      Nat.mul_pow 5 2 _
    simp [Decimal.numerator, Decimal.denominator, hpos, hten, Nat.mul_assoc]

theorem toBinary?_exactDecimal (hmin : F.minExponent ≤ 0) (hmax : 0 ≤ F.maxExponent)
    (hx : x.significand ≠ 0) : x.exactDecimal.toBinary? F false = some x.abs := by
  obtain ⟨hlow, hhigh⟩ := point_exactDecimal hmin hmax hx
  have hne : x.exactDecimal.coefficient ≠ 0 := by
    unfold exactDecimal
    split
    · exact Nat.mul_ne_zero hx (Nat.two_pow_pos _).ne'
    · exact Nat.mul_ne_zero hx (Nat.pow_pos (by decide)).ne'
  rw [Decimal.toBinary?, if_neg (not_or.2 ⟨hne, not_lt.2 hlow⟩), if_neg (not_lt.2 hhigh),
    round?_congr F false (Decimal.denominator_pos _) x.denominator_pos (exactDecimal_cross x)]
  exact round?_self false x hx

theorem readsBack_of_decimalOf? {tie : Tie} {count : Nat} (h : x.decimalOf? tie count = some d) :
    x.readsBack d = true := by
  simp only [decimalOf?] at h
  split at h
  next => cases h
  next hlower _ => cases h; exact hlower
  next _ hupper => cases h; exact hupper
  next hlower hupper =>
    split at h
    next => cases h; exact hlower
    next => cases h; exact hupper
    next => cases h; split <;> assumption
    next => cases h; exact hupper

/-- The shortest decimal of a number, with the sign of the number, reads back as the number. -/
theorem toBinary?_shortest (hmin : F.minExponent ≤ 0) (hmax : 0 ≤ F.maxExponent) (tie : Tie)
    (x : Binary F) : (x.shortest tie).toBinary? F x.negative = some x := by
  by_cases hx : x.isZero = true
  · rw [shortest, if_pos hx]
    exact (if_pos (.inl rfl)).trans (round?_isZero hx)
  have hne : x.significand ≠ 0 := fun h0 => hx (beq_iff_eq.2 h0)
  have habs : (x.shortest tie).toBinary? F false = some x.abs := by
    rw [shortest, if_neg hx, Decimal.toBinary?_normalize]
    cases hfind : (List.range' 1 17).findSome? (x.decimalOf? tie) with
    | none => exact toBinary?_exactDecimal hmin hmax hne
    | some d =>
      obtain ⟨count, -, hcount⟩ := List.exists_of_findSome?_eq_some hfind
      exact of_decide_eq_true (readsBack_of_decimalOf? hcount)
  rw [Decimal.toBinary?_sign, habs]
  rfl

/-- Only zero has a shortest decimal without a digit that counts. -/
theorem isZero_of_coefficient_shortest (hmin : F.minExponent ≤ 0) (hmax : 0 ≤ F.maxExponent)
    {tie : Tie} (h : (x.shortest tie).coefficient = 0) : x.isZero = true := by
  have hread := toBinary?_shortest hmin hmax tie x
  rw [Decimal.toBinary?, if_pos (.inl h), round?_zero, ofParts?] at hread
  split at hread
  · exact beq_iff_eq.2 (congrArg significand (Option.some.inj hread)).symm
  · cases hread

theorem shortest_mod (hmin : F.minExponent ≤ 0) (hmax : 0 ≤ F.maxExponent)
    (tie : Tie) (hx : x.isZero = false) : (x.shortest tie).coefficient % 10 ≠ 0 := by
  have hne : (x.shortest tie).coefficient ≠ 0 := by
    intro h
    rw [isZero_of_coefficient_shortest hmin hmax h] at hx
    cases hx
  rw [shortest, hx, if_neg Bool.false_ne_true] at hne ⊢
  refine stripZeros_mod fun h => hne ?_
  rw [Decimal.normalize, h, stripZeros, dif_neg (by simp)]

end Binary

end StreamedUi.Numeric
