import StreamedUi.Proofs.Json.Numeral
import StreamedUi.Proofs.Numeric.Scale

/-! Floats that are read. A reader takes the leading digits of a number, as many as a word holds,
and scales them. What it scales is not more than the number (`Numeral.significand_le`), so the text
of a float is in range: the numeral of each number means a number (`Number.number?_numeral`). An
integer is read as itself, and a float as itself or as a float near by (`Number.reread`). -/

namespace StreamedUi.Json
open Numeric

namespace Numeral

variable {n : Numeral} {s : Nat} {cs : List Char}

/-! ## The digits that are taken -/

theorem takeDigits_lt (hs : s < 2 ^ 64) (cs : List Char) : (takeDigits s cs).1 < 2 ^ 64 := by
  induction cs generalizing s with
  | nil => exact hs
  | cons c cs ih =>
    simp only [takeDigits]
    split
    · next h => exact ih h
    · exact hs

/-- The digits that are left only add to the number. -/
theorem takeDigits_le (s : Nat) (cs : List Char) :
    (takeDigits s cs).2 ≤ cs.length ∧
      (takeDigits s cs).1 * 10 ^ (cs.length - (takeDigits s cs).2) ≤ Nat.ofDigitChars 10 cs s := by
  induction cs generalizing s with
  | nil => exact ⟨le_rfl, (Nat.mul_one s).le⟩
  | cons c cs ih =>
    simp only [takeDigits]
    split
    · obtain ⟨hcount, hle⟩ := ih (10 * s + (c.toNat - '0'.toNat))
      refine ⟨Nat.succ_le_succ hcount, ?_⟩
      rw [List.length_cons, Nat.add_sub_add_right, Nat.ofDigitChars_cons]
      exact hle
    · refine ⟨Nat.zero_le _, ?_⟩
      rw [Nat.sub_zero, Nat.ofDigitChars_eq_ofDigitChars_zero, Nat.mul_comm]
      exact Nat.le_add_right _ _

/-- All digits are taken of a number that a word holds. -/
theorem takeDigits_of_lt (h : Nat.ofDigitChars 10 cs s < 2 ^ 64) :
    takeDigits s cs = (Nat.ofDigitChars 10 cs s, cs.length) := by
  induction cs generalizing s with
  | nil => rfl
  | cons c cs ih =>
    rw [Nat.ofDigitChars_cons] at h
    have hnext : 10 * s + (c.toNat - '0'.toNat) < Nat.pow 2 64 := by
      apply lt_of_le_of_lt _ h
      rw [Nat.ofDigitChars_eq_ofDigitChars_zero]
      exact (Nat.le_mul_of_pos_left _ (Nat.pow_pos (by decide))).trans (Nat.le_add_right _ _)
    simp only [takeDigits, if_pos hnext, ih h, Nat.ofDigitChars_cons, List.length_cons]

theorem length_placeDigits (n : Numeral) : n.placeDigits.length = n.places := by
  simp only [placeDigits, List.length_drop, List.length_append, List.length_replicate]
  omega

/-- The digits after the point stand for the rest that dividing leaves. -/
theorem ofDigitChars_placeDigits (n : Numeral) (whole : Nat) :
    Nat.ofDigitChars 10 n.placeDigits whole =
      10 ^ n.places * whole + n.coefficient % 10 ^ n.places := by
  rcases Nat.eq_zero_or_pos n.places with hzero | hpos
  · have hnone : n.placeDigits = [] := by
      rw [← List.length_eq_zero_iff, length_placeDigits, hzero]
    rw [hnone, hzero, Nat.pow_zero, Nat.one_mul, Nat.mod_one]
    rfl
  have hcount : digitCount (n.coefficient % 10 ^ n.places) ≤ n.places :=
    (digitCount_le_iff hpos).2 (Nat.mod_lt _ (Nat.pow_pos (by decide)))
  have hdigits : n.placeDigits =
      List.replicate (n.places - digitCount (n.coefficient % 10 ^ n.places)) '0' ++
        digitChars (n.coefficient % 10 ^ n.places) := by
    refine (List.drop_append_of_le_length (by rwa [List.length_replicate])).trans ?_
    rw [List.drop_replicate]
    rfl
  rw [hdigits, Nat.ofDigitChars_append, Nat.ofDigitChars_replicate_zero,
    Nat.ofDigitChars_eq_ofDigitChars_zero, digitChars, Nat.ofDigitChars_ten_toDigits,
    ← Nat.mul_assoc, ← Nat.pow_add]
  congr 3
  exact Nat.add_sub_cancel' hcount

/-- The digits that are taken stand for no more than the number. -/
theorem significand_le (h : n.coefficient / 10 ^ n.places < 2 ^ 64) :
    n.significand.1 < 2 ^ 64 ∧
      (n.significand.1 : ℚ) * 10 ^ n.significand.2 ≤ n.coefficient * 10 ^ (-(n.places : ℤ)) := by
  have hvalue : Nat.ofDigitChars 10 n.wholeDigits 0 = n.coefficient / 10 ^ n.places :=
    Nat.ofDigitChars_ten_toDigits
  have hwhole : takeDigits 0 n.wholeDigits =
      (n.coefficient / 10 ^ n.places, n.wholeDigits.length) :=
    hvalue ▸ takeDigits_of_lt (hvalue ▸ h)
  have hlt := takeDigits_lt h n.placeDigits
  obtain ⟨hcount, hle⟩ := takeDigits_le (n.coefficient / 10 ^ n.places) n.placeDigits
  rw [length_placeDigits] at hcount
  rw [length_placeDigits, ofDigitChars_placeDigits, Nat.div_add_mod] at hle
  have hsignificand : n.significand =
      ((takeDigits (n.coefficient / 10 ^ n.places) n.placeDigits).1,
        -((takeDigits (n.coefficient / 10 ^ n.places) n.placeDigits).2 : ℤ)) := by
    simp only [significand, hwhole]
    rw [Nat.sub_self, Nat.cast_zero, zero_sub]
  rw [hsignificand]
  generalize takeDigits (n.coefficient / 10 ^ n.places) n.placeDigits = taken at *
  refine ⟨hlt, ?_⟩
  calc (taken.1 : ℚ) * 10 ^ (-(taken.2 : ℤ))
    _ = (taken.1 * 10 ^ (n.places - taken.2) : Nat) * 10 ^ (-(n.places : ℤ)) := by
      have hexp : -(taken.2 : ℤ) = (n.places - taken.2 : Nat) + -(n.places : ℤ) := by omega
      rw [hexp, zpow_add₀ (by norm_num), zpow_natCast, Nat.cast_mul, Nat.cast_pow, mul_assoc]
      rfl
    _ ≤ n.coefficient * 10 ^ (-(n.places : ℤ)) := by gcongr

/-! ## Numbers in range -/

/-- A number a little below the limit is read, if a word holds the digits before its point. -/
theorem exists_float? (hwhole : n.coefficient / 10 ^ n.places < 2 ^ 64)
    (hpower : ∀ negative e, n.power = some (negative, e) → e < 2 ^ 31)
    (h : n.decimal.value < Binary.belowLargest.magnitude) : ∃ x, n.float? = some x := by
  obtain ⟨hword, hle⟩ := significand_le hwhole
  have hscaled (e : ℤ) (he : n.decimal.exponent = e - n.places) :
      ∃ x, (Binary.round? binary64 n.negative n.significand.1 1).bind
        (·.scale? (n.significand.2 + e)) = some x := by
    apply Binary.exists_scale? n.negative hword
    apply lt_of_le_of_lt _ h
    have hvalue : n.decimal.value = n.coefficient * 10 ^ (-(n.places : ℤ)) * 10 ^ e := by
      rw [Decimal.value, he, sub_eq_neg_add, zpow_add₀ (by norm_num), mul_assoc]
      rfl
    rw [hvalue, zpow_add₀ (by norm_num), ← mul_assoc]
    gcongr
  rcases hp : n.power with _ | ⟨_ | _, e⟩
  · simpa [float?, hp] using hscaled 0 (by simp only [decimal, hp])
  · have he : e < Nat.pow 2 31 := hpower _ _ hp
    simpa [float?, hp, he] using hscaled e (by simp only [decimal, hp])
  · have he : e < Nat.pow 2 31 := hpower _ _ hp
    simpa [float?, hp, he, Int.sub_eq_add_neg] using hscaled (-e) (by simp only [decimal, hp])

variable {d : Decimal}

theorem div_pow_lt {c k : Nat} (h : c < 10 ^ (k + 16)) : c / 10 ^ k < 2 ^ 64 := by
  rw [Nat.pow_add] at h
  exact (Nat.div_lt_of_lt_mul h).trans (by decide)

theorem lt_pow_digitCount (n : Nat) : n < 10 ^ digitCount n :=
  (digitCount_le_iff (digitCount_pos n)).1 le_rfl

/-- Few digits stand before the point of a float. -/
theorem whole_ofDecimal_lt (negative : Bool) (d : Decimal) :
    (ofDecimal floatLayout negative d).coefficient /
      10 ^ (ofDecimal floatLayout negative d).places < 2 ^ 64 := by
  have hdigits := lt_pow_digitCount d.coefficient
  unfold ofDecimal
  split_ifs with hpositional he
  all_goals
    apply div_pow_lt
    simp only [floatLayout, Decimal.point, Bool.and_eq_true, decide_eq_true_eq] at hpositional
    dsimp only
  · calc 10 * (d.coefficient * 10 ^ d.exponent.toNat)
      _ < 10 * (10 ^ digitCount d.coefficient * 10 ^ d.exponent.toNat) := by gcongr
      _ = 10 ^ (1 + (digitCount d.coefficient + d.exponent.toNat)) := by
        rw [← Nat.pow_add, Nat.pow_add 10 1, Nat.pow_one]
      _ ≤ 10 ^ (1 + 16) := Nat.pow_le_pow_right (by decide) (by omega)
  · exact hdigits.trans_le (Nat.pow_le_pow_right (by decide) (by omega))
  · exact hdigits.trans_le (Nat.pow_le_pow_right (by decide) (by omega))

theorem power_ofDecimal_lt {l : Layout} {negative negative' : Bool} {e : Nat}
    (h : (ofDecimal l negative d).power = some (negative', e)) : e = (d.point - 1).natAbs := by
  unfold ofDecimal at h
  split_ifs at h
  cases h
  rfl

end Numeral

/-! ## The numerals of floats -/

/-- A number from `belowLargest` on is one of a few. -/
theorem exists_ofParts?_of_le {x : Binary binary64}
    (h : Binary.belowLargest.magnitude ≤ x.magnitude) :
    ∃ k : Fin 3, Binary.ofParts? binary64 x.negative (2 ^ 53 - 3 + k) 971 = some x := by
  have hlt := h.trans_lt x.magnitude_lt
  obtain ⟨negative, m, e, hcanonical⟩ := x
  obtain ⟨hwidth, -, hmax, -⟩ := id hcanonical
  have hwidth : m < 2 ^ 53 := hwidth
  have he : e = 971 := by
    have hbelow : (2 : ℚ) ^ (1023 : ℤ) ≤ Binary.belowLargest.magnitude := by
      have hexp : (1023 : ℤ) = 52 + 971 := rfl
      rw [Binary.magnitude, hexp, zpow_add₀ two_ne_zero]
      show (2 : ℚ) ^ (52 : ℤ) * 2 ^ (971 : ℤ) ≤ ((2 ^ 53 - 3 : Nat) : ℚ) * 2 ^ (971 : ℤ)
      gcongr
      norm_num
    have := (zpow_lt_zpow_iff_right₀ one_lt_two).1 (hbelow.trans_lt hlt)
    have hprecision : (binary64.precision : ℤ) = 53 := rfl
    have hmax : e ≤ 971 := hmax
    dsimp only at this
    omega
  subst he
  have hm : 2 ^ 53 - 3 ≤ m := by
    have hpos : (0 : ℚ) < 2 ^ (971 : ℤ) := zpow_pos two_pos _
    exact Nat.cast_le.1 (le_of_mul_le_mul_right h hpos)
  refine ⟨⟨m - (2 ^ 53 - 3), by omega⟩, ?_⟩
  have hsum : 2 ^ 53 - 3 + (m - (2 ^ 53 - 3)) = m := Nat.add_sub_cancel' hm
  show Binary.ofParts? _ _ (2 ^ 53 - 3 + (m - (2 ^ 53 - 3))) _ = _
  rw [hsum]
  exact dif_pos hcanonical

theorem isSome_float?_largest :
    ∀ (negative : Bool) (k : Fin 3),
      (Binary.ofParts? binary64 negative (2 ^ 53 - 3 + k) 971).all
        (fun x => (Number.float x).numeral.float?.isSome) = true := by
  decide +kernel

theorem isSome_float?_zero :
    ∀ negative : Bool,
      (Numeral.ofDecimal floatLayout negative ⟨0, 0⟩).float?.isSome = true := by
  decide +kernel

theorem numeral_float (x : Binary binary64) :
    (Number.float x).numeral = .ofDecimal floatLayout x.negative (x.shortest floatLayout.tie) := rfl

/-- The text of a float is in range. -/
theorem exists_float?_numeral (x : Binary binary64) :
    ∃ y, (Number.float x).numeral.float? = some y := by
  by_cases hzero : x.isZero = true
  · have hshortest : (Number.float x).numeral = .ofDecimal floatLayout x.negative ⟨0, 0⟩ := by
      rw [numeral_float, Binary.shortest, if_pos hzero]
    rw [hshortest]
    exact Option.isSome_iff_exists.1 (isSome_float?_zero x.negative)
  -- The bound leaves out the last floats below infinity, which are few enough to be tried.
  rcases le_or_gt Binary.belowLargest.magnitude x.magnitude with hlarge | hsmall
  · obtain ⟨k, hk⟩ := exists_ofParts?_of_le hlarge
    have hall := isSome_float?_largest x.negative k
    rw [hk] at hall
    exact Option.isSome_iff_exists.1 hall
  obtain ⟨hlow, hhigh, hround⟩ := Decimal.round?_of_toBinary?
    (Binary.toBinary?_shortest (by decide) (by decide) floatLayout.tie x) hzero
  apply Numeral.exists_float? (Numeral.whole_ofDecimal_lt x.negative _)
  · intro negative e he
    rw [Numeral.power_ofDecimal_lt he]
    have hmin : binary64.minExponent = -1074 := rfl
    have hmax : binary64.maxExponent + binary64.precision = 1024 := rfl
    omega
  · rw [Numeral.value_decimal_ofDecimal, Decimal.value_eq]
    by_contra hle
    exact absurd (Binary.le_magnitude_of_round? (by decide) (Decimal.denominator_pos _) hround
      (not_lt.1 hle)) (not_le.2 hsmall)

namespace Number

/-- What the text of a number is read as. -/
def reread (n : Number) : Number := n.numeral.number?.getD n

theorem number?_numeral_integer (n : WordInt) :
    (numeral (.integer n)).number? = some (.integer n) := by
  have hvalue : (if (decide (n.val < 0)) = true then -((n.val.natAbs : Nat) : Int)
      else n.val.natAbs) = n.val := by
    split_ifs with h <;> simp only [decide_eq_true_eq] at h <;> omega
  have hzero : (decide (n.val < 0) && n.val.natAbs == 0) = false := by
    rw [Bool.and_eq_false_iff, decide_eq_false_iff_not, beq_eq_false_iff_ne]
    omega
  have hword : (numeral (.integer n)).wordInt? = some n := by
    rw [Numeral.wordInt?, if_pos (by simp [numeral, Numeral.isWhole, hzero])]
    have hrange (i : Int) (hi : i = n.val) :
        (if h : -(Int.pow 2 63) ≤ i ∧ i < Int.pow 2 64 then some (⟨i, h⟩ : WordInt) else none) =
          some n := by
      subst hi
      exact dif_pos n.property
    exact hrange _ hvalue
  rw [Numeral.number?, hword]

/-- The numeral of a number means a number. -/
theorem number?_numeral (n : Number) : n.numeral.number? = some n.reread := by
  have hread : ∃ m, n.numeral.number? = some m := by
    cases n with
    | integer n => exact ⟨_, number?_numeral_integer n⟩
    | float x =>
      obtain ⟨y, hy⟩ := exists_float?_numeral x
      have hword : (numeral (.float x)).wordInt? = none := by
        rw [numeral_float, Numeral.wordInt?, Numeral.isWhole_ofDecimal]
        rfl
      exact ⟨.float y, by rw [Numeral.number?, hword, hy, Option.map_some]⟩
  obtain ⟨m, hm⟩ := hread
  rw [reread, hm, Option.getD_some]

theorem reread_integer (n : WordInt) : (integer n).reread = integer n := by
  rw [reread, number?_numeral_integer, Option.getD_some]

end Number

end StreamedUi.Json
