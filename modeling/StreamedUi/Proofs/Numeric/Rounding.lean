import Mathlib.Algebra.Order.Field.Power
import Mathlib.Data.Int.Log
import Mathlib.Data.Rat.Floor
import StreamedUi.Numeric.Binary

/-! Rounding a quotient of natural numbers. What `Binary.round?` gives depends on the quotient alone
and not on its numerator and denominator (`round?_congr`), the sign is only carried along
(`round?_sign`), and a number of the format is rounded to itself (`round?_self`). -/

namespace StreamedUi.Numeric

variable {num den num' den' : Nat}

/-! ## The nearest natural number -/

theorem divNearestEven_mul_right (num den : Nat) {k : Nat} (hk : 0 < k) :
    divNearestEven (num * k) (den * k) = divNearestEven num den := by
  simp only [divNearestEven, Nat.mul_div_mul_right _ _ hk, Nat.mul_mod_mul_right,
    ← Nat.mul_assoc, Nat.mul_lt_mul_right hk]

theorem divNearestEven_congr (hd : 0 < den) (hd' : 0 < den') (h : num * den' = num' * den) :
    divNearestEven num den = divNearestEven num' den' := by
  rw [← divNearestEven_mul_right num den hd', h, Nat.mul_comm den den',
    divNearestEven_mul_right num' den' hd]

theorem divNearestEven_mul_self (m : Nat) (hd : 0 < den) : divNearestEven (m * den) den = m := by
  simp [divNearestEven, hd]

/-! ## The exponent of a quotient -/

theorem scaled_snd_pos (num : Nat) (hd : 0 < den) (e : Int) : 0 < (scaled num den e).2 :=
  Nat.mul_pos hd (Nat.two_pow_pos _)

theorem scaled_cross (h : num * den' = num' * den) (e : Int) :
    (scaled num den e).1 * (scaled num' den' e).2 =
      (scaled num' den' e).1 * (scaled num den e).2 := by
  simp only [scaled]
  rw [Nat.mul_mul_mul_comm, h, Nat.mul_mul_mul_comm]

theorem scaled_div (num den : Nat) (e : Int) :
    ((scaled num den e).1 : ℚ) / (scaled num den e).2 = num / den / 2 ^ e := by
  obtain ⟨k, rfl | rfl⟩ := e.eq_nat_or_neg
  · simp [scaled, div_mul_eq_div_div]
  · simp [scaled, mul_div_right_comm]

/-- A scaled quotient fills the width `p` from the power `p + e` of two on. -/
theorem pow_le_scaled_div_iff (hd : 0 < den) (p : Nat) (e : Int) :
    2 ^ p ≤ (scaled num den e).1 / (scaled num den e).2 ↔
      (2 : ℚ) ^ ((p : Int) + e) ≤ num / den := by
  have hpos : (0 : ℚ) < (scaled num den e).2 := by exact_mod_cast scaled_snd_pos num hd e
  rw [Nat.le_div_iff_mul_le (scaled_snd_pos num hd e), ← @Nat.cast_le ℚ, Nat.cast_mul,
    ← le_div_iff₀ hpos, scaled_div, le_div_iff₀ (zpow_pos two_pos e), zpow_add₀ two_ne_zero]
  simp

/-- The logarithms of numerator and denominator give that of the quotient, but for one. -/
theorem log_div_bounds (hn : 0 < num) (hd : 0 < den) :
    (num.log2 : Int) - den.log2 - 1 ≤ Int.log 2 (num / den : ℚ) ∧
      Int.log 2 (num / den : ℚ) ≤ (num.log2 : Int) - den.log2 := by
  have hdpos : (0 : ℚ) < den := by exact_mod_cast hd
  have hq : (0 : ℚ) < num / den := div_pos (by exact_mod_cast hn) hdpos
  have hnum : (2 : ℚ) ^ (num.log2 : Int) ≤ num := by
    exact_mod_cast Nat.log2_self_le hn.ne'
  have hden : (2 : ℚ) ^ (den.log2 : Int) ≤ den := by
    exact_mod_cast Nat.log2_self_le hd.ne'
  have hnum' : (num : ℚ) < 2 ^ ((num.log2 : Int) + 1) := by
    exact_mod_cast (Nat.lt_log2_self : num < 2 ^ (num.log2 + 1))
  have hden' : (den : ℚ) < 2 ^ ((den.log2 : Int) + 1) := by
    exact_mod_cast (Nat.lt_log2_self : den < 2 ^ (den.log2 + 1))
  constructor
  · refine (Int.zpow_le_iff_le_log Nat.one_lt_two hq).1 ?_
    rw [le_div_iff₀ hdpos, Nat.cast_ofNat]
    calc (2 : ℚ) ^ ((num.log2 : Int) - den.log2 - 1) * den
        ≤ 2 ^ ((num.log2 : Int) - den.log2 - 1) * 2 ^ ((den.log2 : Int) + 1) := by gcongr
      _ = 2 ^ (num.log2 : Int) := by rw [← zpow_add₀ two_ne_zero]; congr 1; omega
      _ ≤ num := hnum
  · refine Int.lt_add_one_iff.1 ((Int.lt_zpow_iff_log_lt Nat.one_lt_two hq).1 ?_)
    rw [div_lt_iff₀ hdpos, Nat.cast_ofNat]
    calc (num : ℚ) < 2 ^ ((num.log2 : Int) + 1) := hnum'
      _ = 2 ^ ((num.log2 : Int) - den.log2 + 1) * 2 ^ (den.log2 : Int) := by
        rw [← zpow_add₀ two_ne_zero]; congr 1; omega
      _ ≤ 2 ^ ((num.log2 : Int) - den.log2 + 1) * den := by gcongr

/-- The exponent puts the leading bit of the quotient at the top of the significand, if it may be so
small. -/
theorem fitExponent_eq (F : Format) (hn : 0 < num) (hd : 0 < den) :
    fitExponent F num den =
      max F.minExponent (Int.log 2 (num / den : ℚ) - F.precision + 1) := by
  have hq : (0 : ℚ) < num / den := div_pos (by exact_mod_cast hn) (by exact_mod_cast hd)
  have hlog := log_div_bounds hn hd
  have hwide (e : Int) : Nat.pow 2 F.precision ≤ (scaled num den e).1 / (scaled num den e).2 ↔
      F.precision + e ≤ Int.log 2 (num / den : ℚ) := by
    rw [← Int.zpow_le_iff_le_log Nat.one_lt_two hq]
    exact pow_le_scaled_div_iff hd F.precision e
  simp only [fitExponent, hwide]
  split <;> omega

/-! ## Rounding -/

namespace Binary

variable {F : Format}

theorem round?_congr (F : Format) (negative : Bool) (hd : 0 < den) (hd' : 0 < den')
    (h : num * den' = num' * den) : round? F negative num den = round? F negative num' den' := by
  have hzero : num = 0 ↔ num' = 0 := by
    constructor <;> rintro rfl <;> simp_all [hd.ne', hd'.ne']
  have hexp : (if num = 0 then F.minExponent else fitExponent F num den) =
      if num' = 0 then F.minExponent else fitExponent F num' den' := by
    by_cases hn : num = 0
    · rw [if_pos hn, if_pos (hzero.1 hn)]
    · have hn' : num' ≠ 0 := fun h0 => hn (hzero.2 h0)
      have hquot : (num : ℚ) / den = num' / den' := by
        rw [div_eq_div_iff (by exact_mod_cast hd.ne') (by exact_mod_cast hd'.ne')]
        exact_mod_cast h
      rw [if_neg hn, if_neg hn', fitExponent_eq F (Nat.pos_of_ne_zero hn) hd,
        fitExponent_eq F (Nat.pos_of_ne_zero hn') hd', hquot]
  have hround (e : Int) :
      divNearestEven (scaled num den e).1 (scaled num den e).2 =
        divNearestEven (scaled num' den' e).1 (scaled num' den' e).2 :=
    divNearestEven_congr (scaled_snd_pos num hd e) (scaled_snd_pos num' hd' e) (scaled_cross h e)
  simp only [round?, hexp, hround]

theorem ofParts?_sign (F : Format) (negative : Bool) (m : Nat) (e : Int) :
    ofParts? F negative m e =
      (ofParts? F false m e).map fun x => { x with negative := negative } := by
  unfold ofParts?
  split <;> rfl

theorem round?_sign (F : Format) (negative : Bool) (num den : Nat) :
    round? F negative num den =
      (round? F false num den).map fun x => { x with negative := negative } := by
  simp only [round?]
  split_ifs <;> exact ofParts?_sign ..

theorem denominator_pos (x : Binary F) : 0 < x.denominator := Nat.two_pow_pos _

theorem numerator_div_denominator (x : Binary F) :
    (x.numerator : ℚ) / x.denominator = x.significand * 2 ^ x.exponent := by
  obtain ⟨k, hk | hk⟩ := x.exponent.eq_nat_or_neg
  · simp [numerator, denominator, hk]
  · simp [numerator, denominator, hk, div_eq_mul_inv]

theorem log_numerator_div_denominator (x : Binary F) (hx : x.significand ≠ 0) :
    Int.log 2 (x.numerator / x.denominator : ℚ) = Nat.log 2 x.significand + x.exponent := by
  have hm : (0 : ℚ) < x.significand := by exact_mod_cast Nat.pos_of_ne_zero hx
  have hpos : (0 : ℚ) < x.significand * 2 ^ x.exponent := mul_pos hm (zpow_pos two_pos _)
  have hlow : (2 : ℚ) ^ (Nat.log 2 x.significand : Int) ≤ x.significand := by
    exact_mod_cast Nat.pow_log_le_self 2 hx
  have hhigh : (x.significand : ℚ) < 2 ^ ((Nat.log 2 x.significand : Int) + 1) := by
    exact_mod_cast Nat.lt_pow_succ_log_self Nat.one_lt_two x.significand
  rw [numerator_div_denominator]
  refine le_antisymm (Int.lt_add_one_iff.1 ?_) ?_
  · rw [← Int.lt_zpow_iff_log_lt Nat.one_lt_two hpos, add_right_comm, Nat.cast_ofNat,
      zpow_add₀ two_ne_zero]
    gcongr
  · rw [← Int.zpow_le_iff_le_log Nat.one_lt_two hpos, Nat.cast_ofNat, zpow_add₀ two_ne_zero]
    gcongr

theorem fitExponent_self (x : Binary F) (hx : x.significand ≠ 0) :
    fitExponent F x.numerator x.denominator = x.exponent := by
  obtain ⟨hwidth, hmin, -, hfull⟩ := x.canonical
  have hn : 0 < x.numerator := Nat.mul_pos (Nat.pos_of_ne_zero hx) (Nat.two_pow_pos _)
  have hlog : Nat.log 2 x.significand < F.precision :=
    Nat.log_lt_of_lt_pow hx hwidth
  rw [fitExponent_eq F hn x.denominator_pos, log_numerator_div_denominator x hx]
  by_cases hshort : x.significand < Nat.pow 2 (F.precision - 1)
  · have hlog' : Nat.log 2 x.significand < F.precision - 1 := Nat.log_lt_of_lt_pow hx hshort
    have := hfull hshort
    omega
  · have hlog' : F.precision - 1 ≤ Nat.log 2 x.significand :=
      Nat.le_log_of_pow_le Nat.one_lt_two (not_lt.1 hshort)
    omega

/-- A number of the format rounds to itself. -/
theorem round?_self (negative : Bool) (x : Binary F) (hx : x.significand ≠ 0) :
    round? F negative x.numerator x.denominator = some { x with negative := negative } := by
  have hn : x.numerator ≠ 0 := (Nat.mul_pos (Nat.pos_of_ne_zero hx) (Nat.two_pow_pos _)).ne'
  have hscaled : scaled x.numerator x.denominator x.exponent =
      (x.significand * (scaled x.numerator x.denominator x.exponent).2,
        (scaled x.numerator x.denominator x.exponent).2) := by
    refine Prod.ext ?_ rfl
    simp only [scaled, numerator, denominator]
    rw [Nat.mul_assoc, Nat.mul_comm (Nat.pow 2 _)]
  have hround : divNearestEven (scaled x.numerator x.denominator x.exponent).1
      (scaled x.numerator x.denominator x.exponent).2 = x.significand := by
    rw [hscaled]
    exact divNearestEven_mul_self _ (scaled_snd_pos _ x.denominator_pos _)
  simp only [round?, if_neg hn, fitExponent_self x hx, hround, if_neg x.canonical.1.ne]
  exact dif_pos x.canonical

theorem round?_zero (F : Format) (negative : Bool) :
    round? F negative 0 1 = ofParts? F negative 0 F.minExponent := by
  have hwidth : 0 ≠ 2 ^ F.precision := (Nat.two_pow_pos _).ne
  simp [round?, scaled, divNearestEven, hwidth]

end Binary

end StreamedUi.Numeric
