import Mathlib.Tactic.NormNum
import StreamedUi.Numeric.Scale
import StreamedUi.Proofs.Numeric.Rounding

/-! Bounds for rounded numbers. Rounding does not pass a number of the format
(`Binary.exists_round?_of_le`, `Binary.le_magnitude_of_round?`) and changes a quotient by a small
part of it (`Binary.magnitude_le_of_round?`). So a decimal that stays a little below the largest
`binary64` is not out of range when it is scaled in steps that are rounded each
(`Binary.exists_scale?`). -/

namespace StreamedUi.Numeric

variable {F : Format} {num den k : Nat} {negative : Bool}

/-! ## The nearest natural number -/

theorem le_divNearestEven (hd : 0 < den) (h : k * den ≤ num) : k ≤ divNearestEven num den := by
  have hdiv : k ≤ num / den := (Nat.le_div_iff_mul_le hd).2 h
  simp only [divNearestEven]
  split_ifs <;> omega

theorem divNearestEven_le (hd : 0 < den) (h : num ≤ k * den) : divNearestEven num den ≤ k := by
  rcases Nat.lt_or_ge (num / den) k with hlt | hge
  · simp only [divNearestEven]
    split_ifs <;> omega
  · have hnum : num = k * den := Nat.le_antisymm h ((Nat.le_div_iff_mul_le hd).1 hge)
    rw [hnum, divNearestEven_mul_self k hd]

/-- The nearest number is at most half a unit above. -/
theorem two_mul_divNearestEven_le (num den : Nat) :
    2 * (divNearestEven num den * den) ≤ 2 * num + den := by
  have hdiv := Nat.div_add_mod' num den
  have hnext : (num / den + 1) * den = num / den * den + den := Nat.succ_mul _ _
  simp only [divNearestEven]
  split_ifs <;> omega

namespace Binary

variable {x y : Binary F}

/-- The absolute value. -/
def magnitude (x : Binary F) : ℚ := x.significand * 2 ^ x.exponent

theorem magnitude_eq (x : Binary F) : x.magnitude = x.numerator / x.denominator :=
  x.numerator_div_denominator.symm

theorem magnitude_nonneg (x : Binary F) : 0 ≤ x.magnitude := by
  unfold magnitude
  positivity

theorem magnitude_of_isZero (h : x.isZero = true) : x.magnitude = 0 := by
  rw [magnitude, eq_of_beq h, Nat.cast_zero, zero_mul]

/-- In units of a lower exponent a number is whole. -/
theorem exists_magnitude_eq (y : Binary F) {e : Int} (h : e ≤ y.exponent) :
    ∃ k : Nat, y.magnitude = k * 2 ^ e := by
  obtain ⟨j, hj⟩ := Int.eq_ofNat_of_zero_le (Int.sub_nonneg.2 h)
  refine ⟨y.significand * 2 ^ j, ?_⟩
  rw [magnitude, show y.exponent = j + e by omega, zpow_add₀ two_ne_zero, zpow_natCast]
  push_cast
  ring

theorem magnitude_lt (y : Binary F) : y.magnitude < 2 ^ (F.precision + y.exponent) := by
  have hwidth : (y.significand : ℚ) < 2 ^ F.precision := by exact_mod_cast y.canonical.1
  rw [zpow_add₀ two_ne_zero, zpow_natCast]
  exact mul_lt_mul_of_pos_right hwidth (zpow_pos two_pos _)

/-! ## The exponent of a rounded number -/

theorem minExponent_le_fitExponent (F : Format) (hn : 0 < num) (hd : 0 < den) :
    F.minExponent ≤ fitExponent F num den := by
  rw [fitExponent_eq F hn hd]
  exact le_max_left ..

/-- Above the least exponent the quotient has a significand of full width. -/
theorem pow_fitExponent_le (hn : 0 < num) (hd : 0 < den)
    (h : F.minExponent < fitExponent F num den) :
    (2 : ℚ) ^ (F.precision - 1 + fitExponent F num den) ≤ num / den := by
  have hq : (0 : ℚ) < num / den := div_pos (by exact_mod_cast hn) (by exact_mod_cast hd)
  rw [fitExponent_eq F hn hd] at h ⊢
  have hexp : (F.precision : Int) - 1 +
      max F.minExponent (Int.log 2 (num / den : ℚ) - F.precision + 1) =
        Int.log 2 (num / den : ℚ) := by
    omega
  rw [hexp]
  exact_mod_cast Int.zpow_log_le_self Nat.one_lt_two hq

theorem div_lt_pow_fitExponent (hn : 0 < num) (hd : 0 < den) :
    (num / den : ℚ) < 2 ^ (F.precision + fitExponent F num den) := by
  have hlt := Int.lt_zpow_succ_log_self Nat.one_lt_two (num / den : ℚ)
  have hle : Int.log 2 (num / den : ℚ) + 1 ≤ F.precision + fitExponent F num den := by
    rw [fitExponent_eq F hn hd]
    omega
  exact lt_of_lt_of_le (by exact_mod_cast hlt) (zpow_le_zpow_right₀ one_le_two hle)

/-- The exponent is no larger than that of a number which the quotient does not exceed. -/
theorem fitExponent_le (hn : 0 < num) (hd : 0 < den) (h : (num / den : ℚ) ≤ y.magnitude) :
    fitExponent F num den ≤ y.exponent := by
  rcases (minExponent_le_fitExponent F hn hd).lt_or_eq with hlt | heq
  · have hpow := (pow_fitExponent_le hn hd hlt).trans_lt (h.trans_lt y.magnitude_lt)
    have := (zpow_lt_zpow_iff_right₀ one_lt_two).1 hpow
    omega
  · exact heq ▸ y.canonical.2.1

/-- The significand that a quotient is rounded to at its exponent. -/
def fitSignificand (F : Format) (num den : Nat) : Nat :=
  divNearestEven (scaled num den (fitExponent F num den)).1
    (scaled num den (fitExponent F num den)).2

theorem le_fitSignificand_iff (hd : 0 < den) {k : Nat} :
    k * (scaled num den (fitExponent F num den)).2 ≤ (scaled num den (fitExponent F num den)).1 ↔
      (k : ℚ) * 2 ^ fitExponent F num den ≤ num / den := by
  have hpos : (0 : ℚ) < (scaled num den (fitExponent F num den)).2 := by
    exact_mod_cast scaled_snd_pos num hd _
  rw [← @Nat.cast_le ℚ, Nat.cast_mul, ← le_div_iff₀ hpos, scaled_div,
    le_div_iff₀ (zpow_pos two_pos _)]

theorem fitSignificand_le_iff (hd : 0 < den) {k : Nat} :
    (scaled num den (fitExponent F num den)).1 ≤ k * (scaled num den (fitExponent F num den)).2 ↔
      (num / den : ℚ) ≤ k * 2 ^ fitExponent F num den := by
  have hpos : (0 : ℚ) < (scaled num den (fitExponent F num den)).2 := by
    exact_mod_cast scaled_snd_pos num hd _
  rw [← @Nat.cast_le ℚ, Nat.cast_mul, ← div_le_iff₀ hpos, scaled_div,
    div_le_iff₀ (zpow_pos two_pos _)]

/-- A multiple of the exponent's power of two is not passed. -/
theorem le_fitSignificand (hd : 0 < den) (h : (k : ℚ) * 2 ^ fitExponent F num den ≤ num / den) :
    k ≤ fitSignificand F num den :=
  le_divNearestEven (scaled_snd_pos num hd _) ((le_fitSignificand_iff hd).2 h)

theorem fitSignificand_le (hd : 0 < den) (h : (num / den : ℚ) ≤ k * 2 ^ fitExponent F num den) :
    fitSignificand F num den ≤ k :=
  divNearestEven_le (scaled_snd_pos num hd _) ((fitSignificand_le_iff hd).2 h)

theorem fitSignificand_le_pow (hn : 0 < num) (hd : 0 < den) :
    fitSignificand F num den ≤ 2 ^ F.precision := by
  refine fitSignificand_le hd (le_of_lt ?_)
  have hlt := div_lt_pow_fitExponent (F := F) hn hd
  rwa [zpow_add₀ two_ne_zero, zpow_natCast, ← Nat.cast_ofNat, ← Nat.cast_pow] at hlt

theorem pow_le_fitSignificand (hp : 0 < F.precision) (hn : 0 < num) (hd : 0 < den)
    (h : F.minExponent < fitExponent F num den) :
    2 ^ (F.precision - 1) ≤ fitSignificand F num den := by
  have hle := pow_fitExponent_le hn hd h
  have hexp : (F.precision : Int) - 1 = (F.precision - 1 : Nat) := by omega
  rw [zpow_add₀ two_ne_zero, hexp, zpow_natCast] at hle
  exact le_fitSignificand hd (by exact_mod_cast hle)

/-- What rounding gives, if the exponent is not too large. -/
theorem round?_eq_ite (negative : Bool) (hn : 0 < num) :
    round? F negative num den =
      if fitSignificand F num den = 2 ^ F.precision then
        ofParts? F negative (fitSignificand F num den / 2) (fitExponent F num den + 1)
      else ofParts? F negative (fitSignificand F num den) (fitExponent F num den) := by
  simp only [round?, if_neg hn.ne']
  rfl

theorem two_mul_pow_pred (hp : 0 < F.precision) : 2 * 2 ^ (F.precision - 1) = 2 ^ F.precision := by
  rw [← Nat.pow_succ', Nat.succ_eq_add_one, Nat.sub_add_cancel hp]

theorem parts_of_ofParts? {m : Nat} {e : Int} (h : ofParts? F negative m e = some x) :
    x.significand = m ∧ x.exponent = e := by
  unfold ofParts? at h
  split at h
  · cases h
    exact ⟨rfl, rfl⟩
  · cases h

theorem half_mul_pow_succ (hp : 0 < F.precision) (e : Int) :
    ((2 ^ F.precision / 2 : Nat) : ℚ) * 2 ^ (e + 1) = (2 ^ F.precision : Nat) * 2 ^ e := by
  have hhalf : 2 ^ F.precision / 2 = 2 ^ (F.precision - 1) := by
    rw [← two_mul_pow_pred hp, Nat.mul_div_cancel_left _ two_pos]
  rw [hhalf, ← two_mul_pow_pred hp, zpow_add_one₀ two_ne_zero]
  push_cast
  ring

/-- The number that a quotient is rounded to. -/
theorem magnitude_of_round? (hp : 0 < F.precision) (hn : 0 < num)
    (h : round? F negative num den = some x) :
    x.magnitude = fitSignificand F num den * 2 ^ fitExponent F num den := by
  rw [round?_eq_ite negative hn] at h
  split at h
  · next htop =>
    obtain ⟨hm, he⟩ := parts_of_ofParts? h
    rw [magnitude, hm, he, htop, half_mul_pow_succ hp]
  · obtain ⟨hm, he⟩ := parts_of_ofParts? h
    rw [magnitude, hm, he]

/-- What a quotient is rounded to is in canonical form, if its exponent is not too large. -/
theorem exists_round?_of_fitExponent (hp : 0 < F.precision) (negative : Bool) (hn : 0 < num)
    (hd : 0 < den) (hmax : fitExponent F num den ≤ F.maxExponent)
    (htop : fitSignificand F num den = 2 ^ F.precision →
      fitExponent F num den < F.maxExponent) :
    ∃ x, round? F negative num den = some x := by
  have hmin := minExponent_le_fitExponent F hn hd
  have hhalf := two_mul_pow_pred hp
  rw [round?_eq_ite negative hn]
  split
  · next hfull =>
    have hcanonical : F.Canonical (fitSignificand F num den / 2) (fitExponent F num den + 1) := by
      rw [hfull, ← hhalf, Nat.mul_div_cancel_left _ two_pos]
      exact ⟨Nat.pow_lt_pow_right Nat.one_lt_two (Nat.sub_one_lt hp.ne'), by omega, htop hfull,
        fun hshort => absurd hshort (lt_irrefl _)⟩
    exact ⟨_, dif_pos hcanonical⟩
  · next hfull =>
    have hcanonical : F.Canonical (fitSignificand F num den) (fitExponent F num den) := by
      refine ⟨lt_of_le_of_ne (fitSignificand_le_pow hn hd) hfull, hmin, hmax, fun hshort => ?_⟩
      by_contra hne
      exact absurd (pow_le_fitSignificand hp hn hd (lt_of_le_of_ne hmin (Ne.symm hne)))
        (not_le.2 hshort)
    exact ⟨_, dif_pos hcanonical⟩

/-- A quotient is rounded to no more than a number that it does not exceed. -/
theorem exists_round?_of_le (hp : 0 < F.precision) (negative : Bool) (hd : 0 < den)
    (h : (num / den : ℚ) ≤ y.magnitude) :
    ∃ x, round? F negative num den = some x ∧ x.magnitude ≤ y.magnitude := by
  obtain ⟨-, hmin, hmax, -⟩ := y.canonical
  rcases Nat.eq_zero_or_pos num with rfl | hn
  · have hzero : F.Canonical 0 F.minExponent :=
      ⟨Nat.two_pow_pos _, le_rfl, hmin.trans hmax, fun _ => rfl⟩
    have hround : round? F negative 0 den = round? F negative 0 1 :=
      round?_congr F negative hd Nat.one_pos (by simp)
    refine ⟨⟨negative, 0, F.minExponent, hzero⟩, ?_, ?_⟩
    · rw [hround, round?_zero]
      exact dif_pos hzero
    · rw [magnitude_of_isZero rfl]
      exact y.magnitude_nonneg
  have hexp := fitExponent_le hn hd h
  have hle : (fitSignificand F num den : ℚ) * 2 ^ fitExponent F num den ≤ y.magnitude := by
    obtain ⟨k, hk⟩ := y.exists_magnitude_eq hexp
    rw [hk] at h ⊢
    have := fitSignificand_le hd h
    gcongr
  have htop (hfull : fitSignificand F num den = 2 ^ F.precision) :
      fitExponent F num den < F.maxExponent := by
    have hlt := hle.trans_lt y.magnitude_lt
    rw [hfull, Nat.cast_pow, Nat.cast_ofNat, ← zpow_natCast, ← zpow_add₀ two_ne_zero,
      zpow_lt_zpow_iff_right₀ one_lt_two] at hlt
    omega
  obtain ⟨x, hx⟩ := exists_round?_of_fitExponent hp negative hn hd (hexp.trans hmax) htop
  exact ⟨x, hx, (magnitude_of_round? hp hn hx).trans_le hle⟩

/-- A quotient is rounded to no less than a number that is not above it. -/
theorem le_magnitude_of_round? (hp : 0 < F.precision) (hd : 0 < den)
    (h : round? F negative num den = some x) (hy : y.magnitude ≤ num / den) :
    y.magnitude ≤ x.magnitude := by
  rcases Nat.eq_zero_or_pos num with rfl | hn
  · rw [Nat.cast_zero, zero_div] at hy
    exact hy.trans x.magnitude_nonneg
  rw [magnitude_of_round? hp hn h]
  rcases le_or_gt (fitExponent F num den) y.exponent with hexp | hexp
  · obtain ⟨k, hk⟩ := y.exists_magnitude_eq hexp
    rw [hk] at hy ⊢
    have := le_fitSignificand hd hy
    gcongr
  · have hmin : F.minExponent < fitExponent F num den := y.canonical.2.1.trans_lt hexp
    have hfull := pow_le_fitSignificand hp hn hd hmin
    -- A significand of full width at a larger exponent is worth more than any at that of `y`.
    calc y.magnitude ≤ 2 ^ (F.precision + y.exponent) := y.magnitude_lt.le
      _ ≤ 2 ^ ((F.precision - 1 : Nat) + fitExponent F num den) :=
        zpow_le_zpow_right₀ one_le_two (by omega)
      _ = (2 ^ (F.precision - 1) : Nat) * 2 ^ fitExponent F num den := by
        rw [zpow_add₀ two_ne_zero, zpow_natCast, Nat.cast_pow, Nat.cast_ofNat]
      _ ≤ fitSignificand F num den * 2 ^ fitExponent F num den := by gcongr

/-- Rounding raises a quotient by no more than half a unit of a significand of full width. -/
theorem magnitude_le_of_round? (hp : 0 < F.precision) (hrange : F.minExponent + F.precision < 1)
    (hd : 0 < den) (hone : (1 : ℚ) ≤ num / den) (h : round? F negative num den = some x) :
    x.magnitude ≤ num / den * (1 + 1 / 2 ^ F.precision) := by
  have hn : 0 < num := by
    rcases Nat.eq_zero_or_pos num with rfl | hn
    · norm_num at hone
    · exact hn
  have hlog : 0 ≤ Int.log 2 (num / den : ℚ) := by
    rw [← Int.zpow_le_iff_le_log Nat.one_lt_two (one_pos.trans_le hone), zpow_zero]
    exact hone
  have hmin : F.minExponent < fitExponent F num den := by
    rw [fitExponent_eq F hn hd]
    omega
  have hwidth : (2 : ℚ) ^ fitExponent F num den ≤ num / den * (2 * (1 / 2 ^ F.precision)) := by
    have hpow := pow_fitExponent_le hn hd hmin
    have hexp : (2 : ℚ) ^ fitExponent F num den =
        2 ^ (F.precision - 1 + fitExponent F num den) * (2 * (1 / 2 ^ F.precision)) := by
      rw [zpow_add₀ two_ne_zero, zpow_sub₀ two_ne_zero, zpow_natCast, zpow_one]
      field_simp
    rw [hexp]
    gcongr
  have hhalf : (fitSignificand F num den : ℚ) * 2 ^ fitExponent F num den ≤
      num / den + 2 ^ fitExponent F num den / 2 := by
    have hpos : (0 : ℚ) < (scaled num den (fitExponent F num den)).2 := by
      exact_mod_cast scaled_snd_pos num hd _
    have hnearest : (2 * (fitSignificand F num den *
        (scaled num den (fitExponent F num den)).2) : ℚ) ≤
          2 * (scaled num den (fitExponent F num den)).1 +
            (scaled num den (fitExponent F num den)).2 := by
      exact_mod_cast two_mul_divNearestEven_le _ _
    have hquot : (fitSignificand F num den : ℚ) ≤
        num / den / 2 ^ fitExponent F num den + 1 / 2 := by
      rw [← scaled_div, ← sub_le_iff_le_add, le_div_iff₀ hpos]
      linarith
    have hpow : (0 : ℚ) < 2 ^ fitExponent F num den := zpow_pos two_pos _
    rwa [← le_div_iff₀ hpow, add_div, div_div_cancel_left' hpow.ne', inv_eq_one_div]
  rw [magnitude_of_round? hp hn h]
  calc _ ≤ _ := hhalf
    _ ≤ num / den + num / den * (2 * (1 / 2 ^ F.precision)) / 2 := by gcongr
    _ = _ := by ring

/-! ## Powers of ten -/

theorem magnitude_mul (x y : Binary F) :
    ((x.numerator * y.numerator : Nat) : ℚ) / (x.denominator * y.denominator : Nat) =
      x.magnitude * y.magnitude := by
  rw [magnitude_eq, magnitude_eq, Nat.cast_mul, Nat.cast_mul, mul_div_mul_comm]

theorem magnitude_div (x y : Binary F) :
    ((x.numerator * y.denominator : Nat) : ℚ) / (x.denominator * y.numerator : Nat) =
      x.magnitude / y.magnitude := by
  rw [magnitude_eq, magnitude_eq, Nat.cast_mul, Nat.cast_mul, div_div_div_eq]

/-- The unit of the largest numbers. -/
def topUnit : Nat := 2 ^ 971

/-- The largest `binary64`. -/
def largest : Binary binary64 := ⟨false, 2 ^ 53 - 1, 971, by decide +kernel⟩

/-- A number that is two units below the largest. -/
def belowLargest : Binary binary64 := ⟨false, 2 ^ 53 - 3, 971, by decide +kernel⟩

/-- The number one. -/
def one : Binary binary64 := ⟨false, 2 ^ 52, -52, by decide +kernel⟩

theorem magnitude_one : one.magnitude = 1 := by
  norm_num [one, magnitude]

theorem cast_topUnit : (topUnit : ℚ) = 2 ^ (971 : Int) := by
  rw [topUnit, Nat.cast_pow, Nat.cast_ofNat]
  exact (zpow_natCast 2 971).symm

theorem magnitude_largest : largest.magnitude = ((2 ^ 53 - 1) * topUnit : Nat) := by
  rw [Nat.cast_mul, cast_topUnit]
  rfl

theorem magnitude_belowLargest : belowLargest.magnitude = ((2 ^ 53 - 3) * topUnit : Nat) := by
  rw [Nat.cast_mul, cast_topUnit]
  rfl

theorem isZero_of_magnitude_le (h : x.magnitude ≤ 0) : x.isZero = true := by
  have hzero := le_antisymm h x.magnitude_nonneg
  rw [magnitude, mul_eq_zero, or_iff_left (zpow_pos two_pos _).ne', Nat.cast_eq_zero] at hzero
  exact beq_iff_eq.2 hzero

/-- The largest power of ten is in range, and the next one is not. -/
theorem ten_pow_maxTenPow_le : 10 ^ maxTenPow ≤ (2 ^ 53 - 1) * topUnit := by decide +kernel

theorem le_ten_pow_succ_maxTenPow : (2 ^ 53 - 3) * topUnit ≤ 10 ^ (maxTenPow + 1) := by
  decide +kernel

theorem ten_pow_le_largest {n : Nat} (hn : n ≤ maxTenPow) :
    ((10 ^ n : Nat) : ℚ) ≤ largest.magnitude := by
  rw [magnitude_largest, Nat.cast_le]
  exact (Nat.pow_le_pow_right (by decide) hn).trans ten_pow_maxTenPow_le

/-- A whole number that is not too large is rounded to little more than itself. -/
theorem exists_round?_nat (negative : Bool) {n : Nat} (h : (n : ℚ) ≤ largest.magnitude) :
    ∃ x, round? binary64 negative n 1 = some x ∧ x.magnitude ≤ n * (1 + 1 / 2 ^ 53) := by
  have hdiv : (n : ℚ) / (1 : Nat) = n := by rw [Nat.cast_one, div_one]
  obtain ⟨x, hx, -⟩ :=
    exists_round?_of_le (y := largest) (by decide) negative Nat.one_pos (hdiv.trans_le h)
  refine ⟨x, hx, ?_⟩
  rcases Nat.eq_zero_or_pos n with rfl | hn
  · rw [round?_zero] at hx
    rw [magnitude, (parts_of_ofParts? hx).1, Nat.cast_zero, zero_mul, zero_mul]
  · have hone : (1 : ℚ) ≤ n / (1 : Nat) := by
      rw [hdiv]
      exact_mod_cast hn
    have := magnitude_le_of_round? (by decide) (by decide) Nat.one_pos hone hx
    rwa [hdiv] at this

theorem exists_tenPow? {n : Nat} (hn : n ≤ maxTenPow) :
    ∃ p : Binary binary64, tenPow? binary64 n = some p ∧ 1 ≤ p.magnitude ∧
      p.magnitude ≤ 10 ^ n * (1 + 1 / 2 ^ 53) := by
  obtain ⟨p, hp, hupper⟩ := exists_round?_nat false (ten_pow_le_largest hn)
  refine ⟨p, hp, ?_, by rwa [Nat.cast_pow, Nat.cast_ofNat] at hupper⟩
  rw [← magnitude_one]
  refine le_magnitude_of_round? (by decide) Nat.one_pos hp ?_
  rw [magnitude_one, Nat.cast_one, div_one, Nat.one_le_cast]
  exact Nat.one_le_pow _ _ (by decide)

theorem exists_div_tenPow? (x : Binary binary64) {n : Nat} (hn : n ≤ maxTenPow) :
    ∃ y, (tenPow? binary64 n).bind x.div? = some y := by
  obtain ⟨p, hp, hone, -⟩ := exists_tenPow? hn
  have hpos : 0 < p.numerator := by
    refine Nat.pos_of_ne_zero fun hzero => ?_
    rw [magnitude_eq, hzero] at hone
    norm_num at hone
  have hle : x.magnitude / p.magnitude ≤ x.magnitude := div_le_self x.magnitude_nonneg hone
  rw [← magnitude_div] at hle
  obtain ⟨y, hy, -⟩ := exists_round?_of_le (by decide) (x.negative != p.negative)
    (Nat.mul_pos x.denominator_pos hpos) hle
  rw [hp]
  exact ⟨y, hy⟩

/-- A number divided by a power of ten, however large, is in range. -/
theorem exists_lower? (x : Binary binary64) (n : Nat) : ∃ y, x.lower? n = some y := by
  induction n using Nat.strongRecOn generalizing x with
  | ind n ih =>
    rw [lower?]
    split
    · next hn => exact exists_div_tenPow? x hn
    split
    · exact ⟨x, rfl⟩
    · next hn _ =>
      obtain ⟨y, hy⟩ := exists_div_tenPow? x le_rfl
      rw [hy]
      exact ih (n - maxTenPow) (Nat.sub_lt (by omega) (by decide)) y

/-- The largest factor by which rounding twice raises a product. -/
theorem scaled_le_largest {a b s t : ℚ} (ha : a ≤ s * (1 + 1 / 2 ^ 53))
    (hb : b ≤ t * (1 + 1 / 2 ^ 53)) (hb0 : 0 ≤ b) (hs : 0 ≤ s)
    (h : s * t < belowLargest.magnitude) : a * b ≤ largest.magnitude := by
  rw [magnitude_belowLargest, Nat.cast_mul] at h
  rw [magnitude_largest, Nat.cast_mul]
  calc a * b ≤ s * (1 + 1 / 2 ^ 53) * (t * (1 + 1 / 2 ^ 53)) := by gcongr
    _ = s * t * (1 + 1 / 2 ^ 53) ^ 2 := by ring
    _ ≤ (2 ^ 53 - 3 : Nat) * topUnit * (1 + 1 / 2 ^ 53) ^ 2 := by gcongr
    _ = (2 ^ 53 - 3 : Nat) * (1 + 1 / 2 ^ 53) ^ 2 * topUnit := mul_right_comm ..
    _ ≤ (2 ^ 53 - 1 : Nat) * topUnit := by
      gcongr
      norm_num

/-- Only zero times a power of ten beyond the largest one is below the limit. -/
theorem eq_zero_of_mul_pow_lt {s n : Nat} (hn : maxTenPow < n)
    (h : (s : ℚ) * 10 ^ n < belowLargest.magnitude) : s = 0 := by
  by_contra hne
  have hlt : s * 10 ^ n < (2 ^ 53 - 3) * topUnit := by
    rw [magnitude_belowLargest] at h
    exact_mod_cast h
  have hpow : 10 ^ (maxTenPow + 1) ≤ 10 ^ n := Nat.pow_le_pow_right (by decide) hn
  have hle : 10 ^ n ≤ s * 10 ^ n := Nat.le_mul_of_pos_left _ (Nat.pos_of_ne_zero hne)
  exact absurd ((hpow.trans hle).trans_lt hlt) (not_lt.2 le_ten_pow_succ_maxTenPow)

/-- A word times a power of ten is in range if it is a little below the limit. -/
theorem exists_scale? {significand : Nat} (negative : Bool) {e : Int}
    (hword : significand < 2 ^ 64)
    (h : (significand : ℚ) * 10 ^ e < belowLargest.magnitude) :
    ∃ y, (round? binary64 negative significand 1).bind (·.scale? e) = some y := by
  have hlarge : (significand : ℚ) ≤ largest.magnitude := by
    have hle : significand ≤ 10 ^ maxTenPow := hword.le.trans (by decide +kernel)
    exact (Nat.cast_le.2 hle).trans (ten_pow_le_largest le_rfl)
  obtain ⟨x, hx, hupper⟩ := exists_round?_nat negative hlarge
  rw [hx, Option.bind_some, scale?]
  split
  · exact x.exists_lower? _
  · next he =>
    obtain ⟨n, rfl⟩ := Int.eq_ofNat_of_zero_le (not_lt.1 he)
    rw [zpow_natCast] at h
    split
    · next hn =>
      obtain ⟨p, hp, -, hp'⟩ := exists_tenPow? (n := n) (by exact_mod_cast hn)
      have hle := scaled_le_largest hupper hp' p.magnitude_nonneg (Nat.cast_nonneg _) h
      rw [← magnitude_mul] at hle
      obtain ⟨y, hy, -⟩ := exists_round?_of_le (by decide) (x.negative != p.negative)
        (Nat.mul_pos x.denominator_pos p.denominator_pos) hle
      rw [Int.toNat_natCast, hp]
      exact ⟨y, hy⟩
    · next hn =>
      have hx0 : x.isZero = true := by
        apply isZero_of_magnitude_le
        rw [eq_zero_of_mul_pow_lt (by omega) h, Nat.cast_zero, zero_mul] at hupper
        exact hupper
      exact ⟨x, if_pos hx0⟩

end Binary

end StreamedUi.Numeric
