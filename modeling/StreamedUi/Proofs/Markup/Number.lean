import StreamedUi.Markup.Attribute
import StreamedUi.Proofs.Json.Numeral

/-! Numbers in expressions. They are written by the rule of ECMAScript, which `NumberText` states
for the digits of a number and the place of its point, and their text means what the digits mean
(`numberChars_float`). -/

namespace StreamedUi

open Json Numeric

/-- The value of a numeral as it is written. -/
def Json.Numeral.value (n : Numeral) : ℚ := (if n.negative then -1 else 1) * n.decimal.value

namespace Markup

/-! ## The rule -/

variable {digits text : List Char} {n : Int}

/-- A power of ten behind a digit that stands at the place `n` before the point. -/
def powerMark (n : Int) : List Char :=
  'e' :: (if n < 0 then '-' else '+') :: digitChars (n - 1).natAbs

/-- The text of the number `0.d₁d₂…dₖ * 10 ^ n`, for its digits `d₁d₂…dₖ`. -/
inductive NumberText (digits : List Char) (n : Int) : List Char → Prop
  /-- The digits and zeros up to the point. -/
  | whole {m : Nat} : digits.length + m = n → n ≤ 21 →
    NumberText digits n (digits ++ List.replicate m '0')
  /-- The point among the digits. -/
  | inside {front back : List Char} : digits = front ++ back → front.length = n → 0 < n →
    back ≠ [] → n ≤ 21 → NumberText digits n (front ++ '.' :: back)
  /-- A few zeros between the point and the digits. -/
  | before {m : Nat} : n = -m → m < 6 →
    NumberText digits n ('0' :: '.' :: (List.replicate m '0' ++ digits))
  /-- A single digit and a power of ten. -/
  | power {d : Char} : digits = [d] → n ≤ -6 ∨ 21 < n → NumberText digits n (d :: powerMark n)
  /-- The point behind the first digit, and a power of ten. -/
  | pointPower {d : Char} {rest : List Char} : digits = d :: rest → rest ≠ [] → n ≤ -6 ∨ 21 < n →
    NumberText digits n (d :: '.' :: (rest ++ powerMark n))

theorem exists_numberText (hne : digits ≠ []) (n : Int) : ∃ text, NumberText digits n text := by
  have hpos : 0 < digits.length := List.length_pos_iff.2 hne
  by_cases hrange : -6 < n ∧ n ≤ 21
  · rcases le_or_gt (digits.length : Int) n with hwhole | hwhole
    · exact ⟨_, .whole (m := (n - digits.length).toNat) (by omega) hrange.2⟩
    rcases lt_or_ge 0 n with hn | hn
    · refine ⟨_, .inside (List.take_append_drop n.toNat digits).symm ?_ hn ?_ hrange.2⟩
      · rw [List.length_take]
        omega
      · refine List.ne_nil_of_length_pos ?_
        rw [List.length_drop]
        omega
    · exact ⟨_, .before (m := (-n).toNat) (by omega) (by omega)⟩
  · have hfar : n ≤ -6 ∨ 21 < n := by omega
    obtain ⟨d, rest, rfl⟩ := List.exists_cons_of_ne_nil hne
    cases rest with
    | nil => exact ⟨_, .power rfl hfar⟩
    | cons d' rest => exact ⟨_, .pointPower rfl (List.cons_ne_nil _ _) hfar⟩

/-! ## Writing -/

theorem positional_iff : numberLayout.positional (n - 1) = true ↔ -6 < n ∧ n ≤ 21 := by
  simp only [numberLayout, Bool.and_eq_true, decide_eq_true_eq]
  omega

theorem not_positional_iff : ¬numberLayout.positional (n - 1) = true ↔ n ≤ -6 ∨ 21 < n := by
  rw [positional_iff]
  omega

theorem powerMark_eq (hn : n ≤ -6 ∨ 21 < n) :
    powerMark n =
      'e' :: (if decide (n - 1 < 0) = true then '-' else '+') :: digitChars (n - 1).natAbs := by
  have hsign : n < 0 ↔ decide (n - 1 < 0) = true := by
    rw [decide_eq_true_iff]
    omega
  simp only [powerMark, hsign]

/-- The rule leaves no choice, and numbers are laid out by it. -/
theorem NumberText.eq_layout (h : NumberText digits n text) (hne : digits ≠ []) :
    text = if numberLayout.positional (n - 1) = true then numberLayout.positionalText digits n
      else numberLayout.exponentText digits n := by
  have hpos : 0 < digits.length := List.length_pos_iff.2 hne
  cases h with
  | @whole m hlength hmax =>
    have hm : (n - digits.length).toNat = m := by omega
    rw [if_pos (positional_iff.2 (by omega)), positionalText_whole _ _ (by omega), hm]
    exact (List.append_nil _).symm
  | @inside front back hdigits hlength hn hback hmax =>
    have hbackpos : 0 < back.length := List.length_pos_iff.2 hback
    have hfront : n.toNat = front.length := by omega
    have hshort : ¬(digits.length : Int) ≤ n := by
      rw [hdigits, List.length_append]
      omega
    rw [if_pos (positional_iff.2 (by omega)), positionalText_inside _ _ hshort hn, hfront, hdigits,
      List.take_left, List.drop_left]
  | @before m hm hmax =>
    have hzeros : (-n).toNat = m := by omega
    rw [if_pos (positional_iff.2 (by omega)), positionalText_before _ _ (by omega) (by omega),
      hzeros]
    rfl
  | @power d hdigits hfar =>
    rw [if_neg (not_positional_iff.2 hfar), exponentText_eq rfl, ← powerMark_eq hfar, hdigits]
    rfl
  | @pointPower d rest hdigits hrest hfar =>
    obtain ⟨d', rest, rfl⟩ := List.exists_cons_of_ne_nil hrest
    rw [if_neg (not_positional_iff.2 hfar), exponentText_eq rfl, ← powerMark_eq hfar, hdigits]
    rfl

theorem numberText_iff (hne : digits ≠ []) :
    NumberText digits n text ↔
      text = if numberLayout.positional (n - 1) = true then numberLayout.positionalText digits n
        else numberLayout.exponentText digits n := by
  refine ⟨fun h => h.eq_layout hne, fun h => ?_⟩
  obtain ⟨text', htext'⟩ := exists_numberText hne n
  rwa [h, ← htext'.eq_layout hne]

/-! ## Cutting the digits -/

/-- The digits before a place and those behind it, which has to be among them or at an end. -/
def cut? (digits : List Char) (place : Int) : Option (List Char × List Char) :=
  if 0 ≤ place ∧ place ≤ digits.length then some (digits.splitAt place.toNat) else none

/-- Zeros, of which there cannot be less than none. -/
def zeros? (count : Int) : Option (List Char) :=
  if 0 ≤ count then some (List.replicate count.toNat '0') else none

/-- The text of a number step by step, with no cut outside the digits. -/
def stepText? (digits : List Char) (n : Int) : Option (List Char) :=
  if digits.length ≤ n ∧ n ≤ 21 then (zeros? (n - digits.length)).map (digits ++ ·)
  else if 0 < n ∧ n ≤ 21 then (cut? digits n).map fun (front, back) => front ++ '.' :: back
  else if -6 < n ∧ n ≤ 0 then (zeros? (-n)).map fun zeros => '0' :: '.' :: (zeros ++ digits)
  else if digits.length = 1 then some (digits ++ powerMark n)
  else (cut? digits 1).map fun (first, rest) => first ++ '.' :: (rest ++ powerMark n)

theorem cut?_append (front back : List Char) :
    cut? (front ++ back) front.length = some (front, back) := by
  rw [cut?, if_pos ⟨Int.natCast_nonneg _, by rw [List.length_append]; omega⟩,
    List.splitAt_eq, Int.toNat_natCast, List.take_left, List.drop_left]

theorem zeros?_natCast (m : Nat) : zeros? m = some (List.replicate m '0') :=
  if_pos (Int.natCast_nonneg m)

/-- No step goes outside the digits. -/
theorem NumberText.stepText?_eq (h : NumberText digits n text) (hne : digits ≠ []) :
    stepText? digits n = some text := by
  have hpos : 0 < digits.length := List.length_pos_iff.2 hne
  cases h with
  | @whole m hlength hmax =>
    have hm : n - digits.length = m := by omega
    rw [stepText?, if_pos ⟨by omega, hmax⟩, hm, zeros?_natCast]
    rfl
  | @inside front back hdigits hlength hn hback hmax =>
    have hbackpos : 0 < back.length := List.length_pos_iff.2 hback
    have hshort : ¬((digits.length : Int) ≤ n ∧ n ≤ 21) := by
      rw [hdigits, List.length_append]
      omega
    rw [stepText?, if_neg hshort, if_pos ⟨hn, hmax⟩, hdigits, ← hlength, cut?_append]
    rfl
  | @before m hm hmax =>
    rw [stepText?, if_neg (by omega), if_neg (by omega), if_pos (by omega), hm, neg_neg,
      zeros?_natCast]
    rfl
  | @power d hdigits hfar =>
    have hone : digits.length = 1 := by rw [hdigits, List.length_singleton]
    rw [stepText?, if_neg (by omega), if_neg (by omega), if_neg (by omega), if_pos hone, hdigits]
    rfl
  | @pointPower d rest hdigits hrest hfar =>
    have hmore : digits.length ≠ 1 := by
      have := List.length_pos_iff.2 hrest
      rw [hdigits, List.length_cons]
      omega
    rw [stepText?, if_neg (by omega), if_neg (by omega), if_neg (by omega), if_neg hmore, hdigits]
    have hcut : cut? (d :: rest) 1 = some ([d], rest) := cut?_append [d] rest
    rw [hcut]
    rfl

/-! ## Reading -/

open NumeralReader

/-- The text of a decimal is read as the decimal's value. -/
theorem read?_decimalText (negative : Bool) {d : Decimal} (hd : d.coefficient ≠ 0) :
    ∃ r, NumeralReader.read? (signChars negative ++ numberLayout.decimalText d) = some r ∧
      r.isComplete = true ∧ r.numeral.negative = negative ∧ r.numeral.decimal.value = d.value := by
  rw [Layout.decimalText]
  by_cases hpositional : numberLayout.positional (d.point - 1) = true
  · rw [if_pos hpositional]
    rcases le_or_gt 0 d.exponent with he | he
    · have hlength := length_digitChars d
      have hzeros : (d.point - (digitChars d.coefficient).length).toNat = d.exponent.toNat := by
        omega
      have hwhole : IsWhole (digitChars d.coefficient ++ Layout.zeros d.exponent.toNat ++ []) :=
        (List.append_nil _).symm ▸ isWhole_append_zeros fun h => absurd h hd
      have hmark : (if numberLayout.wholeMark then ['.', '0'] else []) = [] := rfl
      rw [positionalText_whole _ _ (by omega), hzeros, hmark]
      refine ⟨_, read?_whole negative hwhole, ?_, rfl, ?_⟩
      · unfold afterWhole
        split <;> rfl
      · obtain ⟨e, he⟩ := Int.eq_ofNat_of_zero_le he
        rw [List.append_nil, ofDigitChars_append_zeros, he]
        simp [Numeral.decimal, Decimal.value, he]
    rcases lt_or_ge 0 d.point with hp | hp
    · rw [read?_positionalText_inside numberLayout negative hd he hp]
      exact ⟨_, rfl, rfl, rfl, congrArg Decimal.value (Numeral.decimal_places negative _ he.le)⟩
    · rw [read?_positionalText_before numberLayout negative (not_lt.2 hp)]
      exact ⟨_, rfl, rfl, rfl, congrArg Decimal.value (Numeral.decimal_places negative _ he.le)⟩
  · rw [if_neg hpositional, read?_exponentText rfl negative hpositional]
    refine ⟨_, rfl, rfl, Numeral.negative_ofDecimal, ?_⟩
    rw [Numeral.ofDecimal, if_neg hpositional, Numeral.decimal_pointPower]

/-! ## Numbers -/

/-- A number that is not zero is written with its shortest digits, which read back as the number and
do not end in a zero. Behind the sign its text is the one that the rule allows for them, all its
steps stay within the digits, and the text means exactly what the digits mean. -/
theorem numberChars_float (x : Binary binary64) (hx : x.isZero = false) :
    let d := x.shortest .up
    let digits := digitChars d.coefficient
    d.toBinary? binary64 x.negative = some x ∧ d.coefficient % 10 ≠ 0 ∧
      (∃ text, numberChars (.float x) = signChars x.negative ++ text ∧
        stepText? digits d.point = some text ∧
        ∀ text', NumberText digits d.point text' ↔ text' = text) ∧
      ∃ r, NumeralReader.read? (numberChars (.float x)) = some r ∧ r.isComplete = true ∧
        r.numeral.value =
          (if x.negative then -1 else 1) * (d.coefficient * 10 ^ (d.point - digits.length)) := by
  intro d digits
  have hmod : d.coefficient % 10 ≠ 0 := x.shortest_mod (by decide) (by decide) .up hx
  have hne : digits ≠ [] := (isWhole_digitChars _).ne_nil
  have htext : numberChars (.float x) = signChars x.negative ++ numberLayout.decimalText d := by
    show numberLayout.chars x = _
    cases hsign : x.negative <;> simp [Layout.chars, signChars, hsign, hx, d, numberLayout]
  have hrule : NumberText digits d.point (numberLayout.decimalText d) := (numberText_iff hne).2 rfl
  obtain ⟨r, hread, hcomplete, hnegative, hvalue⟩ :=
    read?_decimalText x.negative fun h => hmod (by rw [h])
  have hexp : d.point - digits.length = d.exponent := by
    rw [length_digitChars, sub_sub_cancel]
  refine ⟨Binary.toBinary?_shortest (by decide) (by decide) .up x, hmod,
    ⟨_, htext, hrule.stepText?_eq hne, fun text' => numberText_iff hne⟩, r, ?_, hcomplete, ?_⟩
  · rw [htext, hread]
  · rw [Numeral.value, hnegative, hvalue, hexp, Decimal.value]

/-- The number -1.5e-7. -/
def tiny : Binary binary64 := ⟨true, 5666839779443574, -75, by decide⟩

theorem shortest_tiny : tiny.shortest .up = ⟨15, -8⟩ := by decide +kernel

/-- Its digits are 15, six places behind the point. -/
theorem numberChars_float_tiny :
    tiny.isZero = false ∧ NumberText ['1', '5'] (-6) "1.5e-7".toList ∧
      numberChars (.float tiny) = "-1.5e-7".toList ∧
      ∃ r, NumeralReader.read? (numberChars (.float tiny)) = some r ∧
        r.numeral.value = -(15 * 10 ^ (-8 : ℤ)) := by
  obtain ⟨-, -, ⟨text, htext, -, hrule⟩, r, hread, -, hvalue⟩ := numberChars_float tiny rfl
  rw [shortest_tiny] at hrule hvalue
  have hwritten : NumberText ['1', '5'] (-6) "1.5e-7".toList :=
    .pointPower rfl (List.cons_ne_nil _ _) (.inl le_rfl)
  have heq : "1.5e-7".toList = text := (hrule _).1 hwritten
  refine ⟨rfl, hwritten, ?_, r, hread, ?_⟩
  · rw [htext, ← heq]
    rfl
  · rw [hvalue]
    simp [tiny, Decimal.point, digitCount, digitChars]

end Markup

end StreamedUi
