import StreamedUi.Json.Writer
import StreamedUi.Json.Reader
import StreamedUi.Proofs.Numeric.Shortest

/-! Numbers as JSON text. Every number has a numeral, `Number.numeral`, which is written with the
number's shortest digits (`Numeral.value_decimal_ofDecimal`) and is what a reader makes of the
number's text (`Number.read?_chars`). -/

namespace StreamedUi.Json
open Numeric

/-! ## The numeral of a number -/

/-- The decimal that a number is written as. -/
def Numeral.decimal (n : Numeral) : Decimal :=
  let power : Int := match n.power with
    | none => 0
    | some (false, e) => e
    | some (true, e) => -e
  ⟨n.coefficient, power - n.places⟩

/-- What the text of a decimal is read as: a whole one ends in `.0`, else the point stands among the
digits, unless they are followed by a power of ten. -/
def Numeral.ofDecimal (l : Layout) (negative : Bool) (d : Decimal) : Numeral :=
  if l.positional (d.point - 1) then
    if 0 ≤ d.exponent then
      { negative, coefficient := 10 * (d.coefficient * 10 ^ d.exponent.toNat), places := 1 }
    else { negative, coefficient := d.coefficient, places := (-d.exponent).toNat }
  else
    { negative, coefficient := d.coefficient, places := digitCount d.coefficient - 1,
      power := some (d.point - 1 < 0, (d.point - 1).natAbs) }

/-- What the text of a number says. -/
def Number.numeral : Number → Numeral
  | .integer n => { negative := n.val < 0, coefficient := n.val.natAbs }
  | .float x => .ofDecimal floatLayout x.negative (x.shortest floatLayout.tie)

namespace Numeral

variable {l : Layout} {negative : Bool} {d : Decimal}

theorem negative_ofDecimal : (ofDecimal l negative d).negative = negative := by
  unfold ofDecimal
  split_ifs <;> rfl

theorem isWhole_ofDecimal : (ofDecimal l negative d).isWhole = false := by
  unfold ofDecimal isWhole
  split_ifs
  · rfl
  · simp only [Option.isNone_none, Bool.and_true, beq_eq_false_iff_ne]
    omega
  · simp

theorem decimal_power (negative : Bool) (c places : Nat) (e : Int) :
    decimal ⟨negative, c, places, some (e < 0, e.natAbs)⟩ = ⟨c, e - places⟩ := by
  by_cases he : e < 0
  · simp only [decimal, he, decide_true, Decimal.mk.injEq, true_and]
    omega
  · simp only [decimal, he, decide_false, Decimal.mk.injEq, true_and]
    omega

theorem decimal_places {e : Int} (negative : Bool) (c : Nat) (he : e ≤ 0) :
    decimal { negative, coefficient := c, places := (-e).toNat } = ⟨c, e⟩ := by
  have hexp : 0 - ((-e).toNat : Int) = e := by omega
  rw [decimal, hexp]

/-- The point behind the first digit. -/
theorem decimal_pointPower (negative : Bool) (d : Decimal) :
    decimal ⟨negative, d.coefficient, digitCount d.coefficient - 1,
      some (d.point - 1 < 0, (d.point - 1).natAbs)⟩ = d := by
  have hcount := digitCount_pos d.coefficient
  have hexp : d.point - 1 - ((digitCount d.coefficient - 1 : Nat) : Int) = d.exponent := by
    rw [Decimal.point]
    omega
  rw [decimal_power, hexp]

theorem value_decimal_ofDecimal : (ofDecimal l negative d).decimal.value = d.value := by
  unfold ofDecimal
  split_ifs with _ he
  · obtain ⟨e, he⟩ := Int.eq_ofNat_of_zero_le he
    simp only [decimal, Decimal.value, he, Int.toNat_natCast]
    push_cast
    field_simp
    exact congrArg _ (zpow_natCast 10 e).symm
  · rw [decimal_places negative _ (not_le.1 he).le]
  · rw [decimal_pointPower]

end Numeral

/-! ## Reading digits -/

namespace NumeralReader

variable {n : Numeral} {cs ds : List Char} {part : NumeralPart}

def run (r : NumeralReader) (cs : List Char) : Option NumeralReader := cs.foldlM step r

/-- A number from its first character on. -/
def read? : List Char → Option NumeralReader
  | [] => none
  | c :: cs => (start? c).bind (run · cs)

theorem run_cons (r : NumeralReader) (c : Char) (cs : List Char) :
    r.run (c :: cs) = (r.step c).bind (run · cs) := rfl

theorem run_append (r : NumeralReader) (cs ds : List Char) :
    r.run (cs ++ ds) = (r.run cs).bind (run · ds) := by
  rw [run, List.foldlM_append]
  rfl

theorem read?_append {r : NumeralReader} (h : read? cs = some r) (ds : List Char) :
    read? (cs ++ ds) = r.run ds := by
  cases cs with
  | nil => cases h
  | cons c cs =>
    obtain ⟨s, hs, hr⟩ := Option.bind_eq_some_iff.1 h
    rw [List.cons_append, read?, hs, Option.bind_some, run_append, hr, Option.bind_some]

theorem run_whole (n : Numeral) (h : ∀ c ∈ ds, isDigit c = true) :
    run ⟨n, .whole⟩ ds =
      some ⟨{ n with coefficient := Nat.ofDigitChars 10 ds n.coefficient }, .whole⟩ := by
  induction ds generalizing n with
  | nil => rfl
  | cons c ds ih =>
    obtain ⟨hc, hds⟩ := List.forall_mem_cons.1 h
    have hstep : step ⟨n, .whole⟩ c = some ⟨addDigit n c, .whole⟩ := if_pos hc
    rw [run_cons, hstep, Option.bind_some, ih _ hds, Nat.ofDigitChars_cons]
    rfl

theorem run_places (n : Numeral) (h : ∀ c ∈ ds, isDigit c = true) :
    run ⟨n, .places⟩ ds =
      some ⟨{ n with
        coefficient := Nat.ofDigitChars 10 ds n.coefficient, places := n.places + ds.length },
        .places⟩ := by
  induction ds generalizing n with
  | nil => rfl
  | cons c ds ih =>
    obtain ⟨hc, hds⟩ := List.forall_mem_cons.1 h
    have hstep : step ⟨n, .places⟩ c = some ⟨addPlace n c, .places⟩ := if_pos hc
    rw [run_cons, hstep, Option.bind_some, ih _ hds, Nat.ofDigitChars_cons, List.length_cons,
      Nat.add_comm ds.length, ← Nat.add_assoc]
    rfl

theorem run_power (n : Numeral) (negative : Bool) (e : Nat) (h : ∀ c ∈ ds, isDigit c = true) :
    run ⟨{ n with power := some (negative, e) }, .power⟩ ds =
      some ⟨{ n with power := some (negative, Nat.ofDigitChars 10 ds e) }, .power⟩ := by
  induction ds generalizing e with
  | nil => rfl
  | cons c ds ih =>
    obtain ⟨hc, hds⟩ := List.forall_mem_cons.1 h
    have hstep : step ⟨{ n with power := some (negative, e) }, .power⟩ c =
        some ⟨{ n with power := some (negative, 10 * e + digitValue c) }, .power⟩ := if_pos hc
    rw [run_cons, hstep, Option.bind_some, ih _ hds, Nat.ofDigitChars_cons]
    rfl

/-! ## Reading the parts of a number -/

/-- Digits before the point: a leading zero stands alone. -/
structure IsWhole (ds : List Char) : Prop where
  ne_nil : ds ≠ []
  isDigit : ∀ c ∈ ds, isDigit c = true
  zero : ∀ rest, ds = '0' :: rest → rest = []

/-- What may be read last before a point or a power of ten. -/
def afterWhole (ds : List Char) : NumeralPart := if ds = ['0'] then .zero else .whole

/-- A minus sign, or nothing. -/
def signChars (negative : Bool) : List Char := if negative then ['-'] else []

theorem read?_whole (negative : Bool) (h : IsWhole ds) :
    read? (signChars negative ++ ds) =
      some ⟨{ negative, coefficient := ofDigitChars ds }, afterWhole ds⟩ := by
  obtain ⟨hne, hdigit, hzero⟩ := h
  cases ds with
  | nil => exact absurd rfl hne
  | cons c ds =>
    obtain ⟨hc, hds⟩ := List.forall_mem_cons.1 hdigit
    by_cases hc0 : c = '0'
    · subst hc0
      obtain rfl := hzero ds rfl
      cases negative <;> rfl
    · have hminus : c ≠ '-' := by rintro rfl; cases hc
      have hpart : afterWhole (c :: ds) = .whole := if_neg fun h => hc0 (List.cons.inj h).1
      have hcoefficient : ofDigitChars (c :: ds) = Nat.ofDigitChars 10 ds (digitValue c) := by
        simp [ofDigitChars, Nat.ofDigitChars, digitValue]
      cases negative with
      | false =>
        have hstart : start? c = some ⟨{ coefficient := digitValue c }, .whole⟩ := by
          rw [start?, if_neg hminus, if_neg hc0, if_pos hc]
        show (start? c).bind (run · ds) = _
        rw [hstart, Option.bind_some, run_whole _ hds, hpart, hcoefficient]
      | true =>
        have hstep : step ⟨{ negative := true }, .sign⟩ c =
            some ⟨{ negative := true, coefficient := digitValue c }, .whole⟩ := by
          simp [step, hc0, hc, addDigit]
        show (step ⟨{ negative := true }, .sign⟩ c).bind (run · ds) = _
        rw [hstep, Option.bind_some, run_whole _ hds, hpart, hcoefficient]

theorem run_fraction (n : Numeral) (ws : List Char) (hne : ds ≠ [])
    (h : ∀ c ∈ ds, isDigit c = true) :
    run ⟨n, afterWhole ws⟩ ('.' :: ds) =
      some ⟨{ n with
        coefficient := Nat.ofDigitChars 10 ds n.coefficient, places := n.places + ds.length },
        .places⟩ := by
  have hpoint : step ⟨n, afterWhole ws⟩ '.' = some ⟨n, .point⟩ := by
    unfold afterWhole
    split <;> rfl
  obtain ⟨c, ds, rfl⟩ := List.exists_cons_of_ne_nil hne
  have hstep : step ⟨n, .point⟩ c = step ⟨n, .places⟩ c := by
    simp [step, (List.forall_mem_cons.1 h).1]
  rw [run_cons, hpoint, Option.bind_some, run_cons, hstep, ← run_cons, run_places n h]

/-- A sign and digits after an `e`. -/
theorem run_power_mark (n : Numeral) (negative : Bool)
    (hpart : part = .places ∨ ∃ ws, part = afterWhole ws) (hne : ds ≠ [])
    (h : ∀ c ∈ ds, isDigit c = true) :
    run ⟨n, part⟩ ('e' :: (if negative then '-' else '+') :: ds) =
      some ⟨{ n with power := some (negative, ofDigitChars ds) }, .power⟩ := by
  have hmark : step ⟨n, part⟩ 'e' = some ⟨n, .powerMark⟩ := by
    rcases hpart with rfl | ⟨ws, rfl⟩
    · rfl
    · unfold afterWhole
      split <;> rfl
  have hsign : step ⟨n, .powerMark⟩ (if negative then '-' else '+') =
      some ⟨{ n with power := some (negative, 0) }, .powerSign⟩ := by
    cases negative <;> rfl
  obtain ⟨c, ds, rfl⟩ := List.exists_cons_of_ne_nil hne
  have hstep : step ⟨{ n with power := some (negative, 0) }, .powerSign⟩ c =
      step ⟨{ n with power := some (negative, 0) }, .power⟩ c := rfl
  rw [run_cons, hmark, Option.bind_some, run_cons, hsign, Option.bind_some, run_cons, hstep,
    ← run_cons, run_power n negative 0 h]
  rfl

end NumeralReader

/-! ## Reading the text of a number -/

section Text
open NumeralReader

theorem isDigit_digitChars {n : Nat} : ∀ c ∈ digitChars n, isDigit c = true :=
  fun _ => isDigit_of_mem_digitChars

theorem isDigit_zeros {n : Nat} : ∀ c ∈ Layout.zeros n, isDigit c = true := by
  intro c hc
  rw [List.eq_of_mem_replicate hc]
  rfl

/-- Only the digits of zero begin with a zero. -/
theorem digitChars_ne_zero_cons {n : Nat} (hn : n ≠ 0) (ds : List Char) :
    digitChars n ≠ '0' :: ds := by
  induction n using Nat.strongRecOn generalizing ds with
  | ind n ih =>
    intro h
    rw [digitChars] at h
    by_cases hlt : n < 10
    · rw [Nat.toDigits_of_lt_base hlt] at h
      have := Nat.digitChar_eq_zero.1 (List.cons.inj h).1
      omega
    · rw [Nat.toDigits_of_base_le (by decide) (not_lt.1 hlt)] at h
      cases hdiv : Nat.toDigits 10 (n / 10) with
      | nil => exact Nat.toDigits_ne_nil hdiv
      | cons c cs =>
        rw [hdiv, List.cons_append] at h
        obtain rfl := (List.cons.inj h).1
        exact ih (n / 10) (by omega) (by omega) cs hdiv

theorem isWhole_digitChars (n : Nat) : IsWhole (digitChars n) where
  ne_nil := Nat.toDigits_ne_nil
  isDigit := isDigit_digitChars
  zero rest h := by
    by_cases hn : n = 0
    · subst hn
      rw [digitChars, Nat.toDigits_zero] at h
      exact (List.cons.inj h).2.symm
    · exact absurd h (digitChars_ne_zero_cons hn rest)

theorem ofDigitChars_append_zeros (n m : Nat) :
    ofDigitChars (digitChars n ++ Layout.zeros m) = n * 10 ^ m := by
  show Nat.ofDigitChars 10 _ 0 = _
  rw [Nat.ofDigitChars_append, digitChars, Nat.ofDigitChars_ten_toDigits, Layout.zeros,
    Nat.ofDigitChars_replicate_zero, Nat.mul_comm]

theorem isWhole_append_zeros {n : Nat} {e : Nat} (h : n = 0 → e = 0) :
    IsWhole (digitChars n ++ Layout.zeros e) where
  ne_nil h := (isWhole_digitChars n).ne_nil (List.append_eq_nil_iff.1 h).1
  isDigit := List.forall_mem_append.2 ⟨isDigit_digitChars, isDigit_zeros⟩
  zero rest hrest := by
    by_cases hn : n = 0
    · rw [h hn] at hrest
      exact (isWhole_digitChars n).zero rest ((List.append_nil _).symm.trans hrest)
    · cases hdigits : digitChars n with
      | nil => exact absurd hdigits (isWhole_digitChars n).ne_nil
      | cons c cs =>
        rw [hdigits, List.cons_append] at hrest
        obtain rfl := (List.cons.inj hrest).1
        exact absurd hdigits (digitChars_ne_zero_cons hn cs)

theorem isWhole_take {n k : Nat} (hn : n ≠ 0) (hk : 0 < k) : IsWhole ((digitChars n).take k) where
  ne_nil h := by
    rcases List.take_eq_nil_iff.1 h with h | h
    · omega
    · exact (isWhole_digitChars n).ne_nil h
  isDigit c hc := isDigit_digitChars c (List.mem_of_mem_take hc)
  zero rest h := by
    have hdigits := List.take_append_drop k (digitChars n)
    rw [h, List.cons_append] at hdigits
    exact absurd hdigits.symm (digitChars_ne_zero_cons hn _)

theorem isWhole_singleton {c : Char} (hc : isDigit c = true) : IsWhole [c] where
  ne_nil := List.cons_ne_nil c []
  isDigit := List.forall_mem_singleton.2 hc
  zero _ h := (List.cons.inj h).2.symm

variable {ws fs : List Char}

/-- Digits on both sides of a point. -/
theorem read?_fraction (negative : Bool) (hws : IsWhole ws) (hne : fs ≠ [])
    (hfs : ∀ c ∈ fs, isDigit c = true) :
    read? (signChars negative ++ (ws ++ '.' :: fs)) =
      some ⟨{ negative, coefficient := ofDigitChars (ws ++ fs), places := fs.length },
        .places⟩ := by
  have happend : ofDigitChars (ws ++ fs) = Nat.ofDigitChars 10 fs (ofDigitChars ws) :=
    Nat.ofDigitChars_append 0
  rw [← List.append_assoc, read?_append (read?_whole negative hws), run_fraction _ ws hne hfs,
    happend]
  simp

theorem positionalText_whole (l : Layout) (ds : List Char) {p : Int} (h : (ds.length : Int) ≤ p) :
    l.positionalText ds p =
      ds ++ Layout.zeros (p - ds.length).toNat ++ if l.wholeMark then ['.', '0'] else [] := if_pos h

theorem positionalText_inside (l : Layout) (ds : List Char) {p : Int} (h : ¬(ds.length : Int) ≤ p)
    (hp : 0 < p) : l.positionalText ds p = ds.take p.toNat ++ '.' :: ds.drop p.toNat :=
  (if_neg h).trans (if_pos hp)

theorem positionalText_before (l : Layout) (ds : List Char) {p : Int} (h : ¬(ds.length : Int) ≤ p)
    (hp : ¬0 < p) : l.positionalText ds p = ['0'] ++ '.' :: (Layout.zeros (-p).toNat ++ ds) :=
  (if_neg h).trans (if_neg hp)

theorem length_digitChars (d : Decimal) :
    ((digitChars d.coefficient).length : Int) = d.point - d.exponent := by
  rw [Decimal.point, digitCount]
  omega

/-- All digits before the point: a zero follows it. -/
theorem read?_positionalText_whole (negative : Bool) {d : Decimal}
    (hd : d.coefficient = 0 → d.exponent = 0) (he : 0 ≤ d.exponent) :
    read? (signChars negative ++
        floatLayout.positionalText (digitChars d.coefficient) d.point) =
      some ⟨
        { negative, coefficient := 10 * (d.coefficient * 10 ^ d.exponent.toNat), places := 1 },
        .places⟩ := by
  have hlength := length_digitChars d
  have hzeros : (d.point - (digitChars d.coefficient).length).toNat = d.exponent.toNat := by
    omega
  have hwhole : IsWhole (digitChars d.coefficient ++ Layout.zeros d.exponent.toNat) :=
    isWhole_append_zeros fun h => by rw [hd h]; rfl
  have hvalue : ofDigitChars (digitChars d.coefficient ++ Layout.zeros d.exponent.toNat ++ ['0']) =
      10 * (d.coefficient * 10 ^ d.exponent.toNat) := by
    rw [← ofDigitChars_append_zeros]
    exact Nat.ofDigitChars_append 0
  have hmark : (if floatLayout.wholeMark then ['.', '0'] else []) = ['.', '0'] := rfl
  rw [positionalText_whole _ _ (by omega), hzeros, hmark,
    read?_fraction negative hwhole (List.cons_ne_nil _ _) (List.forall_mem_singleton.2 rfl),
    hvalue]
  rfl

/-- The point among the digits. -/
theorem read?_positionalText_inside (l : Layout) (negative : Bool) {d : Decimal}
    (hd : d.coefficient ≠ 0) (he : d.exponent < 0) (hp : 0 < d.point) :
    read? (signChars negative ++ l.positionalText (digitChars d.coefficient) d.point) =
      some ⟨{ negative, coefficient := d.coefficient, places := (-d.exponent).toNat },
        .places⟩ := by
  have hlength := length_digitChars d
  have hplaces : ((digitChars d.coefficient).drop d.point.toNat).length =
      (-d.exponent).toNat := by
    rw [List.length_drop]
    omega
  have hne : (digitChars d.coefficient).drop d.point.toNat ≠ [] :=
    List.ne_nil_of_length_pos (by omega)
  rw [positionalText_inside _ _ (by omega) hp,
    read?_fraction negative (isWhole_take hd (by omega)) hne
      fun c hc => isDigit_digitChars c (List.mem_of_mem_drop hc),
    List.take_append_drop, ofDigitChars_digitChars, hplaces]

/-- All digits after the point, behind zeros. -/
theorem read?_positionalText_before (l : Layout) (negative : Bool) {d : Decimal}
    (hp : ¬0 < d.point) :
    read? (signChars negative ++ l.positionalText (digitChars d.coefficient) d.point) =
      some ⟨{ negative, coefficient := d.coefficient, places := (-d.exponent).toNat },
        .places⟩ := by
  have hlength := length_digitChars d
  have hcount : 0 < (digitChars d.coefficient).length := digitCount_pos _
  have hplaces : (Layout.zeros (-d.point).toNat ++ digitChars d.coefficient).length =
      (-d.exponent).toNat := by
    rw [List.length_append, Layout.zeros, List.length_replicate]
    omega
  have hne : Layout.zeros (-d.point).toNat ++ digitChars d.coefficient ≠ [] :=
    List.ne_nil_of_length_pos (by omega)
  have hvalue : ofDigitChars (['0'] ++ (Layout.zeros (-d.point).toNat ++
      digitChars d.coefficient)) = d.coefficient := by
    show Nat.ofDigitChars 10 _ 0 = _
    rw [Nat.ofDigitChars_append, Nat.ofDigitChars_append, Layout.zeros,
      Nat.ofDigitChars_replicate_zero]
    exact ofDigitChars_digitChars d.coefficient
  rw [positionalText_before _ _ (by omega) hp,
    read?_fraction negative (isWhole_singleton rfl) hne
      (List.forall_mem_append.2 ⟨isDigit_zeros, isDigit_digitChars⟩), hvalue, hplaces]

theorem read?_positionalText (negative : Bool) {d : Decimal}
    (hd : d.coefficient = 0 → d.exponent = 0)
    (hpositional : floatLayout.positional (d.point - 1) = true) :
    read? (signChars negative ++
        floatLayout.positionalText (digitChars d.coefficient) d.point) =
      some ⟨.ofDecimal floatLayout negative d, .places⟩ := by
  rw [Numeral.ofDecimal, if_pos hpositional]
  by_cases he : 0 ≤ d.exponent
  · rw [if_pos he, read?_positionalText_whole negative hd he]
  rw [if_neg he]
  by_cases hp : 0 < d.point
  · exact read?_positionalText_inside floatLayout negative (fun h => he (hd h).ge) (not_le.1 he) hp
  · exact read?_positionalText_before floatLayout negative hp

/-- The first digit before the point, the others after it. -/
def mantissa : List Char → List Char
  | [] => []
  | [d] => [d]
  | d :: rest => d :: '.' :: rest

theorem exponentText_eq {l : Layout} (hl : l.plusSign = true) (ds : List Char) (p : Int) :
    l.exponentText ds p =
      mantissa ds ++
        'e' :: (if decide (p - 1 < 0) = true then '-' else '+') :: digitChars (p - 1).natAbs := by
  have hsign : (if p - 1 < 0 then ['-'] else if l.plusSign = true then ['+'] else []) =
      [if decide (p - 1 < 0) = true then '-' else '+'] := by
    by_cases hp : p - 1 < 0
    · rw [if_pos hp, if_pos (decide_eq_true hp)]
    · rw [if_neg hp, if_neg fun h => hp (of_decide_eq_true h), if_pos hl]
  simp only [Layout.exponentText, hsign, List.append_assoc]
  rcases ds with _ | ⟨_, _ | _⟩ <;> rfl

theorem read?_mantissa (negative : Bool) (n : Nat) :
    ∃ part, (part = .places ∨ ∃ ws, part = afterWhole ws) ∧
      read? (signChars negative ++ mantissa (digitChars n)) =
        some ⟨{ negative, coefficient := n, places := digitCount n - 1 }, part⟩ := by
  have hdigits := isDigit_digitChars (n := n)
  have hvalue := ofDigitChars_digitChars n
  rw [digitCount]
  rcases hds : digitChars n with _ | ⟨d, _ | ⟨d', rest⟩⟩
  · exact absurd hds Nat.toDigits_ne_nil
  · rw [hds] at hdigits hvalue
    have hd := isWhole_singleton (hdigits d (List.mem_singleton_self d))
    exact ⟨_, .inr ⟨_, rfl⟩, hvalue ▸ read?_whole negative hd⟩
  · rw [hds] at hdigits hvalue
    obtain ⟨hd, hrest⟩ := List.forall_mem_cons.1 hdigits
    exact ⟨_, .inl rfl,
      hvalue ▸ read?_fraction negative (isWhole_singleton hd) (List.cons_ne_nil _ _) hrest⟩

theorem read?_exponentText {l : Layout} (hl : l.plusSign = true) (negative : Bool) {d : Decimal}
    (hpositional : ¬l.positional (d.point - 1) = true) :
    read? (signChars negative ++ l.exponentText (digitChars d.coefficient) d.point) =
      some ⟨.ofDecimal l negative d, .power⟩ := by
  obtain ⟨part, hpart, hmantissa⟩ := read?_mantissa negative d.coefficient
  have hpower : digitChars (d.point - 1).natAbs ≠ [] := (isWhole_digitChars _).ne_nil
  rw [Numeral.ofDecimal, if_neg hpositional, exponentText_eq hl, ← List.append_assoc,
    read?_append hmantissa, run_power_mark _ _ hpart hpower isDigit_digitChars,
    ofDigitChars_digitChars]

/-- The text of a number is read as its numeral. -/
theorem Number.read?_chars (n : Number) :
    ∃ r, read? n.chars = some r ∧ r.numeral = n.numeral ∧ r.isComplete = true := by
  cases n with
  | integer n =>
    have htext : intChars n.val = signChars (n.val < 0) ++ digitChars n.val.natAbs := by
      by_cases hn : n.val < 0 <;> simp [intChars, signChars, hn]
    refine ⟨_, htext ▸ read?_whole _ (isWhole_digitChars _), ?_, ?_⟩
    · rw [ofDigitChars_digitChars]
      rfl
    · unfold afterWhole
      split <;> rfl
  | float x =>
    have htext : floatLayout.chars x =
        signChars x.negative ++ floatLayout.decimalText (x.shortest floatLayout.tie) := by
      cases hx : x.negative <;> simp [Layout.chars, signChars, floatLayout, hx]
    have hzero (h : (x.shortest floatLayout.tie).coefficient = 0) :
        (x.shortest floatLayout.tie).exponent = 0 := by
      rw [Binary.shortest, if_pos (Binary.isZero_of_coefficient_shortest (by decide) (by decide) h)]
    show ∃ r, read? (floatLayout.chars x) = some r ∧ _
    rw [htext, Layout.decimalText]
    by_cases hpositional :
        floatLayout.positional ((x.shortest floatLayout.tie).point - 1) = true
    · rw [if_pos hpositional, read?_positionalText _ hzero hpositional]
      exact ⟨_, rfl, rfl, rfl⟩
    · rw [if_neg hpositional, read?_exponentText rfl _ hpositional]
      exact ⟨_, rfl, rfl, rfl⟩

end Text

end StreamedUi.Json
