import StreamedUi.Text.Utf8

/-! The byte sequences that the reader keeps together are the beginnings of the UTF-8 encodings of
characters (`chain_iff_begins`), and it takes one as complete exactly when it is an encoding
(`Chain.utf8EncodeChar_eq`, `continuation?_utf8EncodeChar`). -/

namespace StreamedUi.Text

/-- The bytes are a beginning of the encoding of some character. -/
def Begins (bs : List UInt8) : Prop := ∃ c : Char, bs <+: String.utf8EncodeChar c

/-- The byte is one of those that may follow. -/
def Follows (held : List UInt8) (b : UInt8) : Prop :=
  ∃ low high, continuation? held = some (low, high) ∧ low ≤ b ∧ b ≤ high

/-- Bytes of which each may follow the ones before it. -/
inductive Chain : List UInt8 → Prop
  | one {b} : b < 0x80 ∨ (continuation? [b]).isSome → Chain [b]
  | more {held b} : Chain held → Follows held b → Chain (held ++ [b])

/-! ## The ranges as numbers -/

theorem isSome_continuation?_singleton {a : UInt8} :
    (continuation? [a]).isSome ↔ 0xC2 ≤ a.toNat ∧ a.toNat ≤ 0xF4 := by
  simp only [continuation?, Bool.and_eq_true, decide_eq_true_eq, beq_iff_eq, UInt8.le_iff_toNat_le,
    ← UInt8.toNat_inj, UInt8.reduceToNat]
  repeat' split
  all_goals simp only [Option.isSome_some, Option.isSome_none, true_iff, Bool.false_eq_true,
    false_iff]
  all_goals omega

theorem follows_iff {held : List UInt8} {b : UInt8} : Follows held b ↔
    (continuation? held).any (fun r => r.1.toNat ≤ b.toNat && b.toNat ≤ r.2.toNat) = true := by
  cases h : continuation? held with
  | none => simp [Follows, h]
  | some r =>
    simp only [Option.any_some, Bool.and_eq_true, decide_eq_true_eq, ← UInt8.le_iff_toNat_le]
    constructor
    · intro hb
      obtain ⟨low, high, heq, hb⟩ := hb
      cases h.symm.trans heq
      exact hb
    · exact fun hb => ⟨r.1, r.2, h, hb⟩

/-- The second byte is a trailing one, and is restricted further after the lead bytes that would
else allow overlong forms, surrogates or numbers beyond the last code point. -/
theorem follows_singleton_iff {a b : UInt8} : Follows [a] b ↔
    (0xC2 ≤ a.toNat ∧ a.toNat ≤ 0xF4) ∧ (0x80 ≤ b.toNat ∧ b.toNat ≤ 0xBF) ∧
      (a.toNat = 0xE0 → 0xA0 ≤ b.toNat) ∧ (a.toNat = 0xED → b.toNat ≤ 0x9F) ∧
      (a.toNat = 0xF0 → 0x90 ≤ b.toNat) ∧ (a.toNat = 0xF4 → b.toNat ≤ 0x8F) := by
  simp only [follows_iff, continuation?, Bool.and_eq_true, decide_eq_true_eq, beq_iff_eq,
    UInt8.le_iff_toNat_le, ← UInt8.toNat_inj, UInt8.reduceToNat]
  repeat' split
  all_goals simp only [Option.any_some, Option.any_none, Bool.and_eq_true, decide_eq_true_eq,
    Bool.false_eq_true, UInt8.reduceToNat, false_iff]
  all_goals omega

theorem follows_pair_iff {a b c : UInt8} :
    Follows [a, b] c ↔ 0xE0 ≤ a.toNat ∧ 0x80 ≤ c.toNat ∧ c.toNat ≤ 0xBF := by
  simp only [follows_iff, continuation?, UInt8.le_iff_toNat_le, UInt8.reduceToNat]
  split
  all_goals simp only [Option.any_some, Option.any_none, Bool.and_eq_true, decide_eq_true_eq,
    Bool.false_eq_true, UInt8.reduceToNat, false_iff]
  all_goals omega

theorem follows_triple_iff {a b c d : UInt8} :
    Follows [a, b, c] d ↔ 0xF0 ≤ a.toNat ∧ 0x80 ≤ d.toNat ∧ d.toNat ≤ 0xBF := by
  simp only [follows_iff, continuation?, UInt8.le_iff_toNat_le, UInt8.reduceToNat]
  split
  all_goals simp only [Option.any_some, Option.any_none, Bool.and_eq_true, decide_eq_true_eq,
    Bool.false_eq_true, UInt8.reduceToNat, false_iff]
  all_goals omega

/-! ## Complete sequences are encodings -/

theorem toNat_val_ofNat {n : Nat} (h : n.isValidChar) : (Char.ofNat n).val.toNat = n := by
  rw [Char.ofNat, dif_pos h]
  rfl

theorem utf8EncodeChar_ofNat {n : Nat} (h : n.isValidChar) :
    String.utf8EncodeChar (Char.ofNat n) =
      if n ≤ 0x7F then [UInt8.ofNat n]
      else if n ≤ 0x7FF then [UInt8.ofNat (n / 64 % 32 + 0xC0), UInt8.ofNat (n % 64 + 0x80)]
      else if n ≤ 0xFFFF then
        [UInt8.ofNat (n / 4096 % 16 + 0xE0), UInt8.ofNat (n / 64 % 64 + 0x80),
          UInt8.ofNat (n % 64 + 0x80)]
      else
        [UInt8.ofNat (n / 262144 % 8 + 0xF0), UInt8.ofNat (n / 4096 % 64 + 0x80),
          UInt8.ofNat (n / 64 % 64 + 0x80), UInt8.ofNat (n % 64 + 0x80)] := by
  unfold String.utf8EncodeChar
  rw [toNat_val_ofNat h]

theorem ofNat_eq {n : Nat} {b : UInt8} (h : n = b.toNat) : UInt8.ofNat n = b := by
  rw [h, UInt8.ofNat_toNat]

theorem utf8EncodeChar_one {a : UInt8} (ha : a.toNat < 0x80) :
    String.utf8EncodeChar (Char.ofNat a.toNat) = [a] := by
  have hvalid : a.toNat.isValidChar := by
    left
    omega
  rw [utf8EncodeChar_ofNat hvalid, if_pos (by omega), UInt8.ofNat_toNat]

theorem codePoint_two {a b : UInt8} :
    codePoint [a, b] = (a.toNat - 0xC0) * 64 + (b.toNat - 0x80) := rfl

theorem codePoint_three {a b c : UInt8} : codePoint [a, b, c] =
    ((a.toNat - 0xE0) * 64 + (b.toNat - 0x80)) * 64 + (c.toNat - 0x80) := rfl

theorem codePoint_four {a b c d : UInt8} : codePoint [a, b, c, d] =
    (((a.toNat - 0xF0) * 64 + (b.toNat - 0x80)) * 64 + (c.toNat - 0x80)) * 64 +
      (d.toNat - 0x80) := rfl

theorem utf8EncodeChar_two {a b : UInt8} {n : Nat} (hb : Follows [a] b) (ha : a.toNat < 0xE0)
    (hn : codePoint [a, b] = n) : String.utf8EncodeChar (Char.ofNat n) = [a, b] := by
  rw [follows_singleton_iff] at hb
  rw [codePoint_two] at hn
  have hvalid : n.isValidChar := by
    unfold Nat.isValidChar
    omega
  rw [utf8EncodeChar_ofNat hvalid, if_neg (by omega), if_pos (by omega),
    ofNat_eq (b := a) (by omega), ofNat_eq (b := b) (by omega)]

theorem utf8EncodeChar_three {a b c : UInt8} {n : Nat} (hb : Follows [a] b)
    (hc : Follows [a, b] c) (ha : a.toNat < 0xF0) (hn : codePoint [a, b, c] = n) :
    String.utf8EncodeChar (Char.ofNat n) = [a, b, c] := by
  rw [follows_singleton_iff] at hb
  rw [follows_pair_iff] at hc
  rw [codePoint_three] at hn
  have hvalid : n.isValidChar := by
    unfold Nat.isValidChar
    omega
  rw [utf8EncodeChar_ofNat hvalid, if_neg (by omega), if_neg (by omega), if_pos (by omega),
    ofNat_eq (b := a) (by omega), ofNat_eq (b := b) (by omega), ofNat_eq (b := c) (by omega)]

theorem utf8EncodeChar_four {a b c d : UInt8} {n : Nat} (hb : Follows [a] b)
    (hc : Follows [a, b] c) (hd : Follows [a, b, c] d) (hn : codePoint [a, b, c, d] = n) :
    String.utf8EncodeChar (Char.ofNat n) = [a, b, c, d] := by
  rw [follows_singleton_iff] at hb
  rw [follows_pair_iff] at hc
  rw [follows_triple_iff] at hd
  rw [codePoint_four] at hn
  have hvalid : n.isValidChar := by
    unfold Nat.isValidChar
    omega
  rw [utf8EncodeChar_ofNat hvalid, if_neg (by omega), if_neg (by omega), if_neg (by omega),
    ofNat_eq (b := a) (by omega), ofNat_eq (b := b) (by omega), ofNat_eq (b := c) (by omega),
    ofNat_eq (b := d) (by omega)]

/-! ## Encodings are complete sequences -/

theorem utf8EncodeChar_cases (c : Char) :
    (∃ a, String.utf8EncodeChar c = [a] ∧ a.toNat < 0x80) ∨
    (∃ a b, String.utf8EncodeChar c = [a, b] ∧ Follows [a] b ∧ a.toNat < 0xE0) ∨
    (∃ a b d, String.utf8EncodeChar c = [a, b, d] ∧ Follows [a] b ∧ Follows [a, b] d ∧
      a.toNat < 0xF0) ∨
    ∃ a b d e, String.utf8EncodeChar c = [a, b, d, e] ∧ Follows [a] b ∧ Follows [a, b] d ∧
      Follows [a, b, d] e := by
  have hvalid : c.val.toNat.isValidChar := c.valid
  unfold Nat.isValidChar at hvalid
  unfold String.utf8EncodeChar
  generalize c.val.toNat = n at hvalid
  simp only
  split
  · refine .inl ⟨_, rfl, ?_⟩
    rw [UInt8.toNat_ofNat']
    omega
  split
  · refine .inr (.inl ⟨_, _, rfl, ?_⟩)
    rw [follows_singleton_iff]
    simp only [UInt8.toNat_ofNat']
    omega
  split
  · refine .inr (.inr (.inl ⟨_, _, _, rfl, ?_⟩))
    rw [follows_singleton_iff, follows_pair_iff]
    simp only [UInt8.toNat_ofNat']
    omega
  · refine .inr (.inr (.inr ⟨_, _, _, _, rfl, ?_⟩))
    rw [follows_singleton_iff, follows_pair_iff, follows_triple_iff]
    simp only [UInt8.toNat_ofNat']
    omega

theorem continuation?_pair_eq_none {a b : UInt8} :
    continuation? [a, b] = none ↔ a.toNat < 0xE0 := by
  simp [continuation?, UInt8.lt_iff_toNat_lt]

theorem continuation?_triple_eq_none {a b c : UInt8} :
    continuation? [a, b, c] = none ↔ a.toNat < 0xF0 := by
  simp [continuation?, UInt8.lt_iff_toNat_lt]

theorem continuation?_utf8EncodeChar (c : Char) :
    continuation? (String.utf8EncodeChar c) = none := by
  obtain ⟨a, h, ha⟩ | ⟨a, b, h, -, ha⟩ | ⟨a, b, d, h, -, -, ha⟩ | ⟨a, b, d, e, h, -⟩ :=
    utf8EncodeChar_cases c
  · rw [h, ← Option.not_isSome_iff_eq_none, isSome_continuation?_singleton]
    omega
  · rw [h, continuation?_pair_eq_none]
    exact ha
  · rw [h, continuation?_triple_eq_none]
    exact ha
  · rw [h]
    rfl

theorem utf8EncodeChar_append_inj {c d : Char} {bs ds : List UInt8}
    (h : String.utf8EncodeChar c ++ bs = String.utf8EncodeChar d ++ ds) : c = d := by
  have hc := ByteArray.utf8DecodeChar?_utf8EncodeChar_append (b := bs.toByteArray) (c := c)
  have hd := ByteArray.utf8DecodeChar?_utf8EncodeChar_append (b := ds.toByteArray) (c := d)
  rw [← List.toByteArray_append, h, List.toByteArray_append, hd] at hc
  exact (Option.some.inj hc).symm

/-! ## Chains -/

theorem Follows.isSome {held : List UInt8} {b : UInt8} (h : Follows held b) :
    (continuation? held).isSome := by
  obtain ⟨low, high, h, -⟩ := h
  rw [h]
  rfl

theorem exists_follows {held : List UInt8} (h : (continuation? held).isSome) :
    ∃ b, Follows held b := by
  obtain ⟨⟨low, high⟩, hr⟩ := Option.isSome_iff_exists.1 h
  refine ⟨low, low, high, hr, UInt8.le_refl low, ?_⟩
  unfold continuation? at hr
  repeat' split at hr
  all_goals cases hr
  all_goals decide

namespace Chain

theorem cases_length {bs : List UInt8} (h : Chain bs) :
    (∃ a, bs = [a] ∧ (a < 0x80 ∨ (continuation? [a]).isSome)) ∨
    (∃ a b, bs = [a, b] ∧ Follows [a] b) ∨
    (∃ a b c, bs = [a, b, c] ∧ Follows [a] b ∧ Follows [a, b] c) ∨
    ∃ a b c d, bs = [a, b, c, d] ∧ Follows [a] b ∧ Follows [a, b] c ∧ Follows [a, b, c] d := by
  induction h with
  | @one a h => exact .inl ⟨a, rfl, h⟩
  | @more held x _ hx ih =>
    obtain ⟨a, rfl, -⟩ | ⟨a, b, rfl, hb⟩ | ⟨a, b, c, rfl, hb, hc⟩ | ⟨a, b, c, d, rfl, -⟩ := ih
    · exact .inr (.inl ⟨a, x, rfl, hx⟩)
    · exact .inr (.inr (.inl ⟨a, b, x, rfl, hb, hx⟩))
    · exact .inr (.inr (.inr ⟨a, b, c, x, rfl, hb, hc, hx⟩))
    · exact absurd hx.isSome Bool.false_ne_true

theorem length_le {bs : List UInt8} (h : Chain bs) : bs.length ≤ 4 := by
  obtain ⟨_, rfl, -⟩ | ⟨_, _, rfl, -⟩ | ⟨_, _, _, rfl, -⟩ | ⟨_, _, _, _, rfl, -⟩ := h.cases_length
  all_goals simp

theorem ne_nil {bs : List UInt8} (h : Chain bs) : bs ≠ [] := by
  cases h <;> simp

/-- Past its first byte a chain grows only by what may follow. -/
theorem follows {held : List UInt8} {b : UInt8} (h : Chain (held ++ [b])) (hne : held ≠ []) :
    Follows held b := by
  generalize heq : held ++ [b] = bs at h
  cases h with
  | @one a _ =>
    have : held ++ [b] = [] ++ [a] := heq
    exact absurd (List.append_inj_left' this rfl) hne
  | more _ hb =>
    obtain ⟨rfl, hlast⟩ := List.append_inj' heq rfl
    cases hlast
    exact hb

theorem utf8EncodeChar_eq {bs : List UInt8} (h : Chain bs) (hnone : continuation? bs = none) :
    String.utf8EncodeChar (Char.ofNat (codePoint bs)) = bs := by
  obtain ⟨a, rfl, ha⟩ | ⟨a, b, rfl, hb⟩ | ⟨a, b, c, rfl, hb, hc⟩ | ⟨a, b, c, d, rfl, hb, hc, hd⟩ :=
    h.cases_length
  · refine utf8EncodeChar_one (UInt8.lt_iff_toNat_lt.1 (ha.resolve_right ?_))
    simp [hnone]
  · exact utf8EncodeChar_two hb (continuation?_pair_eq_none.1 hnone) rfl
  · exact utf8EncodeChar_three hb hc (continuation?_triple_eq_none.1 hnone) rfl
  · exact utf8EncodeChar_four hb hc hd rfl

/-- A chain can be continued until it is an encoding. -/
theorem begins {bs : List UInt8} (h : Chain bs) : Begins bs := by
  cases hr : continuation? bs with
  | none =>
    exact ⟨Char.ofNat (codePoint bs), [], by rw [List.append_nil, h.utf8EncodeChar_eq hr]⟩
  | some r =>
    obtain ⟨b, hb⟩ := exists_follows (Option.isSome_iff_exists.2 ⟨r, hr⟩)
    have hlen := (Chain.more h hb).length_le
    obtain ⟨c, hc⟩ := (Chain.more h hb).begins
    exact ⟨c, (List.prefix_append bs [b]).trans hc⟩
termination_by 4 - bs.length
decreasing_by
  simp only [List.length_append, List.length_singleton] at hlen ⊢
  omega

theorem shorten {bs front : List UInt8} (h : Chain bs) (hfront : front <+: bs)
    (hne : front ≠ []) : Chain front := by
  induction h with
  | one h =>
    rcases List.prefix_cons_iff.1 hfront with rfl | ⟨rest, rfl, hrest⟩
    · exact absurd rfl hne
    · rw [List.prefix_nil.1 hrest]
      exact .one h
  | more h hb ih =>
    rcases List.prefix_concat_iff.1 hfront with rfl | hfront
    · exact .more h hb
    · exact ih hfront

theorem utf8EncodeChar (c : Char) : Chain (String.utf8EncodeChar c) := by
  obtain ⟨a, h, ha⟩ | ⟨a, b, h, hb, -⟩ | ⟨a, b, d, h, hb, hd, -⟩ | ⟨a, b, d, e, h, hb, hd, he⟩ :=
    utf8EncodeChar_cases c
  all_goals rw [h]
  · exact .one (.inl (UInt8.lt_iff_toNat_lt.2 ha))
  · exact .more (.one (.inr hb.isSome)) hb
  · exact .more (.more (.one (.inr hb.isSome)) hb) hd
  · exact .more (.more (.more (.one (.inr hb.isSome)) hb) hd) he

end Chain

theorem chain_iff_begins {bs : List UInt8} : Chain bs ↔ bs ≠ [] ∧ Begins bs :=
  ⟨fun h => ⟨h.ne_nil, h.begins⟩, fun ⟨hne, c, hc⟩ => (Chain.utf8EncodeChar c).shorten hc hne⟩

theorem Chain.begins_concat_iff {held : List UInt8} {b : UInt8} (h : Chain held) :
    Begins (held ++ [b]) ↔ Follows held b :=
  ⟨fun hb => (chain_iff_begins.2 ⟨by simp, hb⟩).follows h.ne_nil, fun hb => (h.more hb).begins⟩

end StreamedUi.Text
