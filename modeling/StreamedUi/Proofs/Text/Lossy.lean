import StreamedUi.Proofs.Text.Bytewise

/-! Lossy decoding of bytes: what is not UTF-8 is replaced, one U+FFFD for each maximal part, by
Unicode's rule for ill-formed text. `Lossy` says this without a reader; every byte sequence has
exactly one lossy decoding (`Lossy.unique`), and the reader produces it whatever chunks the bytes
come in (`Utf8Reader.pushAll_lossy`), since it may as well take them one by one. -/

namespace StreamedUi.Text

/-- What is replaced as one where `part ++ rest` begins with no character: the longest beginning of
one, or a single byte if there is none. -/
structure MaximalSubpart (part rest : List UInt8) : Prop where
  ne_nil : part ≠ []
  ill_formed : ∀ c : Char, ¬String.utf8EncodeChar c <+: part ++ rest
  begins : Begins part ∨ part.length = 1
  maximal : ∀ longer, longer <+: part ++ rest → Begins longer → longer.length ≤ part.length

/-- The bytes decode to the characters, with U+FFFD for what is no encoding. -/
inductive Lossy : List UInt8 → List Char → Prop
  | nil : Lossy [] []
  | char (c : Char) {bs cs} : Lossy bs cs → Lossy (String.utf8EncodeChar c ++ bs) (c :: cs)
  | subpart {part rest cs} : MaximalSubpart part rest → Lossy rest cs →
    Lossy (part ++ rest) (replacement :: cs)

theorem Begins.shorten {bs front : List UInt8} (h : Begins bs) (hfront : front <+: bs) :
    Begins front :=
  let ⟨c, hc⟩ := h
  ⟨c, hfront.trans hc⟩

theorem MaximalSubpart.length_le {part rest part' rest' : List UInt8}
    (h : MaximalSubpart part rest) (h' : MaximalSubpart part' rest')
    (heq : part ++ rest = part' ++ rest') : part'.length ≤ part.length := by
  rcases h'.begins with hb | hone
  · exact h.maximal part' (heq ▸ List.prefix_append part' rest') hb
  · have := List.length_pos_iff.2 h.ne_nil
    omega

theorem MaximalSubpart.inj {part rest part' rest' : List UInt8} (h : MaximalSubpart part rest)
    (h' : MaximalSubpart part' rest') (heq : part ++ rest = part' ++ rest') :
    part = part' ∧ rest = rest' :=
  List.append_inj heq (Nat.le_antisymm (h'.length_le h heq.symm) (h.length_le h' heq))

theorem Lossy.unique {bs : List UInt8} {cs cs' : List Char} (h : Lossy bs cs)
    (h' : Lossy bs cs') : cs = cs' := by
  induction h generalizing cs' with
  | nil =>
    generalize hnil : [] = bs at h'
    cases h' with
    | nil => rfl
    | char c _ => exact absurd (List.append_eq_nil_iff.1 hnil.symm).1 String.utf8EncodeChar_ne_nil
    | subpart hpart _ => exact absurd (List.append_eq_nil_iff.1 hnil.symm).1 hpart.ne_nil
  | @char c bs cs _ ih =>
    generalize heq : String.utf8EncodeChar c ++ bs = ds at h'
    cases h' with
    | nil => exact absurd (List.append_eq_nil_iff.1 heq).1 String.utf8EncodeChar_ne_nil
    | char d h' =>
      obtain rfl := utf8EncodeChar_append_inj heq
      rw [ih (List.append_cancel_left heq ▸ h')]
    | subpart hpart _ => exact absurd (heq ▸ List.prefix_append _ bs) (hpart.ill_formed c)
  | @subpart part rest cs hpart _ ih =>
    generalize heq : part ++ rest = ds at h'
    cases h' with
    | nil => exact absurd (List.append_eq_nil_iff.1 heq).1 hpart.ne_nil
    | char d _ => exact absurd (heq.symm ▸ List.prefix_append _ _) (hpart.ill_formed d)
    | subpart hpart' h' =>
      obtain ⟨rfl, rfl⟩ := hpart.inj hpart' heq
      rw [ih h']

/-- The lossy decoding of well-formed text is the text. -/
theorem lossy_utf8EncodeChar (cs : List Char) : Lossy (cs.flatMap String.utf8EncodeChar) cs := by
  induction cs with
  | nil => exact .nil
  | cons c cs ih => exact .char c ih

/-- Bytes that could go on to be a character are replaced as one if they do not. -/
theorem Chain.maximalSubpart {held rest : List UInt8} (h : Chain held)
    (hopen : (continuation? held).isSome)
    (hrest : ∀ b rest', rest = b :: rest' → ¬Begins (held ++ [b])) : MaximalSubpart held rest := by
  have hmaximal : ∀ longer, longer <+: held ++ rest → Begins longer →
      longer.length ≤ held.length := by
    intro longer hlonger hb
    refine Nat.le_of_not_lt fun hlt => ?_
    obtain ⟨more, rfl⟩ := List.prefix_of_prefix_length_le (List.prefix_append held rest) hlonger
      (Nat.le_of_lt hlt)
    rw [List.prefix_append_right_inj] at hlonger
    cases more with
    | nil => simp at hlt
    | cons b more =>
      obtain ⟨rest', rfl⟩ := hlonger
      exact hrest b _ rfl (hb.shorten ⟨more, by simp⟩)
  refine ⟨h.ne_nil, fun c hc => ?_, .inl h.begins, hmaximal⟩
  -- An encoding at the front would have to be a beginning of `held`, but nothing follows one.
  have hle := hmaximal _ hc ⟨c, List.prefix_rfl⟩
  obtain ⟨more, rfl⟩ := List.prefix_of_prefix_length_le hc (List.prefix_append held rest) hle
  cases more with
  | nil =>
    rw [List.append_nil, continuation?_utf8EncodeChar] at hopen
    exact absurd hopen Bool.false_ne_true
  | cons b more =>
    have hchain : Chain (String.utf8EncodeChar c ++ [b]) := h.shorten ⟨more, by simp⟩ (by simp)
    have hsome := (hchain.follows String.utf8EncodeChar_ne_nil).isSome
    rw [continuation?_utf8EncodeChar] at hsome
    exact absurd hsome Bool.false_ne_true

/-- A byte that begins no character is replaced by itself. -/
theorem maximalSubpart_singleton {b : UInt8} {rest : List UInt8} (h : ¬Begins [b]) :
    MaximalSubpart [b] rest := by
  have hfront : ∀ longer, longer <+: [b] ++ rest → Begins longer → longer = [] := by
    intro longer hlonger hb
    rcases List.prefix_cons_iff.1 hlonger with rfl | ⟨more, rfl, -⟩
    · rfl
    · exact absurd (hb.shorten ⟨more, rfl⟩) h
  refine ⟨List.cons_ne_nil b [], fun c hc => ?_, .inr rfl, fun longer hlonger hb => ?_⟩
  · exact String.utf8EncodeChar_ne_nil (hfront _ hc ⟨c, List.prefix_rfl⟩)
  · rw [hfront longer hlonger hb]
    exact Nat.zero_le _

/-! ## One byte -/

theorem Unfinished.proper {held : List UInt8} (h : Unfinished held) :
    ∃ c, held <+: String.utf8EncodeChar c ∧ held.length < (String.utf8EncodeChar c).length := by
  obtain ⟨b, hb⟩ := exists_follows h.2
  obtain ⟨c, hc⟩ := (h.1.more hb).begins
  refine ⟨c, (List.prefix_append held [b]).trans hc, Nat.lt_of_lt_of_le ?_ hc.length_le⟩
  rw [List.length_append, List.length_singleton]
  exact Nat.lt_succ_self _

/-- What the reader does with a byte `b` after the bytes `held`: the bytes that it then holds, and
the characters that are settled. -/
inductive Takes : List UInt8 → UInt8 → List UInt8 → List Char → Prop
  | complete {held b c} : held ++ [b] = String.utf8EncodeChar c → Takes held b [] [c]
  | hold {held b} : Unfinished (held ++ [b]) → Takes held b (held ++ [b]) []
  | reject {b} : ¬Begins [b] → Takes [] b [] [replacement]
  | restart {held b held' cs} : Unfinished held → ¬Begins (held ++ [b]) → Takes [] b held' cs →
    Takes held b held' (replacement :: cs)

theorem takes_start (b : UInt8) :
    Takes [] b (Utf8Reader.start b).1.held (Utf8Reader.start b).2 := by
  unfold Utf8Reader.start
  split
  case isTrue h => exact .complete (utf8EncodeChar_one (UInt8.lt_iff_toNat_lt.1 h)).symm
  case isFalse h =>
    split
    case isTrue hsome => exact .hold ⟨.one (.inr hsome), hsome⟩
    case isFalse hnone =>
      refine .reject fun hb => ?_
      obtain ⟨a, heq, ha⟩ | ⟨_, _, heq, -⟩ | ⟨_, _, _, heq, -⟩ | ⟨_, _, _, _, heq, -⟩ :=
        (chain_iff_begins.2 ⟨List.cons_ne_nil b [], hb⟩).cases_length
      all_goals cases heq
      exact ha.elim h hnone

theorem Unfinished.takes {r : Utf8Reader} (h : Unfinished r.held) (b : UInt8) :
    Takes r.held b (r.step b).1.held (r.step b).2 := by
  obtain ⟨⟨low, high⟩, hr⟩ := Option.isSome_iff_exists.1 h.2
  unfold Utf8Reader.step
  rw [hr]
  dsimp only
  split
  case isTrue hb =>
    rw [Bool.and_eq_true, decide_eq_true_eq, decide_eq_true_eq] at hb
    have hchain := h.1.more ⟨low, high, hr, hb⟩
    split
    case isTrue hsome => exact .hold ⟨hchain, hsome⟩
    case isFalse hnone =>
      exact .complete (hchain.utf8EncodeChar_eq (Option.not_isSome_iff_eq_none.1 hnone)).symm
  case isFalse hb =>
    refine .restart h (fun hbegins => hb ?_) (takes_start b)
    obtain ⟨low', high', hr', hrange⟩ := h.1.begins_concat_iff.1 hbegins
    cases hr.symm.trans hr'
    simpa only [Bool.and_eq_true, decide_eq_true_eq] using hrange

theorem Takes.held_or {held held' : List UInt8} {b : UInt8} {cs : List Char}
    (h : Takes held b held' cs) : held' = [] ∨ Unfinished held' := by
  induction h with
  | complete _ => exact .inl rfl
  | hold h => exact .inr h
  | reject _ => exact .inl rfl
  | restart _ _ _ ih => exact ih

/-! ## Any number of bytes -/

/-- Of the bytes `held` and `bs` all but the last ones, `held'`, are settled as `out`: this is their
lossy decoding whatever becomes of any of the others. -/
def Settles (held bs held' : List UInt8) (out : List Char) : Prop :=
  ∃ settled, held ++ bs = settled ++ held' ∧
    ∀ tail cs, tail <+: held' → Lossy tail cs → Lossy (settled ++ tail) (out ++ cs)

theorem Settles.nil (held : List UInt8) : Settles held [] held [] :=
  ⟨[], List.append_nil held, fun _ _ _ h => h⟩

theorem Takes.settles {held held' held'' bs : List UInt8} {b : UInt8} {cs cs' : List Char}
    (h : Takes held b held' cs) (hrest : Settles held' bs held'' cs') :
    Settles held (b :: bs) held'' (cs ++ cs') := by
  induction h with
  | @complete held b c hc =>
    obtain ⟨settled, heq, hlossy⟩ := hrest
    rw [List.nil_append] at heq
    refine ⟨String.utf8EncodeChar c ++ settled, ?_, fun tail ts htail ht => ?_⟩
    · rw [List.append_assoc, ← heq, ← hc, List.append_assoc]
      rfl
    · rw [List.append_assoc]
      exact .char c (hlossy tail ts htail ht)
  | hold _ =>
    obtain ⟨settled, heq, hlossy⟩ := hrest
    exact ⟨settled, by rw [← heq, List.append_assoc]; rfl, hlossy⟩
  | @reject b hb =>
    obtain ⟨settled, heq, hlossy⟩ := hrest
    refine ⟨[b] ++ settled, congrArg (b :: ·) heq, fun tail ts htail ht => ?_⟩
    rw [List.append_assoc]
    exact .subpart (maximalSubpart_singleton hb) (hlossy tail ts htail ht)
  | @restart held b held' cs hheld hb _ ih =>
    obtain ⟨settled, heq, hlossy⟩ := ih hrest
    refine ⟨held ++ settled, by rw [List.append_assoc, ← heq]; rfl, fun tail ts htail ht => ?_⟩
    rw [List.append_assoc]
    refine .subpart (hheld.1.maximalSubpart hheld.2 fun b' rest' hrest' => ?_)
      (hlossy tail ts htail ht)
    -- What comes after `held` is `b`, if anything does.
    have hfront : settled ++ tail <+: b :: bs := by
      rw [← List.nil_append (b :: bs), heq]
      exact (List.prefix_append_right_inj settled).2 htail
    rw [hrest', List.cons_prefix_cons] at hfront
    rw [hfront.1]
    exact hb

namespace Utf8Reader

theorem Valid.takes {r : Utf8Reader} (h : r.Valid) (b : UInt8) :
    Takes r.held b (r.step b).1.held (r.step b).2 := by
  rcases h with h | h
  · obtain ⟨held⟩ := r
    cases h
    exact takes_start b
  · exact h.takes b

theorem Valid.step {r : Utf8Reader} (h : r.Valid) (b : UInt8) : (r.step b).1.Valid :=
  (h.takes b).held_or

theorem Valid.pushBytes {r : Utf8Reader} (h : r.Valid) (bs : List UInt8) :
    (r.pushBytes bs).1.Valid ∧ Settles r.held bs (r.pushBytes bs).1.held (r.pushBytes bs).2 := by
  induction bs generalizing r with
  | nil => exact ⟨h, .nil r.held⟩
  | cons b bs ih =>
    obtain ⟨hvalid, hsettles⟩ := ih (h.step b)
    exact ⟨hvalid, (h.takes b).settles hsettles⟩

/-! ## Chunks -/

theorem Valid.push {r : Utf8Reader} (h : r.Valid) (bs : List UInt8) : (r.push bs).1.Valid := by
  rw [h.push_eq]
  exact (h.pushBytes bs).1

theorem Valid.push_append {r : Utf8Reader} (h : r.Valid) (bs bs' : List UInt8) :
    r.push (bs ++ bs') = (((r.push bs).1.push bs').1,
      (r.push bs).2 ++ ((r.push bs).1.push bs').2) := by
  rw [(h.push bs).push_eq, h.push_eq, h.push_eq, pushBytes_append, String.ofList_append]

/-- Chunks of bytes one after the other, and the text that they settle. -/
def pushAll (r : Utf8Reader) : List (List UInt8) → Utf8Reader × String
  | [] => (r, "")
  | chunk :: chunks =>
    let (r', text) := r.push chunk
    let (r'', text') := r'.pushAll chunks
    (r'', text ++ text')

theorem pushAll_cons (r : Utf8Reader) (chunk : List UInt8) (chunks : List (List UInt8)) :
    r.pushAll (chunk :: chunks) = (((r.push chunk).1.pushAll chunks).1,
      (r.push chunk).2 ++ ((r.push chunk).1.pushAll chunks).2) := rfl

/-- Where bytes are cut into chunks does not matter. -/
theorem Valid.pushAll_eq {r : Utf8Reader} (h : r.Valid) (chunks : List (List UInt8)) :
    r.pushAll chunks = r.push chunks.flatten := by
  induction chunks generalizing r with
  | nil => exact (h.push_eq []).symm
  | cons chunk chunks ih =>
    rw [pushAll_cons, ih (h.push chunk), List.flatten_cons, h.push_append]

theorem finish_empty : empty.finish.2 = "" := by
  rw [finish, lossyText, settle_eq]
  rfl

/-- A character that is still unfinished at the end is replaced. -/
theorem finish_of_unfinished {r : Utf8Reader} (h : Unfinished r.held) :
    r.finish.2.toList = [replacement] := by
  obtain ⟨held⟩ := r
  rw [finish, lossyText, settle_eq, pushBytes_of_unfinished h]
  simp [h.1.ne_nil]

theorem Valid.lossy_finish {r : Utf8Reader} (h : r.Valid) : Lossy r.held r.finish.2.toList := by
  rcases h with h | h
  · obtain rfl : r = .empty := congrArg Utf8Reader.mk h
    rw [finish_empty]
    exact .nil
  · rw [finish_of_unfinished h, ← List.append_nil r.held]
    refine .subpart (h.1.maximalSubpart h.2 fun _ _ hnil => ?_) .nil
    cases hnil

theorem Valid.length_le {r : Utf8Reader} (h : r.Valid) : r.held.length ≤ 3 := by
  rcases h with h | h
  · rw [h]
    exact Nat.zero_le 3
  · obtain ⟨c, -, hlt⟩ := h.proper
    have := (Chain.utf8EncodeChar c).length_le
    omega

/-- What a reader gives for bytes and at their end is their lossy decoding. -/
theorem lossy_push (bs : List UInt8) :
    Lossy bs ((empty.push bs).2 ++ (empty.push bs).1.finish.2).toList := by
  obtain ⟨hvalid, settled, heq, hlossy⟩ := Valid.empty.pushBytes bs
  have hall := hlossy _ _ List.prefix_rfl hvalid.lossy_finish
  rw [← heq] at hall
  rwa [String.toList_append, Valid.empty.push_eq, String.toList_ofList]

/-- Whatever chunks bytes come in, the texts that a reader gives for them and at the end are
together the one lossy decoding of all the bytes, which is the text itself for an encoded text. In
between, the reader holds a proper beginning of a character if anything, and its texts are the lossy
decoding of all the bytes before that. -/
theorem pushAll_lossy (chunks : List (List UInt8)) :
    let (r, text) := empty.pushAll chunks
    (∀ cs, Lossy chunks.flatten cs ↔ cs = (text ++ r.finish.2).toList) ∧
    (∀ valid : String, chunks.flatten.toByteArray = valid.toByteArray →
      text ++ r.finish.2 = valid) ∧
    (r.held = [] ∨ ∃ c, r.held <+: String.utf8EncodeChar c ∧
      r.held.length < (String.utf8EncodeChar c).length) ∧
    r.held.length ≤ 3 ∧
    ∃ settled, chunks.flatten = settled ++ r.held ∧ ∀ cs, Lossy settled cs ↔ cs = text.toList := by
  obtain ⟨hvalid, settled, heq, hlossy⟩ := Valid.empty.pushBytes chunks.flatten
  rw [Valid.empty.pushAll_eq, Valid.empty.push_eq]
  generalize empty.pushBytes chunks.flatten = reading at hvalid heq hlossy ⊢
  obtain ⟨r, out⟩ := reading
  change chunks.flatten = settled ++ r.held at heq
  have hall : Lossy chunks.flatten (String.ofList out ++ r.finish.2).toList := by
    rw [heq, String.toList_append, String.toList_ofList]
    exact hlossy r.held _ List.prefix_rfl hvalid.lossy_finish
  have hsettled : Lossy settled (String.ofList out).toList := by
    have := hlossy [] [] List.nil_prefix .nil
    rwa [List.append_nil, List.append_nil, ← String.toList_ofList (l := out)] at this
  refine ⟨fun cs => ⟨fun h => h.unique hall, fun h => h ▸ hall⟩, fun valid hbytes => ?_,
    hvalid.imp_right Unfinished.proper, hvalid.length_le, settled, heq,
    fun cs => ⟨fun h => h.unique hsettled, fun h => h ▸ hsettled⟩⟩
  rw [← String.utf8Encode_toList, List.utf8Encode, List.toByteArray_inj] at hbytes
  rw [hbytes] at hall
  exact String.toList_inj.1 (hall.unique (lossy_utf8EncodeChar valid.toList))

theorem pushAll_lossy_star :
    let (r, text) := empty.pushAll [[0xE2], [0x98, 0x85]]
    text ++ r.finish.2 = "★" :=
  (pushAll_lossy [[0xE2], [0x98, 0x85]]).2.1 "★" rfl

end Utf8Reader

end StreamedUi.Text
