import StreamedUi.Proofs.Patch.LastWrite
import StreamedUi.Proofs.Tree.RoundTrip

/-! Patches that put an element under a key of any characters. In a path a tilde and a slash of the
key are written as pairs; decoding replaces one kind of pair after the other, which is the same as
to read the pairs in one pass (`decodeSegment_eq_readPairs`), so each key has a segment that stands
for it (`keyOfSegment?_encodeSegment`). The record of an element with such a path is read as the
operation that puts this element under its key, the very element if the texts of its numbers are
read as these numbers (`put_addressed`). -/

namespace StreamedUi
open Json

/-! ## Segments -/

/-- Writes `text` for each `c`. -/
def writeFor (c : Char) (text : List Char) (cs : List Char) : List Char :=
  cs.flatMap fun d => if d = c then text else [d]

/-- The segment of a key: a tilde is written `~0`, and then a slash `~1`. -/
def encodeSegment (key : List Char) : List Char :=
  writeFor '/' ['~', '1'] (writeFor '~' ['~', '0'] key)

/-- What a segment stands for, in one pass: `~1` is a slash, `~0` is a tilde, and a tilde before
anything else is itself. -/
def readPairs : List Char → List Char
  | '~' :: '1' :: rest => '/' :: readPairs rest
  | '~' :: '0' :: rest => '~' :: readPairs rest
  | c :: rest => c :: readPairs rest
  | [] => []

section Segments

variable {a b c x : Char} {cs key : List Char}

theorem replacePair_pair : replacePair a b c (a :: b :: cs) = c :: replacePair a b c cs := by
  rw [replacePair, if_pos ⟨rfl, rfl⟩]

theorem replacePair_of_head?_ne (h : cs.head? ≠ some b) :
    replacePair a b c (x :: cs) = x :: replacePair a b c cs := by
  cases cs with
  | nil => rfl
  | cons y cs =>
    rw [replacePair, if_neg]
    exact fun hpair => h (congrArg some hpair.2)

theorem replacePair_of_ne (h : x ≠ a) :
    replacePair a b c (x :: cs) = x :: replacePair a b c cs := by
  cases cs with
  | nil => rfl
  | cons y cs =>
    rw [replacePair, if_neg]
    exact fun hpair => h hpair.1

/-- A character that takes no part in the pairs does not come to the front or leave it. -/
theorem head?_replacePair (ha : x ≠ a) (hc : x ≠ c) :
    (replacePair a b c cs).head? = some x ↔ cs.head? = some x := by
  match cs with
  | [] => rfl
  | [y] => rfl
  | y :: z :: rest =>
    rw [replacePair]
    split
    · next h =>
      simp only [List.head?_cons, Option.some.injEq, h.1]
      exact ⟨fun hx => absurd hx.symm hc, fun hx => absurd hx.symm ha⟩
    · rfl

theorem decodeSegment_eq_readPairs (segment : List Char) :
    decodeSegment segment = readPairs segment := by
  have hslash : '/' ≠ '~' := by decide
  have hzero : '0' ≠ '~' := by decide
  unfold decodeSegment
  induction segment using readPairs.induct with
  | case1 rest ih => rw [replacePair_pair, replacePair_of_ne hslash, ih, readPairs]
  | case2 rest ih =>
    have hone : ('0' :: rest).head? ≠ some '1' := by simp
    rw [replacePair_of_head?_ne hone, replacePair_of_ne hzero, replacePair_pair, ih, readPairs]
  | case3 x rest hfirst hsecond ih =>
    rw [readPairs.eq_3 x rest hfirst hsecond, ← ih]
    by_cases hx : x = '~'
    · subst hx
      have hone : rest.head? ≠ some '1' := fun h => by
        obtain ⟨rest', rfl⟩ := List.head?_eq_some_iff.1 h
        exact hfirst rest' rfl rfl
      -- What the first replacement leaves behind the tilde makes no new pair with it.
      have hzero : (replacePair '~' '1' '/' rest).head? ≠ some '0' := fun h => by
        rw [head?_replacePair (by decide) (by decide)] at h
        obtain ⟨rest', rfl⟩ := List.head?_eq_some_iff.1 h
        exact hsecond rest' rfl rfl
      rw [replacePair_of_head?_ne hone, replacePair_of_head?_ne hzero]
    · rw [replacePair_of_ne hx, replacePair_of_ne hx]
  | case4 => rfl

/-! ## Segments of keys -/

/-- How a character of a key is written. -/
def writeKeyChar (c : Char) : List Char :=
  if c = '~' then ['~', '0'] else if c = '/' then ['~', '1'] else [c]

theorem encodeSegment_cons (x : Char) (key : List Char) :
    encodeSegment (x :: key) = writeKeyChar x ++ encodeSegment key := by
  unfold encodeSegment writeFor writeKeyChar
  rw [List.flatMap_cons, List.flatMap_append]
  congr 1
  split
  · rfl
  · rw [List.flatMap_singleton]

theorem readPairs_writeKeyChar (x : Char) (cs : List Char) :
    readPairs (writeKeyChar x ++ cs) = x :: readPairs cs := by
  unfold writeKeyChar
  split
  · next hx => rw [hx, List.cons_append, List.cons_append, List.nil_append, readPairs]
  · next htilde =>
    split
    · next hx => rw [hx, List.cons_append, List.cons_append, List.nil_append, readPairs]
    · exact readPairs.eq_3 x cs (fun _ hx _ => htilde hx) fun _ hx _ => htilde hx

theorem readPairs_encodeSegment (key : List Char) : readPairs (encodeSegment key) = key := by
  induction key with
  | nil => rfl
  | cons x key ih => rw [encodeSegment_cons, readPairs_writeKeyChar, ih]

theorem slash_notMem_encodeSegment (key : List Char) : '/' ∉ encodeSegment key := by
  induction key with
  | nil => exact List.not_mem_nil
  | cons x key ih =>
    rw [encodeSegment_cons, List.mem_append, not_or]
    refine ⟨?_, ih⟩
    unfold writeKeyChar
    split
    · decide
    · split
      · decide
      · next hslash =>
        rw [List.mem_singleton]
        exact Ne.symm hslash

/-- Each key that is not empty has a segment. -/
theorem keyOfSegment?_encodeSegment {key : String} (h : key ≠ "") :
    keyOfSegment? (encodeSegment key.toList) = some key := by
  have hne : encodeSegment key.toList ≠ [] := by
    intro hnil
    have hread := readPairs_encodeSegment key.toList
    rw [hnil, readPairs] at hread
    exact h (String.toList_eq_nil_iff.1 hread.symm)
  have hslash := slash_notMem_encodeSegment key.toList
  rw [keyOfSegment?, if_neg, decodeSegment_eq_readPairs, readPairs_encodeSegment,
    String.ofList_toList]
  simp [hne, hslash]

end Segments

/-! ## Records as lines -/

namespace Record

/-- A record as it is written. -/
def toValue (r : Record) : Value :=
  .object [("op", .string r.op), ("path", .string r.path), ("value", r.value)]

theorem suffix_memberChars (sp : Spacing) (depth : Nat) (ms : List (String × Value)) :
    ['\x7d'] <:+ Value.memberChars sp depth ms := by
  induction ms with
  | nil =>
    rw [Value.memberChars]
    exact List.suffix_append _ _
  | cons m ms ih =>
    obtain ⟨name, v⟩ := m
    rw [Value.memberChars]
    apply List.IsSuffix.trans _ (List.suffix_cons _ _)
    apply List.IsSuffix.trans _ (List.suffix_append _ _)
    apply List.IsSuffix.trans _ (List.suffix_cons _ _)
    exact ih.trans (List.suffix_append _ _)

/-- The text of an object has no white space at its ends. -/
theorem trimChars_chars (sp : Spacing) (m : String × Value) (ms : List (String × Value)) :
    Text.trimChars ((Value.object (m :: ms)).chars sp 0) =
      (Value.object (m :: ms)).chars sp 0 := by
  obtain ⟨name, v⟩ := m
  rw [Value.chars]
  have hsuffix : ['\x7d'] <:+ sp.lineBreak (0 + 1) ++ stringChars name ++
      ':' :: (sp.afterColon ++ v.chars sp (0 + 1) ++ Value.memberChars sp 0 ms) := by
    apply List.IsSuffix.trans _ (List.suffix_append _ _)
    apply List.IsSuffix.trans _ (List.suffix_cons _ _)
    exact (suffix_memberChars sp 0 ms).trans (List.suffix_append _ _)
  obtain ⟨front, hfront⟩ := hsuffix
  rw [← hfront, Text.trimChars_of_ends rfl rfl]

/-- A record is read from its text if it nests no deeper than a line may, with its value as the
texts of numbers are read. -/
theorem ofLine?_chars {sp : Spacing} (hsp : sp.Blank) {r : Record} (hdistinct : r.value.Distinct)
    (hdepth : r.toValue.depth ≤ Raw.maxLevels) :
    ofLine? (String.ofList (r.toValue.chars sp 0)) = some { r with value := r.value.reread } := by
  let ms : Members := [("op", .string r.op), ("path", .string r.path), ("value", r.value)]
  have hlevels : ∀ m ∈ ms, m.2.depth ≤ Raw.maxLevels - 1 :=
    Value.membersDepth_le_iff.1 (Nat.le_sub_one_of_lt hdepth)
  have hnames : ∀ m ∈ ms, m.2.Distinct := by
    simp [ms, hdistinct, Value.Distinct.string]
  have hvalues : Raw.fieldValues? (Raw.maxLevels - 1) (ms.map fun m => (m.1, m.2.raw)) =
      some (Value.rereadMembers ms) :=
    Raw.fieldValues?_raw fun m hm => ⟨hlevels m hm, hnames m hm⟩
  have hfields : Raw.fields? ["op", "path", "value"] r.toValue.raw =
      some (ms.map fun m => (m.1, m.2.raw)) :=
    Raw.fields?_raw (by simp) (by simp)
  rw [ofLine?, String.toList_ofList, toValue, trimChars_chars, ← toValue, Raw.read?_chars hsp,
    Option.bind_some, ofRaw?, hfields]
  simp only [Option.bind_eq_bind, Option.bind_some, hvalues]
  rfl

end Record

/-! ## Elements -/

namespace Element

variable {e : Element}

/-- The element can be read, from a text or from a value. -/
def IsRead (e : Element) : Prop :=
  (∃ s, ofText? s = some e) ∨ ∃ v : Value, v.Distinct ∧ ofValue? v = some e

theorem IsRead.received (h : e.IsRead) : e.Received := by
  rcases h with ⟨s, hs⟩ | ⟨v, hv, he⟩
  · obtain ⟨r, -, hr⟩ := Option.bind_eq_some_iff.1 hs
    exact received_of_ofRaw? hr
  · exact received_of_ofValue? hv he

theorem Received.distinct_toValue (h : e.Received) : e.toValue.Distinct :=
  .object e.nodup_members h.distinct_members

/-- The record that puts the element under its key. -/
def addRecord (e : Element) : Record where
  op := "add"
  path := "/elements/" ++ String.ofList (encodeSegment e.key.toList)
  value := e.toValue

theorem Received.asks_addRecord (h : e.Received) (hkey : e.key ≠ "") :
    Operation.Asks { e.addRecord with value := e.toValue.reread } (.put e.key e.reread) := by
  have hread : ofValue? e.toValue.reread = some e.reread := by
    rw [toValue_eq, Value.reread]
    exact h.ofFields?_rereadMembers
  apply Operation.Asks.put _ hread
  rw [String.toList_ofList]
  exact keyOfSegment?_encodeSegment hkey

end Element

/-- The line that puts an element under its key is accepted, however it is spaced. -/
theorem Element.IsRead.parse_addRecord {e : Element} (h : e.IsRead) {sp : Spacing} (hsp : sp.Blank)
    (hkey : e.key ≠ "") (hdepth : e.addRecord.toValue.depth ≤ 127) :
    Operation.parse (String.ofList (e.addRecord.toValue.chars sp 0)) =
      .ok (.put e.key e.reread) := by
  have hline := Record.ofLine?_chars hsp h.received.distinct_toValue hdepth
  rw [Operation.parse, hline]
  exact Operation.ofRecord_eq_ok_iff.2 (h.received.asks_addRecord hkey)

/-- An element that can be read comes back from the line that puts it under its key, whatever
characters the key has and however the line is spaced, if the texts of its numbers are read as these
numbers; each key has a segment, and decoding one is one pass over it. -/
theorem put_addressed :
    (∀ (e : Element) (sp : Spacing), e.IsRead → sp.Blank → e.key ≠ "" →
      e.addRecord.toValue.depth ≤ 127 → (∀ n ∈ e.toValue.numbers, n.ReadsBack) →
      Operation.parse (String.ofList (e.addRecord.toValue.chars sp 0)) = .ok (.put e.key e)) ∧
    (∀ key, key ≠ "" → keyOfSegment? (encodeSegment key.toList) = some key) ∧
    ∀ segment, decodeSegment segment = readPairs segment := by
  refine ⟨?_, fun key => keyOfSegment?_encodeSegment, decodeSegment_eq_readPairs⟩
  intro e sp hread hsp hkey hdepth hnumbers
  rw [hread.parse_addRecord hsp hkey hdepth, hread.received.reread_eq_self hnumbers]

/-- The number 0.5. -/
def half : Numeric.Binary Numeric.binary64 := ⟨false, 2 ^ 52, -53, by decide⟩

/-- An element under a key with a slash and what looks like one that is written already. -/
def tildeElement : Element :=
  { key := "a/b~1", kind := "Text", props := [("size", .number (.float half))]
    children := some ["~0"], visible := some (.path "on") }

theorem put_addressed_tilde :
    tildeElement.IsRead ∧ tildeElement.key ≠ "" ∧ tildeElement.addRecord.toValue.depth ≤ 127 ∧
      (∀ n ∈ tildeElement.toValue.numbers, n.ReadsBack) ∧
      tildeElement.addRecord.path = "/elements/a~1b~01" ∧
      Operation.parse tildeElement.addRecord.toValue.compact = .ok (.put "a/b~1" tildeElement) ∧
      Operation.parse tildeElement.addRecord.toValue.pretty = .ok (.put "a/b~1" tildeElement) ∧
      keyOfSegment? (encodeSegment "~01".toList) = some "~01" := by
  let v : Value := .object [("visible", tagged "path" (.string "on")), ("type", .string "Text"),
    ("children", .array [.string "~0"]), ("key", .string "a/b~1"),
    ("props", .object [("size", .number (.float half))])]
  have hvisible : (tagged "path" (.string "on")).Distinct :=
    Condition.distinct_tagged "path" (.string "on")
  have hchildren : (Value.array [.string "~0"]).Distinct :=
    .array (List.forall_mem_singleton.2 (.string "~0"))
  have hprops : (Value.object [("size", .number (.float half))]).Distinct :=
    .object (List.nodup_singleton "size") (List.forall_mem_singleton.2 (.number _))
  have hv : v.Distinct :=
    .object (by decide) (by simp [hvisible, hchildren, hprops, Value.Distinct.string])
  have hread : tildeElement.IsRead := .inr ⟨v, hv, rfl⟩
  have hkey : tildeElement.key ≠ "" := by decide
  have hdepth : tildeElement.addRecord.toValue.depth ≤ 127 := by decide
  have hreread : (Number.float half).reread = .float half := by decide +kernel
  have hnumbers : ∀ n ∈ tildeElement.toValue.numbers, n.ReadsBack :=
    List.forall_mem_singleton.2 ((Number.readsBack_iff _).2 hreread)
  refine ⟨hread, hkey, hdepth, hnumbers, by decide, ?_, ?_, put_addressed.2.1 "~01" (by decide)⟩
  · exact put_addressed.1 tildeElement .compact hread Spacing.compact_blank hkey hdepth hnumbers
  · exact put_addressed.1 tildeElement .pretty hread Spacing.pretty_blank hkey hdepth hnumbers

/-! ## Elements with other floats -/

/-- The numeral 1.2466663123155794. -/
def unsteadyNumeral : Numeral := { coefficient := 12466663123155794, places := 16 }

/-- The float that it is read as. The text of this float is 1.2466663123155795. -/
def unsteady : Numeric.Binary Numeric.binary64 := ⟨false, 5614485939599794, -52, by decide⟩

/-- An element with this float as a property. -/
def unsteadyElement : Element :=
  { key := "a", kind := "T", props := [("x", .number (.float unsteady))] }

/-- The fields of a text with the numeral. -/
def unsteadyFields : List (String × Raw) :=
  [("key", .string (pieces "a")), ("type", .string (pieces "T")),
    ("props", .object [(pieces "x", .numeral unsteadyNumeral)])]

theorem number?_unsteadyNumeral : unsteadyNumeral.number? = some (.float unsteady) := by
  decide +kernel

theorem reread_unsteady : (Number.float unsteady).reread ≠ .float unsteady := by decide +kernel

/-- A text of this element. -/
def unsteadyText : String :=
  "\x7b\"key\":\"a\",\"type\":\"T\",\"props\":\x7b\"x\":1.2466663123155794\x7d\x7d"

theorem ofText?_unsteady : Element.ofText? unsteadyText = some unsteadyElement := by
  have hraw : Raw.ofText? unsteadyText =
      some (.object (unsteadyFields.map fun field => (pieces field.1, field.2))) := rfl
  have hfields : Raw.fields? Element.fieldNames
      (.object (unsteadyFields.map fun field => (pieces field.1, field.2))) =
        some unsteadyFields := rfl
  have hvalues : Raw.fieldValues? (Raw.maxLevels - 1) unsteadyFields =
      some unsteadyElement.members := by
    simp [unsteadyFields, Raw.fieldValues?, Raw.value?, Raw.members?, Raw.maxLevels, text?_pieces,
      number?_unsteadyNumeral, unsteadyElement, Element.members, Members.ofList, Members.set]
  rw [Element.ofText?, hraw, Option.bind_some, Element.ofRaw?, hfields]
  simp only [Option.bind_eq_bind, Option.bind_some, hvalues]
  rfl

/-- Without the assumption on numbers the line may put another element: this one is read from a
text, and the line that puts it is accepted with another float. -/
theorem put_addressed_unsteady :
    unsteadyElement.IsRead ∧ unsteadyElement.key = "a" ∧
      unsteadyElement.addRecord.toValue.depth ≤ 127 ∧
      Operation.parse unsteadyElement.addRecord.toValue.compact =
        .ok (.put "a" unsteadyElement.reread) ∧
      Operation.parse unsteadyElement.addRecord.toValue.compact ≠
        .ok (.put "a" unsteadyElement) := by
  have hread : unsteadyElement.IsRead := .inl ⟨unsteadyText, ofText?_unsteady⟩
  have hdepth : unsteadyElement.addRecord.toValue.depth ≤ 127 := by decide
  have hparse : Operation.parse unsteadyElement.addRecord.toValue.compact =
      .ok (.put "a" unsteadyElement.reread) :=
    hread.parse_addRecord Spacing.compact_blank (by decide) hdepth
  refine ⟨hread, rfl, hdepth, hparse, ?_⟩
  intro h
  rw [hparse] at h
  have hsame := (Operation.put.inj (Except.ok.inj h)).2
  have hprops := congrArg Element.props hsame
  simp only [Element.reread, unsteadyElement, Value.rereadMembers, Value.reread] at hprops
  apply reread_unsteady
  simpa using hprops

end StreamedUi
