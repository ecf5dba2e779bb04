import StreamedUi.Proofs.Json.Shape
import StreamedUi.Proofs.OrderedMap
import StreamedUi.Proofs.Patch.Apply
import StreamedUi.Tree.Json

/-! What holds of every tree that was read, from JSON or from patches: each element knows the key
that it stands under, its properties have distinct names, and its condition was read from a value
(`Tree.received_of_ofJson?`, `Tree.received_applyText`). -/

namespace StreamedUi
open Json

namespace Element

variable {e : Element} {fields : Members}

/-- What is known of an element that was read: its properties have distinct names, and its condition
was read from a value. -/
structure Received (e : Element) : Prop where
  props : (Value.object e.props).Distinct
  visible : ∀ c, e.visible = some c → ∃ v, v.Distinct ∧ v ≠ .null ∧ c = Condition.ofValue v

/-- What is known of an element that was read from values of which `Q` holds. -/
structure ReadFrom (Q : Value → Prop) (e : Element) : Prop where
  props : Q (.object e.props)
  visible : ∀ c, e.visible = some c → ∃ v, Q v ∧ v ≠ .null ∧ c = Condition.ofValue v

theorem readFrom_of_fields {Q : Value → Prop} (hnone : Q (.object []))
    (hfields : ∀ m ∈ fields, Q m.2) (h : ofFields? fields = some e) : e.ReadFrom Q := by
  obtain ⟨key, -, h⟩ := Option.bind_eq_some_iff.1 h
  obtain ⟨kind, -, h⟩ := Option.bind_eq_some_iff.1 h
  obtain ⟨props, hprops, h⟩ := Option.bind_eq_some_iff.1 h
  obtain ⟨children, -, h⟩ := Option.bind_eq_some_iff.1 h
  cases h
  constructor
  · cases hlookup : fields.lookup "props" with
    | none =>
      rw [hlookup] at hprops
      cases hprops
      exact hnone
    | some v =>
      rw [hlookup] at hprops
      cases v <;> cases hprops
      exact hfields _ (Members.mem_of_lookup hlookup)
  · intro c hc
    cases hlookup : fields.lookup "visible" with
    | none =>
      simp only [hlookup] at hc
      cases hc
    | some v =>
      simp only [hlookup] at hc
      refine ⟨v, hfields _ (Members.mem_of_lookup hlookup), ?_, ?_⟩
      · rintro rfl
        cases hc
      · cases v <;> cases hc <;> rfl

theorem readFrom_of_ofRaw? {Q : Value → Prop} {levels : Nat} {r : Raw} (hnone : Q (.object []))
    (hQ : ∀ (r : Raw) (v : Value), r.value? (levels - 1) = some v → Q v)
    (h : ofRaw? levels r = some e) : e.ReadFrom Q := by
  obtain ⟨raws, -, h⟩ := Option.bind_eq_some_iff.1 h
  obtain ⟨fields, hfields, h⟩ := Option.bind_eq_some_iff.1 h
  exact readFrom_of_fields hnone (Raw.forall_mem_of_fieldValues? hQ hfields) h

theorem readFrom_of_ofValue? {Q : Value → Prop} {v : Value} (hnone : Q (.object []))
    (hmembers : ∀ ms, v = .object ms → ∀ m ∈ ms, Q m.2)
    (hitems : ∀ items, v = .array items → ∀ w ∈ items, Q w) (h : ofValue? v = some e) :
    e.ReadFrom Q := by
  obtain ⟨fields, hfields, h⟩ := Option.bind_eq_some_iff.1 h
  exact readFrom_of_fields hnone (Value.forall_mem_of_fields? hmembers hitems hfields) h

theorem distinct_noMembers : (Value.object []).Distinct :=
  .object List.nodup_nil fun _ hm => absurd hm List.not_mem_nil

theorem ReadFrom.received (h : e.ReadFrom Value.Distinct) : e.Received := ⟨h.props, h.visible⟩

theorem received_of_ofRaw? {levels : Nat} {r : Raw} (h : ofRaw? levels r = some e) :
    e.Received :=
  (readFrom_of_ofRaw? distinct_noMembers (fun r _ => Raw.distinct_of_value? r) h).received

theorem received_of_ofValue? {v : Value} (hv : v.Distinct) (h : ofValue? v = some e) :
    e.Received := by
  refine (readFrom_of_ofValue? distinct_noMembers ?_ ?_ h).received
  · rintro ms rfl
    cases hv with
    | object _ values => exact values
  · rintro items rfl
    cases hv with
    | array values => exact values

end Element

namespace Operation

/-- What holds of null and of all values that are read holds of the value of a record. -/
theorem value_of_ofRaw? {Q : Value → Prop} {r : Raw} {record : Record} (hnull : Q .null)
    (hQ : ∀ (r : Raw) (v : Value), r.value? (Raw.maxLevels - 1) = some v → Q v)
    (h : Record.ofRaw? r = some record) : Q record.value := by
  obtain ⟨raws, -, h⟩ := Option.bind_eq_some_iff.1 h
  obtain ⟨fields, hfields, h⟩ := Option.bind_eq_some_iff.1 h
  obtain ⟨op, -, h⟩ := Option.bind_eq_some_iff.1 h
  obtain ⟨path, -, h⟩ := Option.bind_eq_some_iff.1 h
  cases h
  cases hvalue : fields.lookup "value" with
  | none => exact hnull
  | some v => exact Raw.forall_mem_of_fieldValues? hQ hfields _ (Members.mem_of_lookup hvalue)

theorem distinct_of_ofRaw? {r : Raw} {record : Record} (h : Record.ofRaw? r = some record) :
    record.value.Distinct :=
  value_of_ofRaw? .null (fun r _ => Raw.distinct_of_value? r) h

/-- The element that a record puts in place was read from the record's value. -/
theorem ofValue?_of_ofRecord {record : Record} {key : String} {e : Element}
    (h : ofRecord record = .ok (.put key e)) :
    ∃ e', Element.ofValue? record.value = some e' ∧ e = { e' with key := key } := by
  unfold ofRecord at h
  split at h
  · split at h <;> cases h
  · split at h
    · split at h
      · rw [put?] at h
        split at h
        next e' he' =>
          cases h
          exact ⟨e', he', rfl⟩
        next => cases h
      · cases h
    · cases h

/-- What a line puts in place stands under its own key. -/
theorem received_of_ofLine? {line key : String} {e : Element}
    (h : ofLine? line = some (.put key e)) : e.key = key ∧ e.Received := by
  obtain ⟨r, record, -, hr, hop⟩ := exists_record h
  obtain ⟨e', he', rfl⟩ := ofValue?_of_ofRecord hop
  have hreceived := Element.received_of_ofValue? (distinct_of_ofRaw? hr) he'
  exact ⟨rfl, hreceived.props, hreceived.visible⟩

end Operation

namespace Tree

variable {t : Tree} {lines : List String}

/-! ## Trees that were read -/

/-- Every element was read, and knows the key that it stands under. -/
def Received (t : Tree) : Prop :=
  ∀ entry ∈ t.elements.toList, entry.2.key = entry.1 ∧ entry.2.Received

/-- What holds of every element that is put in place comes to hold of all elements. -/
theorem forall_mem_applyAll {P : String × Element → Prop} {ops : List Operation}
    (hops : ∀ key e, Operation.put key e ∈ ops → P (key, e))
    (ht : ∀ entry ∈ t.elements.toList, P entry) :
    ∀ entry ∈ (t.applyAll ops).elements.toList, P entry := by
  induction ops generalizing t with
  | nil => exact ht
  | cons op ops ih =>
    apply ih fun key e he => hops key e (List.mem_cons_of_mem op he)
    cases op with
    | setRoot key => exact ht
    | put key e =>
      intro entry hentry
      rcases OrderedMap.mem_toList_insert hentry with hentry | rfl
      · exact ht entry hentry
      · exact hops key e List.mem_cons_self

theorem forall_mem_applyLines {P : String × Element → Prop}
    (hlines : ∀ line ∈ lines, ∀ key e, Operation.ofLine? line = some (.put key e) → P (key, e))
    (ht : ∀ entry ∈ t.elements.toList, P entry) :
    ∀ entry ∈ (t.applyLines lines).1.elements.toList, P entry := by
  rw [applyLines_eq]
  apply forall_mem_applyAll _ ht
  intro key e he
  obtain ⟨line, hline, hop⟩ := List.mem_filterMap.1 he
  exact hlines line hline key e hop

theorem received_applyText (text : String) : (empty.applyText text).1.Received :=
  forall_mem_applyLines (fun _ _ _ _ => Operation.received_of_ofLine?) fun _ h =>
    absurd h List.not_mem_nil

/-- An element of a tree that was read was read itself, and then given its key. -/
theorem exists_of_entries? {levels : Nat} {r : Option Raw} {entries : List (String × Element)}
    (h : entries? levels r = some entries) :
    ∀ entry ∈ entries, ∃ r e, Element.ofRaw? levels r = some e ∧
      entry.2 = { e with key := entry.1 } := by
  unfold entries? at h
  split at h
  · cases h
    exact fun _ hentry => absurd hentry List.not_mem_nil
  · obtain ⟨members, -, h⟩ := Option.bind_eq_some_iff.1 h
    refine forall_mem_of_mapM (fun member entry hentry => ?_) h
    obtain ⟨e, he, rfl⟩ := Option.map_eq_some_iff.1 hentry
    exact ⟨member.2, e, he, rfl⟩
  · cases h

theorem exists_of_ofJson? {s : String} (h : ofJson? s = some t) :
    ∀ entry ∈ t.elements.toList, ∃ r e, Element.ofRaw? (Raw.maxLevels - 2) r = some e ∧
      entry.2 = { e with key := entry.1 } := by
  obtain ⟨r, -, h⟩ := Option.bind_eq_some_iff.1 h
  obtain ⟨fields, -, h⟩ := Option.bind_eq_some_iff.1 h
  obtain ⟨root, -, h⟩ := Option.bind_eq_some_iff.1 h
  obtain ⟨entries, hentries, h⟩ := Option.bind_eq_some_iff.1 h
  cases h
  exact OrderedMap.forall_mem_ofList (exists_of_entries? hentries)

theorem received_of_ofJson? {s : String} (h : ofJson? s = some t) : t.Received := by
  intro entry hentry
  obtain ⟨r, e, he, hentry⟩ := exists_of_ofJson? h entry hentry
  have hreceived := Element.received_of_ofRaw? he
  rw [hentry]
  exact ⟨rfl, hreceived.props, hreceived.visible⟩

end Tree

end StreamedUi
