import StreamedUi.Proofs.Condition.Stored
import StreamedUi.Proofs.Json.Written
import StreamedUi.Proofs.Tree.Received

/-! Trees that are written as JSON and read again. An element that was read can be read again
(`Element.Received.ofRaw?_raw`), and so can a tree of such elements from either layout of its JSON
(`Tree.Received.ofRaw?_raw`). Only floats may have changed then, so the tree is the same if the text
of each of its numbers is read as the number (`Tree.json_roundTrip`). -/

namespace StreamedUi
open Json

namespace Element

variable {e : Element}

/-! ## Elements -/

/-- The members of an element's object. -/
def members (e : Element) : Members :=
  [("key", .string e.key), ("type", .string e.kind), ("props", .object e.props)] ++
    (match e.children with
      | some keys => [("children", .array (keys.map .string))]
      | none => []) ++
    (match e.visible with
      | some c => [("visible", c.toValue)]
      | none => [])

theorem toValue_eq (e : Element) : e.toValue = .object e.members := rfl

theorem visibleField_of_ne_null {v : Value} (hv : v ≠ .null) :
    visibleField (some v) = some (Condition.ofValue v) := by
  rw [visibleField.eq_def]
  split
  next h => cases h
  next h => exact absurd (Option.some.inj h) hv
  next h =>
    cases h
    rfl

/-- An element with what the texts of its numbers are read as. -/
def reread (e : Element) : Element :=
  { e with
    props := Value.rereadMembers e.props
    visible := e.visible.map fun c => Condition.ofValue c.toValue.reread }

theorem lookup_members (e : Element) :
    e.members.lookup "key" = some (.string e.key) ∧
    e.members.lookup "type" = some (.string e.kind) ∧
    e.members.lookup "props" = some (.object e.props) ∧
    e.members.lookup "children" = e.children.map (fun keys => .array (keys.map .string)) ∧
    e.members.lookup "visible" = e.visible.map Condition.toValue := by
  obtain ⟨key, kind, props, _ | keys, _ | c⟩ := e <;> simp [members, List.lookup_cons]

theorem nodup_members (e : Element) : (e.members.map Prod.fst).Nodup := by
  obtain ⟨key, kind, props, _ | keys, _ | c⟩ := e <;> simp [members]

theorem known_members (e : Element) : ∀ m ∈ e.members, m.1 ∈ fieldNames := by
  obtain ⟨key, kind, props, _ | keys, _ | c⟩ := e <;> simp [members, fieldNames]

theorem childrenField?_map (keys : List String) :
    childrenField? (some (.array (keys.map .string))) = some (some keys) := by
  have hkeys : (keys.map Value.string).mapM Value.string? = some (keys.map id) :=
    mapM_map_of_forall fun _ _ => rfl
  rw [childrenField?, hkeys, List.map_id, Option.map_some]

theorem Received.ofFields?_members (h : e.Received) : ofFields? e.members = some e := by
  obtain ⟨hkey, hkind, hprops, hchildren, hvisible⟩ := e.lookup_members
  have hchildren' : childrenField? (e.members.lookup "children") = some e.children := by
    rw [hchildren]
    cases e.children with
    | none => rfl
    | some keys => exact childrenField?_map keys
  have hvisible' : visibleField (e.members.lookup "visible") = e.visible := by
    rw [hvisible]
    cases hc : e.visible with
    | none => rfl
    | some c =>
      obtain ⟨v, -, hv, rfl⟩ := h.visible c hc
      rw [Option.map_some, visibleField_of_ne_null (Condition.toValue_ofValue_ne_null hv),
        Condition.ofValue_toValue_ofValue]
  rw [ofFields?, hkey, hkind, hprops, hchildren', hvisible']
  rfl

theorem Received.ofFields?_rereadMembers (h : e.Received) :
    ofFields? (Value.rereadMembers e.members) = some e.reread := by
  obtain ⟨hkey, hkind, hprops, hchildren, hvisible⟩ := e.lookup_members
  have hchildren' :
      childrenField? ((e.members.lookup "children").map Value.reread) = some e.children := by
    rw [hchildren]
    cases e.children with
    | none => rfl
    | some keys =>
      have hkeys : Value.rereadItems (keys.map .string) = keys.map .string := by
        rw [Value.rereadItems_eq, List.map_map]
        rfl
      rw [Option.map_some, Option.map_some, Value.reread, hkeys]
      exact childrenField?_map keys
  have hvisible' :
      visibleField ((e.members.lookup "visible").map Value.reread) = e.reread.visible := by
    rw [hvisible, reread]
    cases hc : e.visible with
    | none => rfl
    | some c =>
      obtain ⟨v, -, hv, rfl⟩ := h.visible c hc
      have hnull := Value.reread_ne_null (Condition.toValue_ofValue_ne_null hv)
      rw [Option.map_some, Option.map_some, visibleField_of_ne_null hnull]
      rfl
  simp only [ofFields?, Value.lookup_rereadMembers, hkey, hkind, hprops, hchildren', hvisible']
  rfl

/-- Only numbers may be read otherwise than they were. -/
theorem Received.reread_eq_self (h : e.Received) (hnumbers : ∀ n ∈ e.toValue.numbers, n.ReadsBack) :
    e.reread = e := by
  have hread := h.ofFields?_rereadMembers
  rw [Value.rereadMembers_eq_self e.members hnumbers, h.ofFields?_members] at hread
  exact (Option.some.inj hread).symm

theorem Received.distinct_members (h : e.Received) : ∀ m ∈ e.members, m.2.Distinct := by
  have hchildren (keys : List String) : (Value.array (keys.map .string)).Distinct :=
    .array (List.forall_mem_map.2 fun key _ => .string key)
  have hvisible (c : Condition) (hc : e.visible = some c) : c.toValue.Distinct := by
    obtain ⟨v, hv, -, rfl⟩ := h.visible c hc
    exact Condition.distinct_toValue_ofValue hv
  have hprops := h.props
  obtain ⟨key, kind, props, _ | keys, _ | c⟩ := e <;>
    simp_all [members, Value.Distinct.string]

theorem Received.ofRaw?_raw (h : e.Received) {levels : Nat} (hdepth : e.toValue.depth ≤ levels) :
    ofRaw? levels e.toValue.raw = some e.reread := by
  have hvalues : ∀ m ∈ e.members, m.2.depth ≤ levels - 1 ∧ m.2.Distinct := fun m hm =>
    ⟨Value.membersDepth_le_iff.1 (Nat.le_sub_one_of_lt hdepth) m hm, h.distinct_members m hm⟩
  rw [ofRaw?, toValue_eq, Raw.fields?_raw e.known_members e.nodup_members]
  simp only [Option.bind_eq_bind, Option.bind_some, Raw.fieldValues?_raw hvalues,
    h.ofFields?_rereadMembers]

end Element

/-- How deep the element nests that an operation puts in place. -/
def Operation.depth : Operation → Nat
  | .setRoot _ => 0
  | .put _ e => e.toValue.depth

/-- The numbers of the element that an operation puts in place. -/
def Operation.numbers : Operation → List Number
  | .setRoot _ => []
  | .put _ e => e.toValue.numbers

namespace Tree

variable {t : Tree}

/-! ## Trees -/

/-- The members of a tree's object. -/
def members (t : Tree) : Members :=
  (match t.root with
    | some key => [("root", .string key)]
    | none => []) ++
  [("elements", .object (t.elements.toList.map fun (key, e) => (key, e.toValue)))]

theorem toValue_eq (t : Tree) : t.toValue = .object t.members := rfl

theorem nodup_members (t : Tree) : (t.members.map Prod.fst).Nodup := by
  obtain ⟨_ | key, elements, version⟩ := t <;> simp [members]

theorem known_members (t : Tree) : ∀ m ∈ t.members, m.1 ∈ ["root", "elements"] := by
  obtain ⟨_ | key, elements, version⟩ := t <;> simp [members]

/-- The elements of a tree as they are written. -/
def entryValues (t : Tree) : Members :=
  t.elements.toList.map fun entry => (entry.1, entry.2.toValue)

theorem lookup_members (t : Tree) :
    (t.members.map fun m => (m.1, m.2.raw)).lookup "root" =
      t.root.map (fun key => .string (pieces key)) ∧
    (t.members.map fun m => (m.1, m.2.raw)).lookup "elements" =
      some (.object (Value.rawMembers t.entryValues)) := by
  obtain ⟨_ | key, elements, version⟩ := t <;>
    simp [members, entryValues, List.lookup_cons, Value.raw]

/-- A tree nests two levels deeper than its elements. -/
theorem depth_toValue_le_iff {n : Nat} :
    t.toValue.depth ≤ n + 2 ↔ ∀ entry ∈ t.elements.toList, entry.2.toValue.depth ≤ n := by
  have hmembers : Value.membersDepth t.members = Value.membersDepth t.entryValues + 1 := by
    obtain ⟨_ | key, elements, version⟩ := t <;>
      simp [members, entryValues, Value.membersDepth, Value.depth]
  rw [toValue_eq, Value.depth, hmembers, Nat.succ_le_succ_iff, Nat.succ_le_succ_iff,
    Value.membersDepth_le_iff, entryValues]
  exact List.forall_mem_map

theorem depth_applyText_le {text : String} {n : Nat}
    (h : ∀ line ∈ Text.lines text, ∀ op ∈ Operation.ofLine? line, op.depth ≤ n) :
    (empty.applyText text).1.toValue.depth ≤ n + 2 :=
  depth_toValue_le_iff.2 <| forall_mem_applyLines (fun line hline _ _ hop => h line hline _ hop)
    fun _ hentry => absurd hentry List.not_mem_nil

theorem Received.entries?_raw (h : t.Received) {levels : Nat}
    (hdepth : t.toValue.depth ≤ levels + 2) :
    entries? levels (some (.object (Value.rawMembers t.entryValues))) =
      some (t.elements.toList.map fun entry => (entry.1, entry.2.reread)) := by
  rw [entries?, Raw.names?_rawMembers, entryValues, List.map_map]
  refine mapM_map_of_forall fun entry hmem => ?_
  obtain ⟨hkey, hreceived⟩ := h entry hmem
  have hread := hreceived.ofRaw?_raw (depth_toValue_le_iff.1 hdepth entry hmem)
  show (Element.ofRaw? levels entry.2.toValue.raw).map _ = _
  rw [hread, Option.map_some]
  exact congrArg some (Prod.ext rfl (congrArg ({ entry.2.reread with key := · }) hkey.symm))

/-- A tree with what the texts of its numbers are read as. -/
def reread (t : Tree) : Tree where
  root := t.root
  elements := .ofList (t.elements.toList.map fun entry => (entry.1, entry.2.reread))

theorem Received.ofRaw?_raw (h : t.Received) (hdepth : t.toValue.depth ≤ Raw.maxLevels) :
    ofRaw? t.toValue.raw = some t.reread := by
  obtain ⟨hroot, helements⟩ := t.lookup_members
  have hlevels : t.toValue.depth ≤ Raw.maxLevels - 2 + 2 := hdepth
  have hrootField : rootField? (t.root.map fun key => .string (pieces key)) = some t.root := by
    cases t.root with
    | none => rfl
    | some key => rw [Option.map_some, rootField?, text?_pieces, Option.map_some]
  rw [ofRaw?, toValue_eq, Raw.fields?_raw t.known_members t.nodup_members]
  simp only [Option.bind_eq_bind, Option.bind_some, hroot, helements, hrootField,
    h.entries?_raw hlevels]
  rfl

theorem numbers_toValue (t : Tree) :
    t.toValue.numbers = t.elements.toList.flatMap fun entry => entry.2.toValue.numbers := by
  have hmembers : Value.membersNumbers t.members = Value.membersNumbers t.entryValues := by
    obtain ⟨_ | key, elements, version⟩ := t <;>
      simp [members, entryValues, Value.membersNumbers, Value.numbers]
  rw [toValue_eq, Value.numbers, hmembers, entryValues, Value.membersNumbers_eq, List.flatMap_map]

theorem forall_mem_numbers_applyText {text : String} {P : Number → Prop}
    (h : ∀ line ∈ Text.lines text, ∀ op ∈ Operation.ofLine? line, ∀ n ∈ op.numbers, P n) :
    ∀ n ∈ (empty.applyText text).1.toValue.numbers, P n := by
  have helements := forall_mem_applyLines (P := fun entry => ∀ n ∈ entry.2.toValue.numbers, P n)
    (fun line hline key e hop => h line hline (.put key e) hop)
    (fun _ hentry => absurd hentry List.not_mem_nil) (t := empty)
  intro n hn
  rw [numbers_toValue] at hn
  obtain ⟨entry, hentry, hn⟩ := List.mem_flatMap.1 hn
  exact helements entry hentry n hn

theorem Received.reread_eq (h : t.Received) (hnumbers : ∀ n ∈ t.toValue.numbers, n.ReadsBack) :
    t.reread = { t with version := 0 } := by
  have helements : t.elements.toList.map (fun entry => (entry.1, entry.2.reread)) =
      t.elements.toList := by
    refine (List.map_congr_left ?_).trans (List.map_id _)
    intro entry hentry
    have hself : entry.2.reread = entry.2 := by
      apply (h entry hentry).2.reread_eq_self
      rw [numbers_toValue] at hnumbers
      exact fun n hn => hnumbers n (List.mem_flatMap.2 ⟨entry, hentry, hn⟩)
    rw [hself]
    rfl
  rw [reread, helements, OrderedMap.ofList_toList]

theorem ofJson?_chars {sp : Spacing} (hsp : sp.Blank) (v : Value) :
    ofJson? (String.ofList (v.chars sp 0)) = ofRaw? v.raw := by
  rw [ofJson?, Raw.ofText?, String.toList_ofList, Raw.read?_chars hsp, Option.bind_some]

/-- A tree that was read comes back from its JSON, in either layout, but for the count of patches.
It is assumed that the texts of its numbers are read as these numbers. -/
theorem json_roundTrip
    (h : (∃ s, ofJson? s = some t) ∨ ∃ text, (empty.applyText text).1 = t)
    (hdepth : t.toValue.depth ≤ 127) (hnumbers : ∀ n ∈ t.toValue.numbers, n.ReadsBack) :
    ofJson? t.toJson = some { t with version := 0 } ∧
      ofJson? t.toPrettyJson = some { t with version := 0 } ∧
      ({ t with version := 0 } : Tree).toJson = t.toJson := by
  have hreceived : t.Received := by
    rcases h with ⟨s, hs⟩ | ⟨text, rfl⟩
    · exact received_of_ofJson? hs
    · exact received_applyText text
  have hread := (hreceived.ofRaw?_raw hdepth).trans (congrArg some (hreceived.reread_eq hnumbers))
  exact ⟨(ofJson?_chars Spacing.compact_blank _).trans hread,
    (ofJson?_chars Spacing.pretty_blank _).trans hread, rfl⟩

/-- A card with a float and an integer. -/
def cardText : String :=
  "\x7b\"op\":\"set\",\"path\":\"/root\",\"value\":\"card\"\x7d\n" ++
  "\x7b\"op\":\"add\",\"path\":\"/elements/card\",\"value\":\x7b\"type\":\"Card\"," ++
  "\"props\":\x7b\"size\":1.5,\"rows\":2\x7d,\"visible\":\x7b\"path\":\"/on\"\x7d\x7d\x7d\n"

theorem json_roundTrip_card :
    let t := (empty.applyText cardText).1
    t.toValue.depth ≤ 127 ∧ (∀ n ∈ t.toValue.numbers, n.ReadsBack) ∧
      ofJson? t.toJson = some { t with version := 0 } ∧
      ofJson? t.toPrettyJson = some { t with version := 0 } ∧
      ({ t with version := 0 } : Tree).toJson = t.toJson := by
  intro t
  have hdepth : t.toValue.depth ≤ 125 + 2 := depth_applyText_le (by decide +kernel)
  have hreread : ∀ n ∈ t.toValue.numbers, n.reread = n :=
    forall_mem_numbers_applyText (by decide +kernel)
  have hnumbers : ∀ n ∈ t.toValue.numbers, n.ReadsBack := fun n hn =>
    n.readsBack_iff.2 (hreread n hn)
  exact ⟨hdepth, hnumbers, json_roundTrip (.inr ⟨_, rfl⟩) hdepth hnumbers⟩

end Tree

end StreamedUi
