import StreamedUi.Edit.Context
import StreamedUi.Proofs.Condition.Deepened
import StreamedUi.Proofs.Patch.Addressed
import StreamedUi.Proofs.Tree.Session

/-! Which trees can be read from their JSON. An element of a tree stands two objects deep, one more
than in a patch, and its condition may be stored deeper than it was read. So the JSON of a tree is
read if and only if all its elements leave room for that (`Tree.readBack`). -/

namespace StreamedUi
open Json

namespace Element

variable {e : Element} {n levels : Nat}

/-! ## How deep elements nest -/

/-- The properties and the condition nest at most `n` levels. -/
structure Fits (n : Nat) (e : Element) : Prop where
  props : (Value.object e.props).depth ≤ n
  visible : ∀ c, e.visible = some c → c.toValue.depth ≤ n

theorem depth_toValue_le_iff (hn : 1 ≤ n) : e.toValue.depth ≤ n + 1 ↔ e.Fits n := by
  have hkeys (keys : List String) : (Value.array (keys.map .string)).depth ≤ n := by
    refine Nat.le_trans (Nat.succ_le_succ (Value.itemsDepth_le_iff.2 ?_)) hn
    exact List.forall_mem_map.2 fun key _ => Nat.le_refl 0
  rw [toValue_eq, Value.depth, Nat.succ_le_succ_iff, Value.membersDepth_le_iff]
  constructor
  · intro h
    obtain ⟨-, -, hprops, -, hvisible⟩ := e.lookup_members
    refine ⟨h _ (Members.mem_of_lookup hprops), ?_⟩
    intro c hc
    rw [hc, Option.map_some] at hvisible
    exact h _ (Members.mem_of_lookup hvisible)
  · rintro ⟨hprops, hvisible⟩
    obtain ⟨key, kind, props, _ | keys, _ | c⟩ := e <;>
      simp_all [members, Value.depth]

/-- How deep the values nest that an element was read from, and its condition as it is stored. -/
structure Nests (levels : Nat) (e : Element) : Prop where
  props : (Value.object e.props).depth ≤ levels
  visible : ∀ c, e.visible = some c → ∃ v : Value, v.depth ≤ levels ∧ c = Condition.ofValue v ∧
    c.toValue.depth ≤ v.depth + 2 * Condition.joints v

theorem ReadFrom.nests (h : e.ReadFrom fun v => v.depth ≤ levels) : e.Nests levels := by
  refine ⟨h.props, ?_⟩
  intro c hc
  obtain ⟨v, hv, -, rfl⟩ := h.visible c hc
  exact ⟨v, hv, rfl, Condition.depth_toValue_ofValue_le v⟩

theorem Nests.mono (h : e.Nests levels) (hle : levels ≤ n) : e.Nests n := by
  refine ⟨h.props.trans hle, ?_⟩
  intro c hc
  obtain ⟨v, hv, hcondition⟩ := h.visible c hc
  exact ⟨v, hv.trans hle, hcondition⟩

/-- An element whose text is read nests no deeper than the reader allows. -/
theorem depth_le_of_ofRaw?_raw {e' : Element} (h : ofRaw? levels e.toValue.raw = some e') :
    e.toValue.depth ≤ levels := by
  rw [ofRaw?, toValue_eq, Raw.fields?_raw e.known_members e.nodup_members] at h
  obtain ⟨raws, hraws, h⟩ := Option.bind_eq_some_iff.1 h
  cases hraws
  obtain ⟨fields, hfields, -⟩ := Option.bind_eq_some_iff.1 h
  have hmembers := depth_le_of_fieldValues?_raw hfields
  -- The properties are an object, so there are levels for the element's own.
  have hprops : (Value.object e.props).depth ≤ levels - 1 :=
    hmembers _ (Members.mem_of_lookup e.lookup_members.2.2.1)
  have hpos : 0 < (Value.object e.props).depth := Nat.succ_pos _
  rw [toValue_eq, Value.depth]
  have hle := Value.membersDepth_le_iff.2 hmembers
  omega

end Element

namespace Operation

/-- A patch leaves two levels less for the values of an element than a text may nest. -/
theorem readFrom_of_ofLine? {line key : String} {e : Element}
    (h : ofLine? line = some (.put key e)) : e.ReadFrom fun v => v.depth ≤ 125 := by
  obtain ⟨r, record, -, hr, hop⟩ := exists_record h
  obtain ⟨e', he', rfl⟩ := ofValue?_of_ofRecord hop
  have hvalue : record.value.depth ≤ 126 :=
    value_of_ofRaw? (Q := fun v => v.depth ≤ 126) (Nat.zero_le _)
      (fun r _ => r.depth_le_of_value?) hr
  have hread : e'.ReadFrom fun v => v.depth ≤ 125 := by
    refine Element.readFrom_of_ofValue? (by decide) ?_ ?_ he'
    · intro ms hms
      rw [hms] at hvalue
      exact Value.depth_of_mem_object hvalue
    · intro items hitems
      rw [hitems] at hvalue
      exact Value.depth_of_mem_array hvalue
  exact ⟨hread.props, hread.visible⟩

end Operation

namespace Tree

variable {t : Tree}

/-- A tree leaves three levels less. -/
theorem readFrom_of_ofJson? {json : String} (h : ofJson? json = some t) :
    ∀ entry ∈ t.elements.toList, entry.2.ReadFrom fun v => v.depth ≤ 124 := by
  intro entry hentry
  obtain ⟨r, e, he, hentry⟩ := exists_of_ofJson? h entry hentry
  have hread := Element.readFrom_of_ofRaw? (Q := fun v => v.depth ≤ 124) (by decide)
    (fun r _ => r.depth_le_of_value?) he
  rw [hentry]
  exact ⟨hread.props, hread.visible⟩

theorem depth_le_of_ofRaw?_raw {t' : Tree} (h : ofRaw? t.toValue.raw = some t') :
    t.toValue.depth ≤ 127 := by
  rw [ofRaw?, toValue_eq, Raw.fields?_raw t.known_members t.nodup_members] at h
  simp only [Option.bind_eq_bind, Option.bind_some, t.lookup_members.2] at h
  obtain ⟨root, -, h⟩ := Option.bind_eq_some_iff.1 h
  obtain ⟨entries, hentries, -⟩ := Option.bind_eq_some_iff.1 h
  rw [entries?, Raw.names?_rawMembers] at hentries
  have hread := exists_of_mapM_eq_some hentries
  refine depth_toValue_le_iff.2 ?_
  intro entry hentry
  obtain ⟨_, hentry⟩ := hread _ (List.mem_map_of_mem (List.mem_map_of_mem hentry))
  obtain ⟨e', he', -⟩ := Option.map_eq_some_iff.1 hentry
  exact Element.depth_le_of_ofRaw?_raw he'

/-- The elements leave room for the tree around them. -/
theorem forall_fits_iff :
    (∀ entry ∈ t.elements.toList, entry.2.Fits 124) ↔ t.toValue.depth ≤ 127 := by
  rw [depth_toValue_le_iff]
  exact forall₂_congr fun entry _ => (Element.depth_toValue_le_iff (by decide)).symm

theorem Received.ofJson?_toJson (h : t.Received) :
    (t.toValue.depth ≤ 127 → ofJson? t.toJson = some t.reread) ∧
      (¬t.toValue.depth ≤ 127 → ofJson? t.toJson = none) := by
  have hchars : ofJson? t.toJson = ofRaw? t.toValue.raw := ofJson?_chars Spacing.compact_blank _
  rw [hchars]
  refine ⟨h.ofRaw?_raw, ?_⟩
  intro hdepth
  rw [Option.eq_none_iff_forall_ne_some]
  intro t' ht'
  exact hdepth (depth_le_of_ofRaw?_raw ht')

namespace Session

variable {s : Session} {P : String × Element → Prop}

/-! ## Sessions -/

/-- What holds of the elements of patches and of the elements of JSON trees comes to hold of all
elements, unless some are put in place by hand. -/
theorem forall_mem_step (hs : ∀ entry ∈ s.tree.elements.toList, P entry) {step : Step}
    (hinsert : ∀ e, step ≠ .insert e)
    (hpatch : step.IsPatching → ∀ line key e, Operation.ofLine? line = some (.put key e) →
      P (key, e))
    (hload : ∀ json t, ofJson? json = some t → ∀ entry ∈ t.elements.toList, P entry) :
    ∀ entry ∈ (s.step step).1.tree.elements.toList, P entry := by
  by_cases hpatching : step.IsPatching
  · rw [(step_patching hpatching s).1]
    apply forall_mem_applyAll _ hs
    intro key e he
    obtain ⟨line, -, hline⟩ := List.mem_filterMap.1 he
    exact hpatch hpatching line key e hline
  cases step with
  | load json =>
    rw [Session.step]
    split
    · next t ht => exact hload json t ht
    · exact hs
  | fork => exact hs
  | insert e => exact absurd rfl (hinsert e)
  | _ => exact absurd trivial hpatching

theorem forall_mem_run (hs : ∀ entry ∈ s.tree.elements.toList, P entry) {steps : List Step}
    (hinsert : ∀ e, Step.insert e ∉ steps)
    (hpatch : ∀ step ∈ steps, step.IsPatching → ∀ line key e,
      Operation.ofLine? line = some (.put key e) → P (key, e))
    (hload : ∀ json t, ofJson? json = some t → ∀ entry ∈ t.elements.toList, P entry) :
    ∀ entry ∈ (s.run steps).tree.elements.toList, P entry := by
  induction steps generalizing s with
  | nil => exact hs
  | cons step steps ih =>
    obtain ⟨hfirst, hrest⟩ := List.forall_mem_cons.1 hpatch
    refine ih ?_ (fun e he => hinsert e (List.mem_cons_of_mem step he)) hrest
    apply forall_mem_step hs _ hfirst hload
    rintro e rfl
    exact hinsert e List.mem_cons_self

theorem received_run {steps : List Step} (h : ∀ e, Step.insert e ∉ steps) :
    (start.run steps).tree.Received :=
  forall_mem_run (fun _ hentry => absurd hentry List.not_mem_nil) h
    (fun _ _ _ _ _ _ => Operation.received_of_ofLine?) fun _ _ => received_of_ofJson?

theorem nests_run {levels : Nat} {steps : List Step} (h : ∀ e, Step.insert e ∉ steps)
    (hlevels : 124 ≤ levels)
    (hpatch : ∀ step ∈ steps, step.IsPatching → 125 ≤ levels) :
    ∀ entry ∈ (start.run steps).tree.elements.toList, entry.2.Nests levels := by
  refine forall_mem_run (fun _ hentry => absurd hentry List.not_mem_nil) h ?_ ?_
  · intro step hstep hpatching line key e hline
    exact (Operation.readFrom_of_ofLine? hline).nests.mono (hpatch step hstep hpatching)
  · intro json t ht entry hentry
    exact (readFrom_of_ofJson? ht entry hentry).nests.mono hlevels

end Session

/-- The JSON of a tree that has been patched or loaded is read, in an edit context as well, exactly
if the properties and the condition of each element nest at most 124 levels. They are read
from values that nest at most 125 levels, or 124 if only JSON was read; a condition is stored two
levels deeper, at most, for each object on the way down that stands for several conditions. -/
theorem readBack (steps : List Step) (h : ∀ e, Step.insert e ∉ steps) :
    let t := (Session.start.run steps).tree
    ((∀ entry ∈ t.elements.toList, entry.2.Fits 124) →
      ∃ t', ofJson? t.toJson = some t' ∧
        ∀ c : Edit.Context, c.treeText = t.toJson → c.tree? = some t') ∧
    ((∃ entry ∈ t.elements.toList, ¬entry.2.Fits 124) →
      ofJson? t.toJson = none ∧ ∀ c : Edit.Context, c.treeText = t.toJson → c.tree? = none) ∧
    (∀ entry ∈ t.elements.toList, entry.2.Nests 125) ∧
    ((∀ step ∈ steps, ¬step.IsPatching) → ∀ entry ∈ t.elements.toList, entry.2.Nests 124) := by
  intro t
  obtain ⟨hback, hlost⟩ := (Session.received_run h).ofJson?_toJson
  have hcontext (c : Edit.Context) (hc : c.treeText = t.toJson) : c.tree? = ofJson? t.toJson := by
    rw [Edit.Context.tree?, hc]
  refine ⟨?_, ?_, Session.nests_run h (by decide) fun _ _ _ => Nat.le_refl 125, ?_⟩
  · intro hfits
    have hread := hback (forall_fits_iff.1 hfits)
    exact ⟨_, hread, fun c hc => (hcontext c hc).trans hread⟩
  · intro ⟨entry, hentry, hdeep⟩
    have hread := hlost fun hdepth => hdeep (forall_fits_iff.2 hdepth entry hentry)
    exact ⟨hread, fun c hc => (hcontext c hc).trans hread⟩
  · intro hloaded
    exact Session.nests_run h (Nat.le_refl 124) fun step hstep hpatching =>
      absurd hpatching (hloaded step hstep)

/-! ## Elements at the limit -/

/-- Arrays inside of each other, one more than `n`. -/
def nested : Nat → Value
  | 0 => .array []
  | n + 1 => .array [nested n]

/-- A patch that puts an element with such a property. -/
def nestedRecord (n : Nat) : String :=
  (Value.object [("op", .string "add"), ("path", .string "/elements/a"),
    ("value", .object [("type", .string "T"), ("props", .object [("p", nested n)])])]).compact

/-- The element that the patch puts. -/
def nestedElement (n : Nat) : Element := { key := "a", kind := "T", props := [("p", nested n)] }

theorem depth_nested (n : Nat) : (nested n).depth = n + 1 := by
  induction n with
  | zero => rfl
  | succ n ih => rw [nested, Value.depth, Value.itemsDepth, Value.itemsDepth, ih, Nat.max_zero]

theorem distinct_nested (n : Nat) : (nested n).Distinct := by
  induction n with
  | zero => exact .array fun _ hv => absurd hv List.not_mem_nil
  | succ n ih => exact .array (List.forall_mem_singleton.2 ih)

theorem numbers_nested (n : Nat) : (nested n).numbers = [] := by
  induction n with
  | zero => rfl
  | succ n ih =>
    rw [nested, Value.numbers, Value.itemsNumbers, Value.itemsNumbers, ih, List.append_nil]

theorem fits_nestedElement_iff {n : Nat} : (nestedElement n).Fits 124 ↔ n ≤ 122 := by
  have hdepth : (Value.object (nestedElement n).props).depth = n + 2 := by
    rw [nestedElement, Value.depth, Value.membersDepth, Value.membersDepth, depth_nested,
      Nat.max_zero]
  constructor
  · intro h
    have := hdepth ▸ h.props
    omega
  · intro h
    refine ⟨by rw [hdepth]; omega, ?_⟩
    intro c hc
    cases hc

/-- A patch is accepted if its values nest at most 126 levels. -/
theorem ofLine?_nestedRecord {n : Nat} (hn : n ≤ 123) :
    Operation.ofLine? (nestedRecord n) = some (.put "a" (nestedElement n)) := by
  let value : Value := .object [("type", .string "T"), ("props", .object [("p", nested n)])]
  let r : Record := ⟨"add", "/elements/" ++ "a", value⟩
  have hdepth : r.toValue.depth ≤ 127 := by
    simp only [r, value, Record.toValue, Value.depth, Value.membersDepth, depth_nested]
    omega
  have hprops : (Value.object [("p", nested n)]).Distinct :=
    .object (List.nodup_singleton "p") (List.forall_mem_singleton.2 (distinct_nested n))
  have hdistinct : value.Distinct :=
    .object (by simp) (by simp [hprops, Value.Distinct.string])
  have hline : r.toValue.compact = nestedRecord n := by
    have hpath : "/elements/" ++ "a" = "/elements/a" := by decide
    simp only [r, Record.toValue, hpath, nestedRecord, value]
  have hrecord := Record.ofLine?_chars (r := r) Spacing.compact_blank hdistinct hdepth
  have hreread : { r with value := r.value.reread } = r := by
    have hnumbers : value.numbers = [] := by
      simp only [value, Value.numbers, Value.membersNumbers, numbers_nested, List.append_nil]
    have hvalue : value.reread = value :=
      value.reread_eq_self fun n hn => absurd (hnumbers ▸ hn) List.not_mem_nil
    rw [show r.value = value from rfl, hvalue]
  rw [hreread] at hrecord
  have hkey : keyOfSegment? "a".toList = some "a" := by decide
  have hread : Element.ofValue? value = some { nestedElement n with key := "" } := rfl
  exact Operation.ofLine?_eq_some_iff.2 ⟨r, hline ▸ hrecord, .put hkey hread⟩

theorem applyLine_nestedRecord {n : Nat} (hn : n ≤ 123) :
    empty.applyLine (nestedRecord n) = (empty.apply (.put "a" (nestedElement n)), true) := by
  rw [applyLine, ofLine?_nestedRecord hn]

theorem elements_nestedRecord {n : Nat} (hn : n ≤ 123) :
    (empty.applyLine (nestedRecord n)).1.elements.toList = [("a", nestedElement n)] := by
  rw [applyLine_nestedRecord hn]
  exact OrderedMap.toList_insert_of_notMem List.not_mem_nil (nestedElement n)

theorem tree_run_line (line : String) :
    (Session.start.run [.line line]).tree = (empty.applyLine line).1 := rfl

theorem insert_notMem_line (line : String) (e : Element) : Step.insert e ∉ [Step.line line] := by
  rw [List.mem_singleton]
  nofun

/-- A tree at the limit is read: the one property of its element nests 123 levels. -/
theorem readBack_nested :
    (∀ e, Step.insert e ∉ [Step.line (nestedRecord 122)]) ∧
      (∃ t', ofJson? (Session.start.run [.line (nestedRecord 122)]).tree.toJson = some t') ∧
      (nestedElement 122).Nests 125 := by
  have hinsert := insert_notMem_line (nestedRecord 122)
  have helements : (Session.start.run [.line (nestedRecord 122)]).tree.elements.toList =
      [("a", nestedElement 122)] := by
    rw [tree_run_line]
    exact elements_nestedRecord (Nat.le_succ 122)
  obtain ⟨hback, -, hnests, -⟩ := readBack [.line (nestedRecord 122)] hinsert
  rw [helements] at hback hnests
  have hfits : ∀ entry ∈ [("a", nestedElement 122)], entry.2.Fits 124 :=
    List.forall_mem_singleton.2 (fits_nestedElement_iff.2 (Nat.le_refl 122))
  obtain ⟨t', ht', -⟩ := hback hfits
  exact ⟨hinsert, ⟨t', ht'⟩, hnests _ (List.mem_singleton_self _)⟩

theorem ofJson?_nestedRecord_eq_none {n : Nat} (hn : n ≤ 123) (hdeep : 122 < n) :
    ofJson? (empty.applyLine (nestedRecord n)).1.toJson = none := by
  have hreceived : (empty.applyLine (nestedRecord n)).1.Received := by
    intro entry hentry
    rw [elements_nestedRecord hn] at hentry
    obtain rfl := List.mem_singleton.1 hentry
    exact Operation.received_of_ofLine? (ofLine?_nestedRecord hn)
  apply hreceived.ofJson?_toJson.2
  intro hdepth
  have hfits := forall_fits_iff.2 hdepth
  rw [elements_nestedRecord hn] at hfits
  have hle := fits_nestedElement_iff.1 (hfits _ (List.mem_singleton_self _))
  omega

/-- With one level more the patch is still accepted, and the tree is lost. -/
theorem readBack_nestedFurther :
    (empty.applyLine (nestedRecord 123)).2 = true ∧
      ofJson? (empty.applyLine (nestedRecord 123)).1.toJson = none :=
  ⟨congrArg Prod.snd (applyLine_nestedRecord (Nat.le_refl 123)),
    ofJson?_nestedRecord_eq_none (Nat.le_refl 123) (by decide)⟩

end Tree

end StreamedUi
