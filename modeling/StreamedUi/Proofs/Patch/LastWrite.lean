import Mathlib.Data.List.Induction
import StreamedUi.Proofs.OrderedMap
import StreamedUi.Proofs.Patch.Truncation

/-! What a text makes of a tree, said by its lines alone. The last `set` names the root, the last
`add` for a key gives the element there as a whole, and keys stay in the order in which they first
came (`Tree.applyText_lastWrite`). So lines that are no operations may be put in anywhere, and a
text may be applied again. -/

namespace StreamedUi

open Json

namespace Operation

/-! ## Records that are operations -/

/-- What a record asks for. An element is taken over as the record has it, under the key that the
path names. -/
inductive Asks : Record → Operation → Prop
  | setRoot (key : String) : Asks ⟨"set", "/root", .string key⟩ (.setRoot key)
  | put {segment key : String} {v : Value} {e : Element} :
    keyOfSegment? segment.toList = some key → Element.ofValue? v = some e →
    Asks ⟨"add", "/elements/" ++ segment, v⟩ (.put key { e with key := key })

theorem isPrefixOf?_elementsPath {path : String} {segment : List Char} :
    elementsPath.isPrefixOf? path.toList = some segment ↔
      path = "/elements/" ++ String.ofList segment := by
  have hprefix : elementsPath = "/elements/".toList := rfl
  rw [List.isPrefixOf?_eq_some_iff_append_eq, hprefix]
  constructor
  · intro h
    rw [← String.ofList_toList (s := path), ← h, String.ofList_append, String.ofList_toList]
  · intro h
    rw [h, String.toList_append, String.toList_ofList (l := segment)]

theorem put?_eq_ok_iff {key : String} {v : Value} {op : Operation} :
    put? key v = .ok op ↔
      ∃ e, Element.ofValue? v = some e ∧ op = .put key { e with key := key } := by
  rw [put?]
  cases Element.ofValue? v <;> simp [eq_comm]

theorem ofRecord_eq_ok_iff {r : Record} {op : Operation} : ofRecord r = .ok op ↔ Asks r op := by
  constructor
  · intro h
    obtain ⟨name, path, v⟩ := r
    unfold ofRecord at h
    dsimp only at h
    split at h
    · next hset =>
      obtain ⟨rfl, rfl⟩ := hset
      split at h
      · cases h
        exact .setRoot _
      · cases h
    · split at h
      · next segment hpath _ =>
        rw [isPrefixOf?_elementsPath] at hpath
        subst hpath
        split at h
        · next key hkey =>
          obtain ⟨e, he, rfl⟩ := put?_eq_ok_iff.1 h
          exact .put (by rwa [String.toList_ofList]) he
        · cases h
      · cases h
  · intro h
    cases h with
    | setRoot key => rfl
    | @put segment key v e hkey he =>
      have hpath : elementsPath.isPrefixOf? ("/elements/" ++ segment).toList =
          some segment.toList := by
        rw [isPrefixOf?_elementsPath, String.ofList_toList]
      have hset : ¬("add" = "set" ∧ "/elements/" ++ segment = "/root") := by
        rintro ⟨h, -⟩
        revert h
        decide
      simp only [ofRecord, if_neg hset, hpath, hkey]
      exact put?_eq_ok_iff.2 ⟨e, he, rfl⟩

theorem ofLine?_eq_some_iff {line : String} {op : Operation} :
    ofLine? line = some op ↔ ∃ r, Record.ofLine? line = some r ∧ Asks r op := by
  rw [ofLine?, parse]
  cases Record.ofLine? line with
  | none => simp [Except.toOption]
  | some r =>
    simp only [Option.some.injEq, exists_eq_left', ← ofRecord_eq_ok_iff]
    cases ofRecord r <;> simp [Except.toOption]

/-- The operations of the lines of a text, in order. -/
def ofText (text : String) : List Operation := (Text.lines text).filterMap ofLine?

/-- The root that an operation names. -/
def root? : Operation → Option String
  | .setRoot key => some key
  | .put _ _ => none

/-- The element that an operation puts, under its key. -/
def entry? : Operation → Option (String × Element)
  | .setRoot _ => none
  | .put key e => some (key, e)

/-- The root that the last `set` names. -/
def lastRoot? (ops : List Operation) : Option String := (ops.filterMap root?).getLast?

/-- The keys of the elements that are put in place, one for each time. -/
def putKeys (ops : List Operation) : List String := (ops.filterMap entry?).map Prod.fst

/-- The element that is put in place last under a key. -/
def lastElement? (ops : List Operation) (key : String) : Option Element :=
  ((ops.filterMap entry?).filter (·.1 = key)).getLast?.map Prod.snd

end Operation

namespace Tree

open Operation

variable {t : Tree} {ops : List Operation}

/-! ## Operations one after the other -/

theorem applyAll_concat (t : Tree) (ops : List Operation) (op : Operation) :
    t.applyAll (ops ++ [op]) = (t.applyAll ops).apply op := List.foldl_concat ..

theorem applyAll_root (t : Tree) (ops : List Operation) :
    (t.applyAll ops).root = (lastRoot? ops).or t.root := by
  induction ops using List.reverseRecOn with
  | nil => rfl
  | append_singleton ops op ih =>
    rw [applyAll_concat, lastRoot?, List.filterMap_append, List.getLast?_append]
    cases op with
    | setRoot key => rfl
    | put key e => exact ih

theorem applyAll_version (t : Tree) (ops : List Operation) :
    (t.applyAll ops).version = t.version + ops.length := by
  induction ops using List.reverseRecOn with
  | nil => rfl
  | append_singleton ops op ih =>
    rw [applyAll_concat, List.length_append, ← Nat.add_assoc, ← ih]
    cases op <;> rfl

theorem applyAll_get? (t : Tree) (ops : List Operation) (key : String) :
    (t.applyAll ops).get? key = (lastElement? ops key).or (t.get? key) := by
  induction ops using List.reverseRecOn with
  | nil => rfl
  | append_singleton ops op ih =>
    rw [applyAll_concat, lastElement?, List.filterMap_append, List.filter_append,
      List.getLast?_append]
    cases op with
    | setRoot root => exact ih
    | put key' e =>
      have hentry : [put key' e].filterMap entry? = [(key', e)] := rfl
      rw [get?, apply, OrderedMap.get?_insert, hentry]
      split
      · next hkey =>
        rw [List.filter_cons_of_pos (by simpa using hkey)]
        rfl
      · next hkey =>
        rw [List.filter_cons_of_neg (by simpa using hkey)]
        exact ih

private theorem eraseDups_concat (keys : List String) (key : String) :
    (keys ++ [key]).eraseDups =
      if key ∈ keys then keys.eraseDups else keys.eraseDups ++ [key] := by
  rw [List.eraseDups_append, List.removeAll]
  split
  · next h => rw [List.filter_cons_of_neg (by simpa using h), List.filter_nil, List.eraseDups_nil,
      List.append_nil]
  · next h => rw [List.filter_cons_of_pos (by simpa using h), List.filter_nil, List.eraseDups_cons,
      List.filter_nil, List.eraseDups_nil]

theorem applyAll_keys (t : Tree) (ops : List Operation) :
    (t.applyAll ops).elements.keys =
      t.elements.keys ++ ((putKeys ops).filter (· ∉ t.elements.keys)).eraseDups := by
  induction ops using List.reverseRecOn with
  | nil => exact (List.append_nil _).symm
  | append_singleton ops op ih =>
    rw [applyAll_concat, putKeys, List.filterMap_append, List.map_append, ← putKeys]
    cases op with
    | setRoot root =>
      have hentry : ([setRoot root].filterMap entry?).map Prod.fst = [] := rfl
      rw [hentry, List.append_nil]
      exact ih
    | put key e =>
      have hentry : ([put key e].filterMap entry?).map Prod.fst = [key] := rfl
      have hmem : key ∈ (t.applyAll ops).elements.keys ↔
          key ∈ t.elements.keys ∨ key ∈ (putKeys ops).filter (· ∉ t.elements.keys) := by
        rw [ih, List.mem_append, List.mem_eraseDups]
      rw [apply, OrderedMap.keys_insert, hentry, List.filter_append]
      by_cases hkey : key ∈ t.elements.keys
      · rw [if_pos (hmem.2 (.inl hkey)), ih, List.filter_cons_of_neg (by simpa using hkey),
          List.filter_nil, List.append_nil]
      · rw [or_iff_right hkey] at hmem
        rw [List.filter_cons_of_pos (by simpa using hkey), List.filter_nil, eraseDups_concat]
        split
        · next hold => rw [if_pos (hmem.1 hold), ih]
        · next hnew => rw [if_neg (mt hmem.2 hnew), ih, List.append_assoc]

theorem mem_keys_applyAll {key : String} :
    key ∈ (t.applyAll ops).elements.keys ↔ key ∈ t.elements.keys ∨ key ∈ putKeys ops := by
  rw [applyAll_keys, List.mem_append, List.mem_eraseDups, List.mem_filter, decide_eq_true_eq]
  tauto

/-- Operations that have been done once change nothing but the version. -/
theorem applyAll_applyAll (t : Tree) (ops : List Operation) :
    ((t.applyAll ops).applyAll ops).root = (t.applyAll ops).root ∧
      ((t.applyAll ops).applyAll ops).elements = (t.applyAll ops).elements := by
  refine ⟨?_, OrderedMap.ext_get? ?_ fun key => ?_⟩
  · rw [applyAll_root, applyAll_root, ← Option.or_assoc, Option.or_self]
  · have hknown : (putKeys ops).filter (· ∉ (t.applyAll ops).elements.keys) = [] := by
      refine List.filter_eq_nil_iff.2 fun key hkey hnew => ?_
      exact of_decide_eq_true hnew (mem_keys_applyAll.2 (.inr hkey))
    rw [applyAll_keys (t.applyAll ops), hknown, List.eraseDups_nil, List.append_nil]
  · change ((t.applyAll ops).applyAll ops).get? key = (t.applyAll ops).get? key
    rw [applyAll_get?, applyAll_get?, ← Option.or_assoc, Option.or_self]

/-! ## Texts -/

/-- What operations make of a tree. The root is the one that was named last, or that of before. Keys
of before keep their places, and new ones follow in the order in which they first came; under each
is the element that was put there last, or that of before. -/
structure LastWrite (t : Tree) (ops : List Operation) (t' : Tree) : Prop where
  root : t'.root = (lastRoot? ops).or t.root
  keys : t'.elements.keys =
    t.elements.keys ++ ((putKeys ops).filter (· ∉ t.elements.keys)).eraseDups
  get? : ∀ key, t'.get? key = (lastElement? ops key).or (t.get? key)
  version : t'.version = t.version + ops.length

theorem lastWrite_applyAll (t : Tree) (ops : List Operation) :
    t.LastWrite ops (t.applyAll ops) where
  root := t.applyAll_root ops
  keys := t.applyAll_keys ops
  get? := t.applyAll_get? ops
  version := t.applyAll_version ops

theorem applyText_eq (t : Tree) (text : String) :
    t.applyText text = (t.applyAll (Operation.ofText text),
      ⟨(Operation.ofText text).length, rejected (Text.lines text)⟩) := t.applyLines_eq _

/-- Lines that are no operations make no difference, but that they are counted if not blank. -/
theorem applyText_insert (t : Tree) {text longer : String} {front extra back : List String}
    (htext : Text.lines text = front ++ back) (hlonger : Text.lines longer = front ++ extra ++ back)
    (hextra : ∀ line ∈ extra, Operation.ofLine? line = none) :
    (t.applyText longer).1 = (t.applyText text).1 ∧
      (t.applyText longer).2 =
        (t.applyText text).2 + ⟨0, extra.countP (!Text.isBlankText ·)⟩ := by
  have hops : Operation.ofText longer = Operation.ofText text := by
    rw [Operation.ofText, Operation.ofText, htext, hlonger, List.filterMap_append,
      List.filterMap_append, List.filterMap_append, List.filterMap_eq_nil_iff.2 hextra,
      List.append_nil]
  have hcount : rejected extra = extra.countP (!Text.isBlankText ·) := by
    refine List.countP_congr fun line hline => ?_
    rw [hextra line hline, Option.isNone_none, Bool.and_true]
  rw [applyText_eq, applyText_eq, hops, htext, hlonger, rejected, rejected, List.countP_append,
    List.countP_append, List.countP_append, ← hcount]
  exact ⟨rfl, Stats.ext (Nat.add_zero _).symm (Nat.add_right_comm ..)⟩

/-- The operations of a text are the lines with a record that asks for one. The last of them decide
what becomes of the tree, and each other line that is not blank is counted as skipped. It makes no
other difference to put in lines that are no operations, and none to apply the text again, but for
the version. -/
theorem applyText_lastWrite (t : Tree) (text : String) :
    let ops := Operation.ofText text
    let t' := (t.applyText text).1
    let stats := (t.applyText text).2
    (∀ line op, Operation.ofLine? line = some op ↔
        ∃ r, Record.ofLine? line = some r ∧ Operation.Asks r op) ∧
      t.LastWrite ops t' ∧
      stats = ⟨ops.length, rejected (Text.lines text)⟩ ∧
      (∀ longer front extra back, Text.lines text = front ++ back →
        Text.lines longer = front ++ extra ++ back →
        (∀ line ∈ extra, Operation.ofLine? line = none) →
        (t.applyText longer).1 = t' ∧
          (t.applyText longer).2 = stats + ⟨0, extra.countP (!Text.isBlankText ·)⟩) ∧
      (t'.applyText text).1.root = t'.root ∧
      (t'.applyText text).1.elements = t'.elements ∧
      (t'.applyText text).2 = stats := by
  obtain ⟨hroot, helements⟩ := t.applyAll_applyAll (Operation.ofText text)
  refine ⟨fun _ _ => ofLine?_eq_some_iff, ?_, ?_, fun _ _ _ _ => t.applyText_insert, ?_⟩
  all_goals simp only [applyText_eq]
  · exact t.lastWrite_applyAll _
  · exact ⟨hroot, helements, trivial⟩

/-- A blank line and one that is no record, between two records. -/
theorem applyText_lastWrite_rootRecord :
    let text := rootRecord ++ "\n" ++ rootRecord
    let longer := rootRecord ++ "\nset\n \n" ++ rootRecord
    Text.lines text = [rootRecord] ++ [rootRecord] ∧
      Text.lines longer = [rootRecord] ++ ["set", " "] ++ [rootRecord] ∧
      (∀ line ∈ ["set", " "], Operation.ofLine? line = none) ∧
      (empty.applyText longer).1 = (empty.applyText text).1 ∧
      (empty.applyText longer).2 = (empty.applyText text).2 + ⟨0, 1⟩ := by
  have htext : Text.lines (rootRecord ++ "\n" ++ rootRecord) = [rootRecord] ++ [rootRecord] := by
    decide +kernel
  have hlonger : Text.lines (rootRecord ++ "\nset\n \n" ++ rootRecord) =
      [rootRecord] ++ ["set", " "] ++ [rootRecord] := by decide +kernel
  have hextra : ∀ line ∈ ["set", " "], Operation.ofLine? line = none := by
    simp only [← Option.isNone_iff_eq_none]
    decide +kernel
  have hcount : ["set", " "].countP (!Text.isBlankText ·) = 1 := by decide +kernel
  obtain ⟨-, -, -, hinsert, -⟩ := applyText_lastWrite empty (rootRecord ++ "\n" ++ rootRecord)
  have h := hinsert _ _ _ _ htext hlonger hextra
  rw [hcount] at h
  exact ⟨htext, hlonger, hextra, h⟩

end Tree

end StreamedUi
