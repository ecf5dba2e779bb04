import StreamedUi.Project.Basic
import StreamedUi.Proofs.Json.Quoted
import StreamedUi.Proofs.Patch.LastWrite
import StreamedUi.Proofs.Walk.Agreement

/-! What is derived from a tree depends on its root and on what is found under the keys that child
entries lead to from there, and on nothing else (`Tree.derived_eq`). Patches may so arrive in any
order: only the last one for the root and for each key matters. -/

namespace StreamedUi

namespace Tree

open Json Operation

variable {t t' : Tree}

theorem AgreesWith.analyze_eq (h : t.AgreesWith t') : t.analyze = t'.analyze := by
  simp only [analyze, components, dataPaths, actions, shown, h.walk_eq]

theorem AgreesWith.body_eq (h : t.AgreesWith t') (o : Markup.Options) :
    Markup.body o t = Markup.body o t' := by
  simp only [Markup.body, Markup.bodyLines, h.walk_eq]

theorem AgreesWith.files_eq (h : t.AgreesWith t') (o : Markup.Options) :
    Project.files o t = Project.files o t' := by
  have hcomponents : t.components = t'.components := congrArg Analysis.components h.analyze_eq
  simp only [Project.files, Project.used, Project.page, h.root, hcomponents, h.body_eq o]

/-- Texts with the same last patches make trees that agree. -/
theorem agreesWith_applyText (t : Tree) {text text' : String}
    (hroot : lastRoot? (ofText text) = lastRoot? (ofText text'))
    (helement : ∀ key, lastElement? (ofText text) key = lastElement? (ofText text') key) :
    (t.applyText text).1.AgreesWith (t.applyText text').1 := by
  apply AgreesWith.of_get?
  · rw [applyText_eq, applyText_eq, applyAll_root, applyAll_root, hroot]
  · intro key
    rw [applyText_eq, applyText_eq, applyAll_get?, applyAll_get?, helement]

/-- Trees with the same root, under which the same is found for each key that entries lead to, have
the same walk, analysis, markup and project. So have the trees of two texts of which the last
patches for the root and for each key are the same, in whatever order the patches come. -/
theorem derived_eq :
    (∀ t t' : Tree, t.root = t'.root →
      (∀ key, t.Mentions key → t.get? key = t'.get? key) →
      t.walk none = t'.walk none ∧ t.analyze = t'.analyze ∧
        (∀ o, Markup.body o t = Markup.body o t') ∧
        ∀ o, Project.files o t = Project.files o t') ∧
    ∀ text text' : String, lastRoot? (ofText text) = lastRoot? (ofText text') →
      (∀ key, lastElement? (ofText text) key = lastElement? (ofText text') key) →
      ∀ o, Project.files o (empty.applyText text).1 =
        Project.files o (empty.applyText text').1 := by
  constructor
  · intro t t' hroot hget
    have h : t.AgreesWith t' := ⟨hroot, hget⟩
    exact ⟨h.walk_eq, h.analyze_eq, h.body_eq, h.files_eq⟩
  · intro text text' hroot helement o
    exact (agreesWith_applyText empty hroot helement).files_eq o

/-- A card with two child entries. -/
def cardRecord : String := "[\"add\",\"/elements/a\",[\"\",\"Card\",\x7b\x7d,[\"b\",\"c\"]]]"

/-- The first of its children. -/
def labelRecord : String := "[\"add\",\"/elements/b\",[\"\",\"Text\"]]"

/-- The card is the root. -/
def startRecord : String := "[\"set\",\"/root\",\"a\"]"

/-- What the record of the card puts. -/
def cardElement : Element := { key := "a", kind := "Card", children := some ["b", "c"] }

/-- What the record of the label puts. -/
def labelElement : Element := { key := "b", kind := "Text" }

/-- A card with a label, and a child that is not there. -/
def cardTree : Tree where
  root := some "a"
  elements := (∅ : OrderedMap Element).insert "a" cardElement |>.insert "b" labelElement

/-- The same in another order, with an element that no entry leads to. -/
def strayTree : Tree where
  root := some "a"
  elements := (∅ : OrderedMap Element).insert "d" labelElement |>.insert "b" labelElement
    |>.insert "a" cardElement
  version := 7

theorem mem_of_mentions_cardTree {key : String} (h : cardTree.Mentions key) :
    key ∈ ["a", "b", "c"] := by
  induction h with
  | root hroot =>
    cases hroot
    exact List.mem_cons_self
  | child _ hget hchild _ =>
    simp only [cardTree, get?, OrderedMap.get?_insert, OrderedMap.get?_empty] at hget
    split at hget
    · cases hget
      cases hchild
    · split at hget
      · cases hget
        exact List.mem_cons_of_mem "a" hchild
      · cases hget

theorem read?_cardRecord :
    Raw.read? (Text.trimChars cardRecord.toList) =
      some (.array [.string (pieces "add"), .string (pieces "/elements/a"),
        .array [.string [], .string (pieces "Card"), .object [],
          .array [.string (pieces "b"), .string (pieces "c")]]]) := by
  cbv

theorem read?_labelRecord :
    Raw.read? (Text.trimChars labelRecord.toList) =
      some (.array [.string (pieces "add"), .string (pieces "/elements/b"),
        .array [.string [], .string (pieces "Text")]]) := by
  cbv

theorem read?_startRecord :
    Raw.read? (Text.trimChars startRecord.toList) =
      some (.array [.string (pieces "set"), .string (pieces "/root"), .string (pieces "a")]) := by
  cbv

/-- The stray element makes no difference, and neither does the order of the records. -/
theorem derived_eq_cards :
    let text := "\n".intercalate [labelRecord, cardRecord, startRecord]
    let text' := "\n".intercalate [startRecord, cardRecord, labelRecord]
    (∀ key, cardTree.Mentions key → cardTree.get? key = strayTree.get? key) ∧
      cardTree.walk none = strayTree.walk none ∧
      lastRoot? (ofText text) = lastRoot? (ofText text') ∧
      (∀ key, lastElement? (ofText text) key = lastElement? (ofText text') key) ∧
      Project.files {} (empty.applyText text).1 = Project.files {} (empty.applyText text').1 := by
  have hget : ∀ key, cardTree.Mentions key → cardTree.get? key = strayTree.get? key := by
    intro key hkey
    have hmem := mem_of_mentions_cardTree hkey
    simp only [List.mem_cons, List.not_mem_nil, or_false] at hmem
    simp only [cardTree, strayTree, get?, OrderedMap.get?_insert, OrderedMap.get?_empty]
    rcases hmem with rfl | rfl | rfl <;> rfl
  intro text text'
  have hlines : Text.lines text = [labelRecord, cardRecord, startRecord] := by decide +kernel
  have hlines' : Text.lines text' = [startRecord, cardRecord, labelRecord] := by decide +kernel
  have hcard : Operation.ofLine? cardRecord = some (.put "a" cardElement) :=
    ofLine?_of_read? read?_cardRecord rfl rfl
  have hlabel : Operation.ofLine? labelRecord = some (.put "b" labelElement) :=
    ofLine?_of_read? read?_labelRecord rfl rfl
  have hset : Operation.ofLine? startRecord = some (.setRoot "a") :=
    ofLine?_of_read? read?_startRecord rfl rfl
  have hops : ofText text = [.put "b" labelElement, .put "a" cardElement, .setRoot "a"] := by
    simp only [ofText, hlines, List.filterMap_cons, hcard, hlabel, hset, List.filterMap_nil]
  have hops' : ofText text' = [.setRoot "a", .put "a" cardElement, .put "b" labelElement] := by
    simp only [ofText, hlines', List.filterMap_cons, hcard, hlabel, hset, List.filterMap_nil]
  have hroot : lastRoot? (ofText text) = lastRoot? (ofText text') := by
    rw [hops, hops']
    rfl
  have helement : ∀ key, lastElement? (ofText text) key = lastElement? (ofText text') key := by
    intro key
    rw [hops, hops']
    by_cases ha : "a" = key
    · subst ha
      rfl
    · by_cases hb : "b" = key
      · subst hb
        rfl
      · simp [lastElement?, entry?, List.filterMap_cons, ha, hb]
  exact ⟨hget, (derived_eq.1 cardTree strayTree rfl hget).1, hroot, helement,
    derived_eq.2 text text' hroot helement {}⟩

end Tree

end StreamedUi
