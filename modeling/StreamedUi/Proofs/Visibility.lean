import StreamedUi.Proofs.Analysis
import StreamedUi.Proofs.Condition.Support
import StreamedUi.Proofs.OrderedMap

/-! Which elements are visible with given data. The data paths that are reported of a condition, and
those that are reported of a tree, are all that visibility depends on (`Tree.dataPaths_cover`). -/

namespace StreamedUi

open Json Condition

/-- The element has no condition, or one that the data meet. -/
def Element.isVisible (data : Value) (e : Element) : Bool := e.visible.all (Condition.holds data)

namespace Tree

theorem holds_eq_of_agree {c : Condition} {data data' : Value}
    (h : ∀ p ∈ c.paths, Agree (data.at? p) (data'.at? p)) : c.holds data = c.holds data' :=
  holds_eq_of_indistinct c fun p hp => (h p hp).indistinct

/-- The paths of an element's condition are among those of the tree. -/
theorem mem_dataPaths_of_visible {t : Tree} {e : Element} {c : Condition} {p : String}
    (he : t.Uses e) (hc : e.visible = some c) (hp : p ∈ c.paths) : p ∈ t.dataPaths :=
  mem_dataPaths_iff.2 ⟨e, he, .inr ⟨c, hc, Condition.mem_paths_iff.1 hp⟩⟩

/-- A condition holds alike with any two data models that agree on its paths. So with models that
agree on the data paths of a tree, the same elements reachable from the root are visible. -/
theorem dataPaths_cover :
    (∀ (c : Condition) (data data' : Value),
      (∀ p ∈ c.paths, Agree (data.at? p) (data'.at? p)) → c.holds data = c.holds data') ∧
    ∀ (t : Tree) (data data' : Value),
      (∀ p ∈ t.dataPaths, Agree (data.at? p) (data'.at? p)) →
      ∀ key e, t.Reachable key → t.get? key = some e → e.isVisible data = e.isVisible data' := by
  refine ⟨fun c data data' => holds_eq_of_agree, fun t data data' h key e hkey he => ?_⟩
  rw [Element.isVisible, Element.isVisible]
  cases hc : e.visible with
  | none => rfl
  | some c =>
    rw [Option.all_some, Option.all_some]
    exact holds_eq_of_agree fun p hp => h p (mem_dataPaths_of_visible ⟨key, hkey, he⟩ hc hp)

/-- A lamp that is visible where the data say so. -/
def lamp : Element := { key := "lamp", kind := "Badge", visible := some (.path "on") }

/-- The lamp is the root. -/
def lampTree : Tree where
  root := some "lamp"
  elements := (∅ : OrderedMap Element).insert "lamp" lamp

/-- Data in which the lamp is on, and its color. -/
def lampData (color : String) : Value := .object [("color", .string color), ("on", .bool true)]

theorem get?_lampTree : lampTree.get? "lamp" = some lamp := by
  rw [get?, lampTree, OrderedMap.get?_insert, if_pos rfl]

theorem eq_of_mem_dataPaths_lampTree {p : String} (hp : p ∈ lampTree.dataPaths) : p = "on" := by
  obtain ⟨e, ⟨key, -, he⟩, hbinds⟩ := mem_dataPaths_iff.1 hp
  rw [get?, lampTree, OrderedMap.get?_insert] at he
  split at he
  · cases he
    obtain ⟨name, v, hmem, -⟩ | ⟨c, hc, hmentions⟩ := hbinds
    · cases hmem
    · cases hc
      cases hmentions
      rfl
  · rw [OrderedMap.get?_empty] at he
    cases he

/-- The color is at none of the paths. -/
theorem dataPaths_cover_lamp :
    let c := Condition.path "on"
    let red := lampData "red"
    let blue := lampData "blue"
    ((∀ p ∈ c.paths, Agree (red.at? p) (blue.at? p)) ∧ c.holds red = c.holds blue) ∧
      (∀ p ∈ lampTree.dataPaths, Agree (red.at? p) (blue.at? p)) ∧ lampTree.Reachable "lamp" ∧
        lampTree.get? "lamp" = some lamp ∧ lamp.isVisible red = lamp.isVisible blue := by
  intro c red blue
  have hon : Agree (red.at? "on") (blue.at? "on") := .inl rfl
  have hc : ∀ p ∈ c.paths, Agree (red.at? p) (blue.at? p) := fun p hp => by
    rw [List.mem_singleton.1 hp]
    exact hon
  have ht : ∀ p ∈ lampTree.dataPaths, Agree (red.at? p) (blue.at? p) := fun p hp => by
    rw [eq_of_mem_dataPaths_lampTree hp]
    exact hon
  have hkey : lampTree.Reachable "lamp" := ⟨"lamp", rfl, ⟨lamp, get?_lampTree⟩, .refl⟩
  exact ⟨⟨hc, dataPaths_cover.1 c red blue hc⟩, ht, hkey, get?_lampTree,
    dataPaths_cover.2 lampTree red blue ht "lamp" lamp hkey get?_lampTree⟩

end Tree

end StreamedUi
