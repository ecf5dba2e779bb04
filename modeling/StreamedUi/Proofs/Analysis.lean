import Mathlib.Data.List.Basic
import StreamedUi.Analysis
import StreamedUi.Proofs.Condition.Mentions
import StreamedUi.Proofs.Walk.Reachable

/-! What an analysis lists is what the reachable elements use, no more and no less
(`Tree.analyze_iff`). What one element uses is said here property by property. -/

namespace StreamedUi

open Json

namespace Element

/-- A property is bound to a path: by its name and a text, or by a `path` member. -/
def BindsProp (name : String) (v : Value) (p : String) : Prop :=
  (((∃ front, name = front ++ "Path") ∨ name = "bindPath" ∨ name = "dataPath") ∧ v = .string p) ∨
    ∃ ms, v = .object ms ∧ ms.lookup "path" = some (.string p)

/-- The element is bound to a path, or shown by one. -/
def Binds (e : Element) (p : String) : Prop :=
  (∃ name v, (name, v) ∈ e.props ∧ BindsProp name v p) ∨
    ∃ c, e.visible = some c ∧ c.Mentions p

/-- A property names an action, in a text after `action:` or in a `name` member. -/
def TriggersProp (v : Value) (a : String) : Prop :=
  v = .string ("action:" ++ a) ∨ ∃ ms, v = .object ms ∧ ms.lookup "name" = some (.string a)

/-- The element names an action in a property, or by the text of its property `action`. -/
def Triggers (e : Element) (a : String) : Prop :=
  (∃ name v, (name, v) ∈ e.props ∧ TriggersProp v a) ∨
    e.props.lookup "action" = some (.string a)

end Element

/-! ## One element -/

namespace Element

variable {e : Element} {name p a : String} {v : Value}

theorem isSuffixOf_path_iff :
    "Path".toList.isSuffixOf name.toList = true ↔
      (∃ front, name = front ++ "Path") ∨ name = "bindPath" ∨ name = "dataPath" := by
  rw [List.isSuffixOf_iff_suffix]
  constructor
  · rintro ⟨front, hfront⟩
    refine .inl ⟨String.ofList front, ?_⟩
    rw [← String.toList_inj, String.toList_append, String.toList_ofList, hfront]
  · rintro (⟨front, rfl⟩ | rfl | rfl)
    · rw [String.toList_append]
      exact List.suffix_append _ _
    · exact ⟨"bind".toList, by decide⟩
    · exact ⟨"data".toList, by decide⟩

theorem mem_propPaths_iff : p ∈ propPaths name v ↔ BindsProp name v p := by
  rw [propPaths, BindsProp, List.mem_append, Option.mem_toList, Value.stringMember?_eq_some_iff,
    ← isSuffixOf_path_iff]
  split <;> simp_all [Value.string?_eq_some_iff]

theorem mem_dataPaths_iff : p ∈ e.dataPaths ↔ e.Binds p := by
  rw [dataPaths, Binds, List.mem_append, List.mem_flatMap]
  simp only [Prod.exists, mem_propPaths_iff]
  cases e.visible with
  | none => simp
  | some c => simp [Condition.mem_paths_iff]

theorem mem_propActions_iff : a ∈ propActions v ↔ TriggersProp v a := by
  rw [propActions, TriggersProp, List.mem_append, Option.mem_toList, Option.mem_toList,
    Value.stringMember?_eq_some_iff]
  refine or_congr_left ?_
  simp only [Option.map_eq_some_iff, Option.bind_eq_some_iff, Value.string?_eq_some_iff,
    List.isPrefixOf?_eq_some_iff_append_eq]
  constructor
  · rintro ⟨rest, ⟨s, rfl, hs⟩, rfl⟩
    rw [← String.ofList_toList (s := s), ← hs, String.ofList_append, String.ofList_toList]
  · rintro rfl
    exact ⟨a.toList, ⟨_, rfl, String.toList_append.symm⟩, String.ofList_toList⟩

theorem mem_actions_iff : a ∈ e.actions ↔ e.Triggers a := by
  rw [actions, Triggers, List.mem_append, List.mem_flatMap]
  simp [mem_propActions_iff, Option.bind_eq_some_iff, Value.string?_eq_some_iff]

end Element

/-! ## The whole tree -/

namespace Tree

variable {t : Tree}

/-- The element is reachable from the root. -/
def Uses (t : Tree) (e : Element) : Prop := ∃ key, t.Reachable key ∧ t.get? key = some e

theorem mem_shown_iff {e : Element} : e ∈ t.shown ↔ t.Uses e := mem_visits_root_iff

theorem mem_components_iff {kind : String} :
    kind ∈ t.components ↔ ∃ e, t.Uses e ∧ e.kind = kind := by
  simp [components, mem_shown_iff]

theorem mem_dataPaths_iff {p : String} : p ∈ t.dataPaths ↔ ∃ e, t.Uses e ∧ e.Binds p := by
  simp [dataPaths, mem_shown_iff, Element.mem_dataPaths_iff]

theorem mem_actions_iff {a : String} : a ∈ t.actions ↔ ∃ e, t.Uses e ∧ e.Triggers a := by
  simp [actions, mem_shown_iff, Element.mem_actions_iff]

/-- The analysis lists exactly the kinds, data paths and actions of the elements that are reachable
from the root. -/
theorem analyze_iff (t : Tree) :
    (∀ kind, kind ∈ t.analyze.components ↔ ∃ e, t.Uses e ∧ e.kind = kind) ∧
      (∀ p, p ∈ t.analyze.dataPaths ↔ ∃ e, t.Uses e ∧ e.Binds p) ∧
      ∀ a, a ∈ t.analyze.actions ↔ ∃ e, t.Uses e ∧ e.Triggers a :=
  ⟨fun _ => mem_components_iff, fun _ => mem_dataPaths_iff, fun _ => mem_actions_iff⟩

end Tree

end StreamedUi
