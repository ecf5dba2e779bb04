import Mathlib.Data.List.Sort
import StreamedUi.Project.Basic
import StreamedUi.Proofs.Analysis
import StreamedUi.Proofs.Markup.Tags

/-! The parts of a generated project fit together (`Project.files_consistent`). The components that
get a file are those that the index exports and that the page imports: the ones whose name is the
kind of a visited element. The text of the markup has tags of just these, if kinds and the names of
properties can stand in markup. No two files have one path, since components are used in the order
of the catalog (`Project.used_sublist`). -/

namespace StreamedUi

namespace Component

theorem ofName?_eq_some_iff {name : String} {c : Component} :
    ofName? name = some c ↔ name = c.name := by
  constructor
  · intro h
    have := List.find?_some h
    exact (beq_iff_eq.1 this).symm
  · rintro rfl
    cases c <;> decide

/-- The order of the names. -/
def Precedes (c c' : Component) : Prop := c.name < c'.name

instance (c c' : Component) : Decidable (c.Precedes c') := inferInstanceAs (Decidable (_ < _))

instance : Std.Irrefl Precedes where
  irrefl c := String.lt_irrefl c.name

instance : Std.Antisymm Precedes where
  antisymm _ _ h h' := absurd h' (String.lt_asymm h)

theorem mem_all (c : Component) : c ∈ all := by cases c <;> decide

theorem all_sorted : all.Pairwise Precedes := by decide

theorem isPlainLine_name (c : Component) : Text.IsPlainLine c.name := by cases c <;> decide

theorem isPlainLine_fileStem (c : Component) : Text.IsPlainLine c.fileStem := by cases c <;> decide

end Component

namespace Project

variable {t : Tree}

/-! ## The used components -/

theorem mem_used_iff {c : Component} :
    c ∈ used t ↔ ∃ v ∈ (t.walk none).visits, v.element.kind = c.name := by
  simp [used, List.mem_filterMap, Component.ofName?_eq_some_iff, Tree.components, Tree.shown]

theorem used_sorted (t : Tree) : (used t).Pairwise Component.Precedes := by
  refine List.Pairwise.filterMap _ ?_ Std.TreeSet.ordered_toList
  intro name name' hlt c hc c' hc'
  rw [Component.Precedes, ← Component.ofName?_eq_some_iff.1 hc,
    ← Component.ofName?_eq_some_iff.1 hc']
  exact compareOfLessAndEq_eq_lt.1 hlt

/-- Components are used in the order of the catalog, each at most once. -/
theorem used_sublist (t : Tree) : (used t).Sublist Component.all :=
  List.sublist_of_subperm_of_pairwise
    (List.subperm_of_subset (used_sorted t).nodup fun c _ => c.mem_all) (used_sorted t)
    Component.all_sorted

/-! ## The files -/

/-- The files of a project with these components, from the text of its index and its page. -/
def layout (cs : List Component) (index page : String) : List ProjectFile :=
  leadingFiles ++ cs.map (fun c => ⟨"components/ui/" ++ c.fileStem ++ ".tsx", c.source⟩) ++
    [⟨"components/ui/index.ts", index⟩, ⟨"app/page.tsx", page⟩] ++ trailingFiles

theorem files_eq_layout (o : Markup.Options) (h : t.root ≠ none) :
    files o t = layout (used t) (index (used t)) (page o t (used t)) :=
  if_neg fun hnone => h (Option.isNone_iff_eq_none.1 hnone)

/-- The path of a source file that stands where the components do. -/
def isComponentPath (path : String) : Bool :=
  "components/ui/".toList.isPrefixOf path.toList && ".tsx".toList.isSuffixOf path.toList

theorem isComponentPath_sourcePath (c : Component) : isComponentPath c.sourcePath = true := by
  cases c <;> decide

theorem filter_layout (cs : List Component) (index page : String) :
    (layout cs index page).filter (isComponentPath ·.path) = cs.map componentFile := by
  have hcomponents : (cs.map componentFile).filter (isComponentPath ·.path) =
      cs.map componentFile := by
    refine List.filter_eq_self.2 (List.forall_mem_map.2 fun c _ => ?_)
    exact isComponentPath_sourcePath c
  have hleading : leadingFiles.filter (isComponentPath ·.path) = [] := rfl
  have htrailing : trailingFiles.filter (isComponentPath ·.path) = [] := rfl
  have hindex : isComponentPath indexPath = false := by decide
  have hpage : isComponentPath pagePath = false := by decide
  have hshared : [ProjectFile.mk indexPath index, ⟨pagePath, page⟩].filter
      (isComponentPath ·.path) = [] := by
    simp [hindex, hpage]
  rw [layout, List.filter_append, List.filter_append, List.filter_append, hleading, htrailing,
    List.append_nil, List.nil_append]
  exact (congrArg _ hshared).trans ((List.append_nil _).trans hcomponents)

/-- The paths that a project has files under, if it has all components. -/
def allPaths : List String :=
  leadingFiles.map ProjectFile.path ++ Component.all.map Component.sourcePath ++
    [indexPath, pagePath] ++ trailingFiles.map ProjectFile.path

theorem paths_layout_sublist {cs : List Component} (h : cs.Sublist Component.all)
    (index page : String) : ((layout cs index page).map ProjectFile.path).Sublist allPaths := by
  simp only [layout, List.map_append, List.map_map]
  exact (((h.map _).append_left _).append_right _).append_right _

theorem paths_nodup_layout {cs : List Component} (h : cs.Sublist Component.all)
    (index page : String) : ((layout cs index page).map ProjectFile.path).Nodup := by
  have hall : allPaths.Nodup := by decide +kernel
  exact hall.sublist (paths_layout_sublist h index page)

/-! ## The index and the page -/

theorem isPlainLine_exportLine (c : Component) : Text.IsPlainLine (exportLine c) := by
  have hopen : Text.IsPlainLine "export \x7b " := by decide
  have hfrom : Text.IsPlainLine " \x7d from \"./" := by decide
  have hclose : Text.IsPlainLine "\";" := by decide
  exact (((hopen.append c.isPlainLine_name).append hfrom).append c.isPlainLine_fileStem).append
    hclose

theorem exportLine_ne_empty (c : Component) : exportLine c ≠ "" := by
  cases c <;> decide

/-- The lines of the index are the exports, if there are any. -/
theorem lines_index (cs : List Component) :
    (Text.lines (index cs)).filter (· ≠ "") = cs.map exportLine := by
  by_cases hcs : cs = []
  · subst hcs
    decide
  have hplain : ∀ l ∈ cs.map exportLine, Text.IsPlainLine l :=
    List.forall_mem_map.2 fun c _ => isPlainLine_exportLine c
  have hne : ∀ l ∈ cs.map exportLine, decide (l ≠ "") = true :=
    List.forall_mem_map.2 fun c _ => decide_eq_true (exportLine_ne_empty c)
  rw [index, joinLines, ← Text.intercalate_concat_empty (mt List.map_eq_nil_iff.1 hcs),
    Text.lines_intercalate_append hplain (List.cons_ne_nil _ _), List.filter_append,
    List.filter_eq_self.2 hne]
  exact List.append_nil _

theorem isPlainLine_importLines (cs : List Component) :
    ∀ l ∈ importLines cs, Text.IsPlainLine l := by
  have hopen : Text.IsPlainLine "import \x7b " := by decide
  have hclose : Text.IsPlainLine " \x7d from \"@/components/ui\";" := by decide
  have hnames : Text.IsPlainLine (", ".intercalate (cs.map Component.name)) :=
    .intercalate (by decide) (List.forall_mem_map.2 fun c _ => c.isPlainLine_name)
  unfold importLines
  split
  · exact List.forall_mem_nil _
  · exact List.forall_mem_cons.2 ⟨(hopen.append hnames).append hclose,
      List.forall_mem_singleton.2 (by decide)⟩

/-- Nothing but the import stands before the component of the page. -/
theorem lines_page (o : Markup.Options) (t : Tree) (cs : List Component) :
    ∃ rest, Text.lines (page o t cs) =
      ["\"use client\";", ""] ++ importLines cs ++
        "export default function Page() \x7b" :: rest := by
  have hdirective : ∀ l ∈ ["\"use client\";", ""], Text.IsPlainLine l := by decide
  have hcomponent : Text.IsPlainLine "export default function Page() \x7b" := by decide
  have hplain : ∀ l ∈ ["\"use client\";", ""] ++ importLines cs ++
      ["export default function Page() \x7b"], Text.IsPlainLine l :=
    List.forall_mem_append.2 ⟨List.forall_mem_append.2 ⟨hdirective, isPlainLine_importLines cs⟩,
      List.forall_mem_singleton.2 hcomponent⟩
  rw [page, joinLines, List.append_assoc, List.append_assoc,
    List.cons_append (a := "export default function Page() \x7b"), List.append_cons,
    Text.lines_intercalate_append hplain (by simp), List.append_assoc]
  exact ⟨_, rfl⟩

theorem infix_page (o : Markup.Options) (t : Tree) (cs : List Component) :
    (Markup.body o t).toList <:+: (page o t cs).toList := by
  by_cases hbody : (Markup.body o t).isEmpty
  · rw [String.isEmpty_iff.1 hbody]
    exact List.nil_infix
  · refine Text.infix_intercalate ?_
    rw [if_neg hbody]
    simp

/-! ## The whole project -/

/-- What the project of a tree says of its components, in the files, the index and the page. -/
structure Consistent (o : Markup.Options) (t : Tree) (components : List Component)
    (index page : String) : Prop where
  /-- The walk from the root visits an element that the component is the kind of. -/
  mem_iff_visited : ∀ c, c ∈ components ↔ ∃ v ∈ (t.walk none).visits, v.element.kind = c.name
  sorted : components.Pairwise (·.name < ·.name)
  files_eq : files o t = layout components index page
  component_files : (files o t).filter (isComponentPath ·.path) = components.map componentFile
  paths_nodup : ((files o t).map ProjectFile.path).Nodup
  exports : (Text.lines index).filter (· ≠ "") =
    components.map fun c => "export \x7b " ++ c.name ++ " \x7d from \"./" ++ c.fileStem ++ "\";"
  imports : ∃ rest, Text.lines page =
    ["\"use client\";", ""] ++
      (if components = [] then []
      else ["import \x7b " ++ ", ".intercalate (components.map Component.name) ++
        " \x7d from \"@/components/ui\";", ""]) ++
      "export default function Page() \x7b" :: rest
  body_isInfix : (Markup.body o t).toList <:+: page.toList
  /-- Some tag in the text of the markup is called by the component. -/
  mem_iff_tag : (∀ v ∈ (t.walk none).visits, Markup.Plain v.element) →
    ∀ c, c ∈ components ↔ c.name ∈ Markup.tagsOf (Markup.body o t)

theorem consistent (o : Markup.Options) (h : t.root ≠ none) :
    Consistent o t (used t) (index (used t)) (page o t (used t)) where
  mem_iff_visited _ := mem_used_iff
  sorted := used_sorted t
  files_eq := files_eq_layout o h
  component_files := by rw [files_eq_layout o h, filter_layout]
  paths_nodup := by
    rw [files_eq_layout o h]
    exact paths_nodup_layout (used_sublist t) _ _
  exports := lines_index (used t)
  imports := by
    obtain ⟨rest, hrest⟩ := lines_page o t (used t)
    rw [hrest, importLines]
    simp only [List.isEmpty_iff]
    exact ⟨rest, rfl⟩
  body_isInfix := infix_page o t (used t)
  mem_iff_tag hplain _ := mem_used_iff.trans (Markup.mem_tagsOf_body_iff o hplain).symm

end Project

end StreamedUi
