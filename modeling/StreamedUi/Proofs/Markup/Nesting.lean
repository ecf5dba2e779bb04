import Mathlib.Data.List.TakeWhile
import StreamedUi.Markup.Page
import StreamedUi.Proofs.Markup.Form
import StreamedUi.Proofs.Walk.Recursive

/-! The lines of the markup by recursion over the tree, and how they nest. The printer never sees
an element end: it closes tags when a visit is no deeper than they are. What it prints is what the
recursion gives (`bodyLines_eq`), since the visits below an element print its inner lines and leave
the tags around them open (`Prints`). The text of a line is made of its element's kind and of the
forms of its properties, not of what the printer calls. -/

namespace StreamedUi.Markup

/-! ## Lines -/

/-- A line of markup: a tag of an element at some depth. -/
inductive Line
  | selfClosing (depth : Nat) (e : Element)
  | opening (depth : Nat) (e : Element)
  | closing (depth : Nat) (kind : String)

namespace Line

/-- How deep the element of a line stands. -/
def depth : Line → Nat
  | .selfClosing depth _ | .opening depth _ | .closing depth _ => depth

/-- The attributes of an element, behind a space unless that is no text at all. -/
def attributeText (o : Options) (e : Element) : String :=
  match [' '].intercalate ((forms e.props).map (Form.attributeText o.quotes)) with
  | [] => ""
  | c :: cs => " " ++ String.ofList (c :: cs)

/-- The tag itself. -/
def tagText (o : Options) : Line → String
  | .selfClosing _ e => "<" ++ e.kind ++ attributeText o e ++ " />"
  | .opening _ e => "<" ++ e.kind ++ attributeText o e ++ ">"
  | .closing _ kind => "</" ++ kind ++ ">"

/-- The tag after its padding; the root stands three levels deep. -/
def text (o : Options) (l : Line) : String :=
  String.ofList (List.replicate (o.indent * (l.depth + 3)) ' ') ++ l.tagText o

/-- The tag after the spaces that a machine word counts. -/
def printed (o : Options) (l : Line) : String := padding o l.depth ++ l.tagText o

/-- A string holds less than `2 ^ 63` bytes, and for so many spaces a word does not overflow. -/
theorem printed_eq_text {o : Options} {l : Line} (h : o.indent * (l.depth + 3) < Nat.pow 2 63) :
    l.printed o = l.text o := by
  have hword : o.indent * (l.depth + 3) < Nat.pow 2 64 := h.trans (by decide)
  rw [printed, text, padding, baseDepth]
  congr 3
  exact Nat.mod_eq_of_lt hword

end Line

theorem tag_eq (o : Options) (e : Element) : tag o e = e.kind ++ Line.attributeText o e := by
  rw [tag, attributes_eq, Line.attributeText]
  cases [' '].intercalate ((forms e.props).map (Form.attributeText o.quotes)) with
  | nil => rfl
  | cons c cs =>
    show e.kind ++ String.ofList ([' '] ++ c :: cs) = e.kind ++ (" " ++ String.ofList (c :: cs))
    rw [String.ofList_append]

/-- Self-closing tags of elements without child entries, and pairs of tags of one kind around lines
that are a level deeper. -/
inductive Nested : Nat → List Line → Prop
  | nil {depth} : Nested depth []
  | selfClosing {depth e rest} : e.childKeys = [] → Nested depth rest →
    Nested depth (.selfClosing depth e :: rest)
  | pair {depth e inner rest} : e.childKeys ≠ [] → Nested (depth + 1) inner → Nested depth rest →
    Nested depth (.opening depth e :: (inner ++ .closing depth e.kind :: rest))

theorem Nested.append {depth : Nat} {ls ls' : List Line} (h : Nested depth ls)
    (h' : Nested depth ls') : Nested depth (ls ++ ls') := by
  induction h with
  | nil => exact h'
  | selfClosing he _ ih => exact .selfClosing he (ih h')
  | pair he hinner _ _ ih =>
    rw [List.cons_append, List.append_assoc, List.cons_append]
    exact .pair he hinner (ih h')

/-- The lines of an element that has `inner` between its tags. -/
def surround (depth : Nat) (e : Element) (inner : List Line) : List Line :=
  if e.hasChildren then .opening depth e :: (inner ++ [.closing depth e.kind])
  else [.selfClosing depth e]

theorem hasChildren_eq_true_iff {e : Element} : e.hasChildren = true ↔ e.childKeys ≠ [] := by
  simp [Element.hasChildren]

theorem not_hasChildren_iff {e : Element} : ¬e.hasChildren = true ↔ e.childKeys = [] := by
  simp [Element.hasChildren]

theorem Nested.surround {depth : Nat} {e : Element} {inner : List Line}
    (h : Nested (depth + 1) inner) : Nested depth (surround depth e inner) := by
  unfold Markup.surround
  split
  · next he => exact .pair (hasChildren_eq_true_iff.1 he) h .nil
  · next he => exact .selfClosing (not_hasChildren_iff.1 he) .nil

/-! ## The lines of a tree -/

/-- The lines of child entries. The path to the element that has them is its key and then `above`,
innermost first; entries that are missing or on the path are left out. -/
def entryLines (t : Tree) (above : List String) (key : String) : List String → List Line
  | [] => []
  | child :: rest =>
    if _ : child ∈ key :: above then entryLines t above key rest
    else
      match _ : t.get? child with
      | none => entryLines t above key rest
      | some c =>
        surround (above.length + 1) c (entryLines t (key :: above) child c.childKeys) ++
          entryLines t above key rest
termination_by entries => (Walk.State.room t (key :: above), entries.length)
decreasing_by
  · exact Prod.Lex.right _ (Nat.lt_succ_self _)
  · exact Prod.Lex.right _ (Nat.lt_succ_self _)
  · exact Prod.Lex.left _ _ (Walk.State.room_cons_lt ‹_› ‹_›)
  · exact Prod.Lex.right _ (Nat.lt_succ_self _)

/-- The lines of the root element, if it is there. -/
def treeLines (t : Tree) : List Line :=
  match t.root with
  | none => []
  | some root =>
    match t.get? root with
    | none => []
    | some e => surround 0 e (entryLines t [] root e.childKeys)

section EntryLines

variable {t : Tree} {above : List String} {key child : String} {c : Element} {rest : List String}

theorem entryLines_cut (h : child ∈ key :: above) :
    entryLines t above key (child :: rest) = entryLines t above key rest := by
  rw [entryLines, dif_pos h]

theorem entryLines_skip (h : child ∉ key :: above) (hget : t.get? child = none) :
    entryLines t above key (child :: rest) = entryLines t above key rest := by
  rw [entryLines, dif_neg h]
  split
  · rfl
  · next hsome => simp [hget] at hsome

theorem entryLines_enter (h : child ∉ key :: above) (hget : t.get? child = some c) :
    entryLines t above key (child :: rest) =
      surround (above.length + 1) c (entryLines t (key :: above) child c.childKeys) ++
        entryLines t above key rest := by
  rw [entryLines, dif_neg h]
  split
  · next hnone => simp [hget] at hnone
  · next c' hsome =>
    obtain rfl : c' = c := Option.some.inj (hsome.symm.trans hget)
    rfl

end EntryLines

theorem nested_entryLines (t : Tree) (above : List String) (key : String)
    (entries : List String) : Nested (above.length + 1) (entryLines t above key entries) := by
  fun_induction entryLines t above key entries with
  | case1 => exact .nil
  | case2 _ _ _ _ _ ih => exact ih
  | case3 _ _ _ _ _ _ ih => exact ih
  | case4 _ _ _ _ _ _ _ ihc ih => exact (Nested.surround ihc).append ih

theorem nested_treeLines (t : Tree) : Nested 0 (treeLines t) := by
  unfold treeLines
  split
  · exact .nil
  · split
    · exact .nil
    · exact .surround (nested_entryLines t [] _ _)

/-! ## What the printer does -/

namespace Printer

/-- Closes the tags that are no less deep than `depth`. -/
def closeTo (o : Options) (depth : Nat) (p : Printer) : Printer :=
  ⟨p.openTags.dropWhile (depth ≤ ·.depth), p.close o (p.openTags.takeWhile (depth ≤ ·.depth))⟩

/-- Adds lines and leaves the open tags as they are. -/
def print (o : Options) (lines : List Line) (p : Printer) : Printer :=
  ⟨p.openTags, (lines.map (Line.printed o)).reverse ++ p.lines⟩

/-- Opens a tag without printing it. -/
def openTag (depth : Nat) (kind : String) (p : Printer) : Printer :=
  { p with openTags := ⟨depth, kind⟩ :: p.openTags }

variable {o : Options} {p : Printer} {depth : Nat} {lines : List Line} {kind : String}

theorem print_print (lines' : List Line) :
    (p.print o lines).print o lines' = p.print o (lines ++ lines') := by
  simp [print]

/-- A deeper tag is closed first. -/
theorem closeTo_openTag_of_le {depth' : Nat} (h : depth ≤ depth') :
    (p.openTag depth' kind).closeTo o depth =
      (p.print o [.closing depth' kind]).closeTo o depth := by
  simp [closeTo, openTag, print, close, h, OpenTag.closingLine, Line.printed, Line.tagText,
    Line.depth, String.append_assoc]

theorem closeTo_openTag_of_lt {depth' : Nat} (h : depth' < depth) :
    (p.openTag depth' kind).closeTo o depth = p.openTag depth' kind := by
  have : ¬depth ≤ depth' := Nat.not_le.2 h
  simp [closeTo, openTag, close, this]

/-- Closing less deep tags closes the deeper ones on the way. -/
theorem closeTo_closeTo {depth' : Nat} (h : depth ≤ depth') (p : Printer) :
    (p.closeTo o depth').closeTo o depth = p.closeTo o depth := by
  obtain ⟨tags, lines⟩ := p
  induction tags generalizing lines with
  | nil => rfl
  | cons tag tags ih =>
    by_cases htag : depth' ≤ tag.depth
    · have htag' : depth ≤ tag.depth := Nat.le_trans h htag
      have := ih (tag.closingLine o :: lines)
      simpa [closeTo, close, htag, htag'] using this
    · simp [closeTo, close, htag]

theorem takeWhile_openTags_closeTo (p : Printer) :
    (p.closeTo o depth).openTags.takeWhile (depth ≤ ·.depth) = [] := by
  rw [closeTo]
  have := List.head?_dropWhile_not (fun tag : OpenTag => decide (depth ≤ tag.depth)) p.openTags
  cases htags : p.openTags.dropWhile (depth ≤ ·.depth) with
  | nil => rfl
  | cons tag tags =>
    rw [htags] at this
    rw [List.takeWhile_cons_of_neg]
    simpa using this

/-- Printing more lines does not open a tag again. -/
theorem closeTo_print_closeTo (p : Printer) :
    ((p.closeTo o depth).print o lines).closeTo o depth = (p.closeTo o depth).print o lines := by
  have hkept := List.takeWhile_append_dropWhile (p := fun tag : OpenTag => depth ≤ tag.depth)
    (l := (p.closeTo o depth).openTags)
  rw [takeWhile_openTags_closeTo, List.nil_append] at hkept
  rw [closeTo, print, takeWhile_openTags_closeTo, hkept]
  rfl

theorem visit_eq (o : Options) (p : Printer) (v : Visit) :
    p.visit o v =
      if v.element.hasChildren then
        ((p.closeTo o v.depth).print o [.opening v.depth v.element]).openTag v.depth v.element.kind
      else (p.closeTo o v.depth).print o [.selfClosing v.depth v.element] := by
  simp only [visit, closeTo, print, openTag, List.map_singleton, List.reverse_singleton,
    List.singleton_append, Line.printed, Line.tagText, Line.depth, openingLine, selfClosingLine,
    tag_eq, String.append_assoc]

theorem finish_eq (p : Printer) : p.finish o = (p.closeTo o 0).lines.reverse := by
  have hall : p.openTags.takeWhile (0 ≤ ·.depth) = p.openTags :=
    List.takeWhile_eq_self_iff.2 fun _ _ => decide_eq_true (Nat.zero_le _)
  rw [finish, closeTo, hall]

end Printer

/-- From any printer on the visits print the lines, once tags are closed down to `depth`. -/
def Prints (o : Options) (depth : Nat) (visits : List Visit) (lines : List Line) : Prop :=
  ∀ p : Printer,
    (visits.foldl (Printer.visit o) p).closeTo o depth = (p.closeTo o depth).print o lines

namespace Prints

variable {o : Options} {depth : Nat} {visits visits' : List Visit} {lines lines' : List Line}

theorem nil : Prints o depth [] [] := fun _ => rfl

theorem append (h : Prints o depth visits lines) (h' : Prints o depth visits' lines') :
    Prints o depth (visits ++ visits') (lines ++ lines') := fun p => by
  rw [List.foldl_append, h', h, Printer.print_print]

/-- An element and what is below it. Its tag stays open until what is below it has been printed. -/
theorem surround {e : Element} {parent : Option Element}
    (h : Prints o (depth + 1) visits lines) (hleaf : e.childKeys = [] → visits = []) :
    Prints o depth (⟨e, depth, parent⟩ :: visits) (surround depth e lines) := by
  have hpair (q : Printer) :
      (visits.foldl (Printer.visit o) (q.openTag depth e.kind)).closeTo o depth =
        (q.print o (lines ++ [.closing depth e.kind])).closeTo o depth := calc
    _ = ((visits.foldl (Printer.visit o) (q.openTag depth e.kind)).closeTo o
          (depth + 1)).closeTo o depth := (Printer.closeTo_closeTo (Nat.le_succ depth) _).symm
    _ = ((q.print o lines).openTag depth e.kind).closeTo o depth := by
      rw [h, Printer.closeTo_openTag_of_lt (Nat.lt_succ_self depth)]
      rfl
    _ = _ := by rw [Printer.closeTo_openTag_of_le (Nat.le_refl depth), Printer.print_print]
  intro p
  rw [List.foldl_cons, Printer.visit_eq, Markup.surround]
  dsimp only
  split
  · rw [hpair, Printer.print_print, Printer.closeTo_print_closeTo]
    rfl
  · next he =>
    rw [hleaf (not_hasChildren_iff.1 he), List.foldl_nil,
      Printer.closeTo_print_closeTo]

end Prints

/-! ## The whole walk -/

theorem prints_follow (o : Options) (t : Tree) (above : List String) (key : String) (e : Element)
    (entries : List String) :
    Prints o (above.length + 1) (Walk.follow t above key e entries).visits
      (entryLines t above key entries) := by
  fun_induction Walk.follow t above key e entries with
  | case1 => rw [entryLines]; exact .nil
  | case2 above key e child rest hpath ih => rw [entryLines_cut hpath]; exact ih
  | case3 above key e child rest hpath hnone ih => rw [entryLines_skip hpath hnone]; exact ih
  | case4 above key e child rest hpath c hc ihc ih =>
    rw [entryLines_enter hpath hc]
    exact .append (.surround ihc fun hleaf => by rw [hleaf, Walk.follow_nil]; rfl) ih

theorem length_surround {depth : Nat} {e : Element} {inner : List Line}
    (hleaf : e.childKeys = [] → inner = []) :
    (surround depth e inner).length = inner.length + if e.hasChildren then 2 else 1 := by
  unfold surround
  split
  · simp
  · next he => rw [hleaf (not_hasChildren_iff.1 he)]; rfl

/-- One line for each visit, and another for each one with child entries. -/
theorem length_entryLines (t : Tree) (above : List String) (key : String) (e : Element)
    (entries : List String) :
    (entryLines t above key entries).length =
      (Walk.follow t above key e entries).visits.length +
        (Walk.follow t above key e entries).visits.countP (·.element.hasChildren) := by
  fun_induction Walk.follow t above key e entries with
  | case1 => rw [entryLines]; rfl
  | case2 above key e child rest hpath ih => rw [entryLines_cut hpath]; exact ih
  | case3 above key e child rest hpath hnone ih => rw [entryLines_skip hpath hnone]; exact ih
  | case4 above key e child rest hpath c hc ihc ih =>
    have hleaf : c.childKeys = [] → entryLines t (key :: above) child c.childKeys = [] :=
      fun h => by rw [h, entryLines]
    rw [entryLines_enter hpath hc, List.length_append, length_surround hleaf, ihc, ih]
    simp only [Walk.append_def, List.cons_append, List.nil_append, List.length_cons,
      List.length_append, List.countP_cons, List.countP_append]
    split <;> omega

theorem treeLines_eq_nil {t : Tree} (h : t.walkStart? none = none) : treeLines t = [] := by
  unfold treeLines
  split
  · rfl
  · next root hroot =>
    split
    · rfl
    · next e he => simp [Tree.walkStart?, hroot, he] at h

/-- The visits of the walk print the lines of the tree, of which there are as many as there
should be. -/
theorem prints_walk (o : Options) (t : Tree) :
    Prints o 0 (t.walk none).visits (treeLines t) ∧
      (treeLines t).length =
        (t.walk none).visits.length + (t.walk none).visits.countP (·.element.hasChildren) := by
  cases hstart : t.walkStart? none with
  | none =>
    rw [treeLines_eq_nil hstart, Tree.walk_eq_none hstart]
    exact ⟨.nil, rfl⟩
  | some key =>
    obtain ⟨root, e, hroot, rfl, he⟩ := Tree.walkStart?_eq_some hstart
    obtain ⟨e', he', hwalk⟩ := Tree.walk_eq_descend hstart
    obtain rfl : e' = e := Option.some.inj (he'.symm.trans he)
    have hlines : treeLines t = surround 0 e' (entryLines t [] root e'.childKeys) := by
      simp only [treeLines, hroot]
      simp only [Option.getD_none] at he
      simp only [he]
    have hcount := length_entryLines t [] root e' e'.childKeys
    rw [hlines, hwalk, Walk.descend]
    refine ⟨(prints_follow o t [] root e' e'.childKeys).surround fun hleaf => ?_, ?_⟩
    · rw [hleaf, Walk.follow_nil]
      rfl
    · rw [length_surround fun hleaf => by rw [hleaf, entryLines], hcount]
      simp only [Walk.append_def, List.cons_append, List.nil_append, List.length_cons,
        List.countP_cons, Option.getD_none]
      split <;> omega

theorem bodyLines_eq (o : Options) (t : Tree) :
    bodyLines o t = (treeLines t).map (Line.printed o) := by
  rw [bodyLines, Printer.finish_eq, (prints_walk o t).1]
  simp [Printer.print, Printer.closeTo, Printer.close]

end StreamedUi.Markup
