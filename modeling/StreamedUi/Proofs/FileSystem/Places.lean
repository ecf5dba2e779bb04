import StreamedUi.FileSystem
import StreamedUi.Proofs.Text.Search

/-! Where paths lead. A path that leads to a place still does so after directories have been made or
files written (`KeepsDirectories.locate`). Below one directory, different names that only go down
lead to different places (`Path.apart_inside`), however the directory itself is reached. -/

namespace StreamedUi

namespace FileSystem

variable {fs fs' : FileSystem} {l l' : Location} {part : Part} {p : Path}

/-! ## Entries -/

/-- The content of the file at a place. -/
def fileAt? (fs : FileSystem) (l : Location) : Option ByteArray :=
  match fs.entryAt? l with
  | some (.file content) => some content
  | _ => none

theorem lookup_setEntry (entries : List (Location × Entry)) (l l' : Location) (e : Entry) :
    (setEntry entries l e).lookup l' = if l' = l then some e else entries.lookup l' := by
  induction entries with
  | nil =>
    by_cases h : l' = l
    · simp [setEntry, h]
    · simp [setEntry, List.lookup_cons, beq_false_of_ne h, h]
  | cons entry rest ih =>
    obtain ⟨k, d⟩ := entry
    rw [setEntry]
    by_cases hk : k = l
    · subst hk
      by_cases h : l' = k
      · simp [h]
      · simp [List.lookup_cons, beq_false_of_ne h, h]
    · by_cases h : l' = k
      · simp [h, hk]
      · simp [List.lookup_cons, beq_false_of_ne h, hk, ih]

theorem entryAt?_set (h : l ≠ []) (e : Entry) (l' : Location) :
    (fs.set l e).entryAt? l' = if l' = l then some e else fs.entryAt? l' := by
  unfold entryAt? set
  rw [lookup_setEntry]
  by_cases hl : l' = []
  · subst hl
    simp [Ne.symm h]
  · simp [hl]

theorem ne_nil_of_entryAt?_ne (h : fs.entryAt? l ≠ some .directory) : l ≠ [] := by
  rintro rfl
  exact h rfl

/-! ## Steps -/

/-- A part leads on only from a directory. -/
theorem directory_of_step_eq_ok (h : fs.step l part = .ok l') :
    fs.entryAt? l = some .directory := by
  unfold step at h
  cases hentry : fs.entryAt? l with
  | none =>
    rw [hentry] at h
    cases h
  | some entry =>
    cases entry with
    | file =>
      rw [hentry] at h
      cases h
    | directory => rfl

theorem eq_append_of_step_eq_ok (hhere : part.name ≠ Part.here) (hup : part.name ≠ Part.up)
    (h : fs.step l part = .ok l') : l' = l ++ [part.name] := by
  have hdirectory := directory_of_step_eq_ok h
  rw [step, hdirectory] at h
  simp only [if_neg hhere, if_neg hup] at h
  by_cases hsize : 255 < part.name.utf8ByteSize
  · rw [if_pos hsize] at h
    cases h
  · rw [if_neg hsize] at h
    cases h
    rfl

theorem eq_append_of_foldlM_step_eq_ok {parts : List Part}
    (hparts : ∀ part ∈ parts, part.name ≠ Part.here ∧ part.name ≠ Part.up)
    (h : parts.foldlM fs.step l = .ok l') : l' = l ++ parts.map Part.name := by
  induction parts generalizing l with
  | nil =>
    cases h
    exact (List.append_nil l').symm
  | cons part parts ih =>
    obtain ⟨⟨hhere, hup⟩, hparts⟩ := List.forall_mem_cons.1 hparts
    rw [List.foldlM_cons] at h
    cases hstep : fs.step l part with
    | error =>
      rw [hstep] at h
      cases h
    | ok m =>
      rw [hstep] at h
      rw [ih hparts h, eq_append_of_step_eq_ok hhere hup hstep, List.append_assoc]
      rfl

/-! ## Places are kept -/

/-- Relative paths start where they did, and no directory has gone. -/
structure KeepsDirectories (fs fs' : FileSystem) : Prop where
  working : fs'.working = fs.working
  directory : ∀ l, fs.entryAt? l = some .directory → fs'.entryAt? l = some .directory

namespace KeepsDirectories

theorem refl (fs : FileSystem) : KeepsDirectories fs fs := ⟨rfl, fun _ => id⟩

theorem trans {fs'' : FileSystem} (h : KeepsDirectories fs fs') (h' : KeepsDirectories fs' fs'') :
    KeepsDirectories fs fs'' :=
  ⟨h'.working.trans h.working, fun l hl => h'.directory l (h.directory l hl)⟩

theorem step (h : KeepsDirectories fs fs') (hstep : fs.step l part = .ok l') :
    fs'.step l part = .ok l' := by
  have hl := directory_of_step_eq_ok hstep
  rw [FileSystem.step, hl] at hstep
  rw [FileSystem.step, h.directory l hl]
  exact hstep

theorem foldlM_step (h : KeepsDirectories fs fs') {parts : List Part}
    (hparts : parts.foldlM fs.step l = .ok l') : parts.foldlM fs'.step l = .ok l' := by
  induction parts generalizing l with
  | nil => exact hparts
  | cons part parts ih =>
    rw [List.foldlM_cons] at hparts ⊢
    cases hstep : fs.step l part with
    | error =>
      rw [hstep] at hparts
      cases hparts
    | ok m =>
      rw [hstep] at hparts
      rw [h.step hstep]
      exact ih hparts

theorem locate (h : KeepsDirectories fs fs') (hlocate : fs.locate p = .ok l) :
    fs'.locate p = .ok l := by
  rw [FileSystem.locate] at hlocate ⊢
  by_cases hempty : (p.parts.isEmpty && !p.absolute) = true
  · rw [if_pos hempty] at hlocate
    cases hlocate
  by_cases hsize : 4096 ≤ p.size
  · rw [if_neg hempty, if_pos hsize] at hlocate
    cases hlocate
  rw [if_neg hempty, if_neg hsize] at hlocate ⊢
  rw [h.working]
  exact h.foldlM_step hlocate

end KeepsDirectories

theorem foldlM_of_locate_eq_ok (h : fs.locate p = .ok l) :
    p.parts.foldlM fs.step (if p.absolute then [] else fs.working) = .ok l := by
  rw [locate] at h
  by_cases hempty : (p.parts.isEmpty && !p.absolute) = true
  · rw [if_pos hempty] at h
    cases h
  by_cases hsize : 4096 ≤ p.size
  · rw [if_neg hempty, if_pos hsize] at h
    cases h
  rwa [if_neg hempty, if_neg hsize] at h

end FileSystem

/-! ## Paths in a directory -/

namespace Path
open FileSystem

/-- The paths lead to one place in no file system. -/
def Apart (p q : Path) : Prop := ∀ fs : FileSystem, ∀ l, fs.locate p = .ok l → fs.locate q ≠ .ok l

/-- A name that goes down with each of its parts. -/
def IsDescending (name : String) : Prop :=
  ∀ segment ∈ Text.splitOn '/' name.toList,
    segment ≠ [] ∧ segment ≠ Part.here.toList ∧ segment ≠ Part.up.toList

instance (name : String) : Decidable (IsDescending name) := by
  unfold IsDescending
  infer_instance

theorem ofSegments_append (n : Nat) (front : List (List Char)) :
    ∃ m, ∀ back, Part.ofSegments n (front ++ back) =
      Part.ofSegments n front ++ Part.ofSegments m back := by
  induction front generalizing n with
  | nil => exact ⟨n, fun back => rfl⟩
  | cons segment front ih =>
    obtain ⟨m, hm⟩ := ih (n + (String.ofList segment).utf8ByteSize + 1)
    refine ⟨m, fun back => ?_⟩
    simp only [List.cons_append, Part.ofSegments, hm]
    split <;> rfl

theorem map_name_ofSegments {segments : List (List Char)} (h : ∀ segment ∈ segments, segment ≠ [])
    (n : Nat) : (Part.ofSegments n segments).map Part.name = segments.map String.ofList := by
  induction segments generalizing n with
  | nil => rfl
  | cons segment segments ih =>
    obtain ⟨hsegment, hsegments⟩ := List.forall_mem_cons.1 h
    rw [Part.ofSegments, if_neg (mt List.isEmpty_iff.1 hsegment), List.map_cons, List.map_cons,
      ih hsegments]

namespace IsDescending

variable {name : String}

theorem ne_nil (h : IsDescending name) : name.toList ≠ [] := by
  intro hnil
  rw [IsDescending, hnil] at h
  exact (h [] (List.mem_singleton_self _)).1 rfl

theorem head?_ne (h : IsDescending name) : name.toList.head? ≠ some '/' := by
  intro hhead
  obtain ⟨back, hback⟩ := List.head?_eq_some_iff.1 hhead
  rw [IsDescending, hback, Text.splitOn_cons_self] at h
  exact (h [] List.mem_cons_self).1 rfl

theorem getLast?_ne (h : IsDescending name) : name.toList.getLast? ≠ some '/' := by
  intro hlast
  obtain ⟨front, hfront⟩ := List.getLast?_eq_some_iff.1 hlast
  rw [IsDescending, hfront, Text.splitOn_append_cons] at h
  exact (h [] (List.mem_append_right _ (List.mem_singleton_self _))).1 rfl

theorem parts_ofString (h : IsDescending name) {s : String} {front : List Char}
    (hs : s.toList = front ++ name.toList) :
    (ofString s).parts = Part.ofSegments 0 (Text.splitOn '/' (front ++ name.toList)) := by
  have hlast : (front ++ name.toList).getLast? ≠ some '/' := by
    rw [List.getLast?_append_of_ne_nil _ h.ne_nil]
    exact h.getLast?_ne
  simp only [ofString, hs, decide_eq_false hlast, Bool.false_and]
  rfl

end IsDescending

/-- The parts of the path of a name are those of the directory and those of the name. -/
theorem exists_parts_inside (directory : String) :
    ∃ absolute before n, ∀ name, IsDescending name →
      (inside directory name).absolute = absolute ∧
      (inside directory name).parts =
        before ++ Part.ofSegments n (Text.splitOn '/' name.toList) := by
  -- Either the name is the whole path, or a slash stands before it.
  have hslash (front : List Char) : ∃ absolute before n, ∀ name s, IsDescending name →
      s.toList = front ++ '/' :: name.toList → (ofString s).absolute = absolute ∧
        (ofString s).parts = before ++ Part.ofSegments n (Text.splitOn '/' name.toList) := by
    obtain ⟨n, hn⟩ := ofSegments_append 0 (Text.splitOn '/' front)
    refine ⟨decide ((front ++ ['/']).head? = some '/'),
      Part.ofSegments 0 (Text.splitOn '/' front), n, ?_⟩
    intro name s hname hs
    constructor
    · cases front <;> simp [ofString, hs]
    · rw [List.append_cons] at hs
      rw [hname.parts_ofString hs, ← List.append_cons, Text.splitOn_append_cons, hn]
  rcases List.eq_nil_or_concat directory.toList with hnil | ⟨front, c, hconcat⟩
  · refine ⟨false, [], 0, ?_⟩
    intro name hname
    have hs : (directory ++ name).toList = [] ++ name.toList := by
      rw [String.toList_append, hnil]
    rw [inside, if_pos (by rw [hnil]; rfl)]
    refine ⟨decide_eq_false ?_, hname.parts_ofString hs⟩
    rw [hs]
    exact hname.head?_ne
  · by_cases hc : c = '/'
    · obtain ⟨absolute, before, n, h⟩ := hslash front
      refine ⟨absolute, before, n, ?_⟩
      intro name hname
      rw [inside, if_pos (by simp [hconcat, hc])]
      exact h name _ hname (by simp [hconcat, hc])
    · obtain ⟨absolute, before, n, h⟩ := hslash directory.toList
      refine ⟨absolute, before, n, ?_⟩
      intro name hname
      rw [inside, if_neg (by simp [hconcat, hc])]
      exact h name _ hname (by simp)

theorem name_ne_of_mem_ofSegments {name : String} (h : IsDescending name) {n : Nat} {part : Part}
    (hpart : part ∈ Part.ofSegments n (Text.splitOn '/' name.toList)) :
    part.name ≠ Part.here ∧ part.name ≠ Part.up := by
  have hname := List.mem_map_of_mem (f := Part.name) hpart
  rw [map_name_ofSegments (fun segment hs => (h segment hs).1)] at hname
  obtain ⟨segment, hsegment, hsame⟩ := List.mem_map.1 hname
  obtain ⟨-, hhere, hup⟩ := h segment hsegment
  rw [← hsame]
  constructor
  · intro heq
    exact hhere (by rw [← heq, String.toList_ofList])
  · intro heq
    exact hup (by rw [← heq, String.toList_ofList])

/-- Different names in a directory lead to different places, if they only go down. -/
theorem apart_inside {directory a b : String} (ha : IsDescending a) (hb : IsDescending b)
    (hne : a ≠ b) : Apart (inside directory a) (inside directory b) := by
  obtain ⟨absolute, before, n, hparts⟩ := exists_parts_inside directory
  -- What the parts before the name lead to is the same for all names.
  have hplace {fs : FileSystem} {l : Location} {name : String} (hname : IsDescending name)
      (h : fs.locate (inside directory name) = .ok l) :
      ∃ base, before.foldlM fs.step (if absolute then [] else fs.working) = .ok base ∧
        l = base ++ (Text.splitOn '/' name.toList).map String.ofList := by
    have h := foldlM_of_locate_eq_ok h
    rw [(hparts name hname).1, (hparts name hname).2, List.foldlM_append] at h
    cases hbase : before.foldlM fs.step (if absolute then [] else fs.working) with
    | error =>
      rw [hbase] at h
      cases h
    | ok base =>
      rw [hbase] at h
      refine ⟨base, rfl, ?_⟩
      rw [eq_append_of_foldlM_step_eq_ok (fun part => name_ne_of_mem_ofSegments hname) h,
        map_name_ofSegments fun segment hs => (hname segment hs).1]
  intro fs l hla hlb
  obtain ⟨base, hbase, rfl⟩ := hplace ha hla
  obtain ⟨base', hbase', heq⟩ := hplace hb hlb
  cases hbase.symm.trans hbase'
  have hsegments := List.map_injective_iff.2 (fun _ _ => String.ofList_injective)
    (List.append_cancel_left heq)
  exact hne (String.toList_inj.1 (Text.splitOn_injective '/' hsegments))

end Path

end StreamedUi
