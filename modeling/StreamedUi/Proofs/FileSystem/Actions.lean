import StreamedUi.Proofs.FileSystem.Places

/-! What operations leave behind. An operation that makes directories changes no file, whether it
succeeds or fails (`grows_ensureDirectories`). Writing a file changes that file alone, and nothing
at all if it fails (`run_write`). Files that are written one after another to different places are
all there in the end (`Written.append`). -/

namespace StreamedUi.FileSystem

variable {ε σ α β : Type} {fs fs' fs'' : FileSystem} {l : Location} {p : Path}

/-! ## Directories made -/

/-- At most, directories have been made where nothing was. -/
structure Grown (fs fs' : FileSystem) : Prop extends KeepsDirectories fs fs' where
  file : ∀ l, fs'.fileAt? l = fs.fileAt? l

namespace Grown

theorem refl (fs : FileSystem) : Grown fs fs := ⟨.refl fs, fun _ => rfl⟩

theorem trans (h : Grown fs fs') (h' : Grown fs' fs'') : Grown fs fs'' :=
  ⟨h.toKeepsDirectories.trans h'.toKeepsDirectories, fun l => (h'.file l).trans (h.file l)⟩

theorem set_directory (h : fs.entryAt? l = none) : Grown fs (fs.set l .directory) := by
  have hne : l ≠ [] := ne_nil_of_entryAt?_ne (by rw [h]; nofun)
  refine ⟨⟨rfl, ?_⟩, ?_⟩
  · intro m hm
    rw [entryAt?_set hne]
    split
    · rfl
    · exact hm
  · intro m
    unfold fileAt?
    rw [entryAt?_set hne]
    by_cases hm : m = l
    · rw [if_pos hm, hm, h]
    · rw [if_neg hm]

end Grown

/-! ## Runs -/

theorem run_bind (x : ExceptT ε (StateM σ) α) (f : α → ExceptT ε (StateM σ) β) (s : σ) :
    (x >>= f).run s = match x.run s with
      | (.ok a, s') => (f a).run s'
      | (.error e, s') => (.error e, s') := by
  show (match x.run s with | (a, s') => ExceptT.bindCont f a s') = _
  rcases x.run s with ⟨_ | _, _⟩ <;> rfl

theorem run_tryCatch (x : ExceptT ε (StateM σ) α) (handle : ε → ExceptT ε (StateM σ) α) (s : σ) :
    (tryCatch x handle).run s = match x.run s with
      | (.ok a, s') => (.ok a, s')
      | (.error e, s') => (handle e).run s' := by
  show (match x.run s with
    | (a, s') => (match a with
      | .ok a => (pure (.ok a) : StateM σ (Except ε α))
      | .error e => (handle e).run) s') = _
  rcases x.run s with ⟨_ | _, _⟩ <;> rfl

/-- The action makes directories at most, whether it succeeds or fails. -/
def Grows (x : Action α) : Prop := ∀ fs : FileSystem, Grown fs (x.run fs).2

namespace Grows

theorem pure (a : α) : Grows (Pure.pure a) := fun fs => .refl fs

theorem throw (cause : Cause) : Grows (MonadExcept.throw cause : Action α) := fun fs => .refl fs

theorem get : Grows (MonadState.get : Action FileSystem) := fun fs => .refl fs

theorem bind {x : Action α} {f : α → Action β} (hx : Grows x) (hf : ∀ a, Grows (f a)) :
    Grows (x >>= f) := by
  intro fs
  have h := hx fs
  rw [run_bind]
  rcases hrun : x.run fs with ⟨_ | a, fs'⟩
  · rw [hrun] at h
    exact h
  · rw [hrun] at h
    exact h.trans (hf a fs')

theorem tryCatch {x : Action α} {handle : Cause → Action α} (hx : Grows x)
    (hhandle : ∀ cause, Grows (handle cause)) : Grows (MonadExcept.tryCatch x handle) := by
  intro fs
  have h := hx fs
  rw [run_tryCatch]
  rcases hrun : x.run fs with ⟨cause | a, fs'⟩
  · rw [hrun] at h
    exact h.trans (hhandle cause fs')
  · rw [hrun] at h
    exact h

end Grows

/-! ## Operations -/

theorem run_get (fs : FileSystem) : (get : Action FileSystem).run fs = (.ok fs, fs) := rfl

theorem run_place (p : Path) (fs : FileSystem) : (place p).run fs = (fs.locate p, fs) := by
  rw [place, run_bind, run_get]
  dsimp only
  cases fs.locate p <;> rfl

theorem run_makeDirectory (h : fs.locate p = .ok l) :
    (makeDirectory p).run fs =
      if (fs.entryAt? l).isSome then (.error .exists, fs) else (.ok (), fs.set l .directory) := by
  rw [makeDirectory, run_bind, run_place, h]
  dsimp only
  rw [run_bind, run_get]
  dsimp only
  cases fs.entryAt? l <;> rfl

theorem grows_makeDirectory (p : Path) : Grows (makeDirectory p) := by
  intro fs
  cases hlocate : fs.locate p with
  | error =>
    rw [makeDirectory, run_bind, run_place, hlocate]
    exact .refl fs
  | ok l =>
    rw [run_makeDirectory hlocate]
    cases hentry : fs.entryAt? l with
    | some => exact .refl fs
    | none => exact .set_directory hentry

theorem grows_ensureDirectory (p : Path) : Grows (ensureDirectory p) := by
  apply Grows.tryCatch (grows_makeDirectory p)
  intro cause
  apply Grows.bind .get
  intro fs
  split
  · exact .pure ()
  · exact .throw cause

theorem grows_ensureParts (absolute : Bool) (parts : List Part) :
    Grows (ensureParts absolute parts) := by
  induction parts with
  | nil => exact .pure ()
  | cons part above ih =>
    apply Grows.tryCatch (grows_ensureDirectory _)
    intro cause
    split
    · exact .bind ih fun _ => grows_ensureDirectory _
    · exact .throw cause

theorem grows_ensureDirectories (p : Path) : Grows (ensureDirectories p) :=
  grows_ensureParts p.absolute p.parts.reverse

/-- Reading changes nothing. -/
theorem run_read_snd (p : Path) (fs : FileSystem) : ((read p).run fs).2 = fs := by
  rw [read, run_bind, run_place]
  cases fs.locate p with
  | error => rfl
  | ok l =>
    dsimp only
    rw [run_bind, run_get]
    dsimp only
    rcases fs.entryAt? l with _ | _ | _ <;> rfl

theorem run_write_of_error {cause : Cause} (h : fs.locate p = .error cause)
    (content : ByteArray) : (write p content).run fs = (.error cause, fs) := by
  rw [write, run_bind, run_place, h]

/-- A file is written where the path leads, if there is no directory. -/
theorem run_write (h : fs.locate p = .ok l) (content : ByteArray) :
    (write p content).run fs =
      if fs.entryAt? l = some .directory then (.error .isDirectory, fs)
      else (.ok (), fs.set l (.file content)) := by
  rw [write, run_bind, run_place, h]
  dsimp only
  rw [run_bind, run_get]
  dsimp only
  rcases fs.entryAt? l with _ | _ | _ <;> rfl

theorem run_ensureDirectories_of_nil (h : p.parts = []) (fs : FileSystem) :
    (ensureDirectories p).run fs = (.ok (), fs) := by
  rw [ensureDirectories, h]
  rfl

/-- Nothing can be made or written below a regular file. -/
theorem run_ensureDirectories_of_file {content : ByteArray}
    (hpath : .ofParts p.absolute p.parts = p) (hparts : p.parts ≠ [])
    (hlocate : fs.locate p = .ok l) (hentry : fs.entryAt? l = some (.file content)) :
    (ensureDirectories p).run fs = (.error .exists, fs) := by
  have hmake : (makeDirectory p).run fs = (.error .exists, fs) := by
    rw [run_makeDirectory hlocate, hentry]
    rfl
  have hnone : fs.isDirectory p = false := by
    rw [isDirectory, hlocate]
    show decide (fs.entryAt? l = some .directory) = false
    rw [hentry]
    rfl
  have hensure : (ensureDirectory p).run fs = (.error .exists, fs) := by
    rw [ensureDirectory, run_tryCatch, hmake]
    show (if fs.isDirectory p then pure () else throw Cause.exists : Action Unit).run fs = _
    rw [hnone]
    rfl
  cases hreverse : p.parts.reverse with
  | nil => exact absurd (List.reverse_eq_nil_iff.1 hreverse) hparts
  | cons part above =>
    rw [ensureDirectories, hreverse, ensureParts, run_tryCatch, ← hreverse, List.reverse_reverse,
      hpath, hensure]
    rfl

/-! ## Files written -/

/-- The files of these paths have been written and are all there; no other file has changed, and no
directory has gone. -/
structure Written (writes : List (Path × ByteArray)) (fs fs' : FileSystem) : Prop
    extends KeepsDirectories fs fs' where
  written : ∀ w ∈ writes, ∃ l, fs'.locate w.1 = .ok l ∧ fs'.fileAt? l = some w.2
  others : ∀ l, (∀ w ∈ writes, fs'.locate w.1 ≠ .ok l) → fs'.fileAt? l = fs.fileAt? l

theorem fileAt?_set (h : l ≠ []) (content : ByteArray) (m : Location) :
    (fs.set l (.file content)).fileAt? m = if m = l then some content else fs.fileAt? m := by
  unfold fileAt?
  rw [entryAt?_set h]
  by_cases hm : m = l
  · rw [if_pos hm, if_pos hm]
  · rw [if_neg hm, if_neg hm]

namespace Written

theorem of_grown (h : Grown fs fs') : Written [] fs fs' :=
  ⟨h.toKeepsDirectories, fun _ hw => absurd hw List.not_mem_nil, fun l _ => h.file l⟩

theorem of_set {content : ByteArray} (hlocate : fs.locate p = .ok l)
    (hentry : fs.entryAt? l ≠ some .directory) :
    Written [(p, content)] fs (fs.set l (.file content)) := by
  have hne : l ≠ [] := ne_nil_of_entryAt?_ne hentry
  have hkeeps : KeepsDirectories fs (fs.set l (.file content)) := by
    refine ⟨rfl, ?_⟩
    intro m hm
    rw [entryAt?_set hne, if_neg]
    · exact hm
    · rintro rfl
      exact hentry hm
  refine ⟨hkeeps, ?_, ?_⟩
  · intro w hw
    obtain rfl := List.mem_singleton.1 hw
    exact ⟨l, hkeeps.locate hlocate, (fileAt?_set hne content l).trans (if_pos rfl)⟩
  · intro m hm
    have hml : m ≠ l := by
      rintro rfl
      exact hm _ (List.mem_singleton_self _) (hkeeps.locate hlocate)
    rw [fileAt?_set hne, if_neg hml]

/-- Files that are written later do not touch those written before, if they are at other places. -/
theorem append {as bs : List (Path × ByteArray)} (ha : Written as fs fs')
    (hb : Written bs fs' fs'') (hapart : ∀ a ∈ as, ∀ b ∈ bs, a.1.Apart b.1) :
    Written (as ++ bs) fs fs'' := by
  refine ⟨ha.toKeepsDirectories.trans hb.toKeepsDirectories, ?_, ?_⟩
  · intro w hw
    rcases List.mem_append.1 hw with hw | hw
    · obtain ⟨l, hlocate, hfile⟩ := ha.written w hw
      have hlocate := hb.toKeepsDirectories.locate hlocate
      refine ⟨l, hlocate, ?_⟩
      rw [hb.others l fun b hbs => hapart w hw b hbs fs'' l hlocate]
      exact hfile
    · exact hb.written w hw
  · intro l hl
    obtain ⟨hla, hlb⟩ := List.forall_mem_append.1 hl
    rw [hb.others l hlb]
    apply ha.others l
    intro w hw hlocate
    exact hla w hw (hb.toKeepsDirectories.locate hlocate)

end Written

end StreamedUi.FileSystem
