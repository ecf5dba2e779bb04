import StreamedUi.CommandLine.Run
import StreamedUi.Proofs.FileSystem.Actions
import StreamedUi.Proofs.Json.Quoted
import StreamedUi.Proofs.Patch.Apply
import StreamedUi.Proofs.Project.Consistency

/-! What a failed run leaves behind. The files of a project are written one after another, and none
is taken back: a run that fails while it writes has written the files before the one that it failed
at, and no other (`writeFiles_cases`). Every other failure changes nothing (`run_failed`). -/

namespace StreamedUi

theorem Project.isDescending_path {o : Markup.Options} {t : Tree} {f : ProjectFile}
    (h : f ∈ files o t) : Path.IsDescending f.path := by
  have hall : ∀ path ∈ allPaths, Path.IsDescending path := by decide +kernel
  by_cases hroot : t.root = none
  · rw [files, hroot] at h
    cases h
  · rw [files_eq_layout o hroot] at h
    exact hall _ ((paths_layout_sublist (used_sublist t) _ _).subset (List.mem_map_of_mem h))

theorem Project.nodup_paths (o : Markup.Options) (t : Tree) :
    ((files o t).map ProjectFile.path).Nodup := by
  by_cases hroot : t.root = none
  · rw [files, hroot]
    exact List.nodup_nil
  · rw [files_eq_layout o hroot]
    exact paths_nodup_layout (used_sublist t) _ _

namespace CommandLine
open FileSystem Json

variable {out : String} {fs fs' : FileSystem}

/-! ## Writing a project -/

/-- Where a file of a project is written, and what. -/
def target (out : String) (f : ProjectFile) : Path × ByteArray :=
  (.inside out f.path, f.content.toUTF8)

theorem writeFile_cases (out : String) (f : ProjectFile) (fs : FileSystem) :
    (∃ fs', (writeFile out f).run fs = (.ok (), fs') ∧ Written [target out f] fs fs') ∨
      ∃ cause fs', (writeFile out f).run fs = (.error cause, fs') ∧ Grown fs fs' := by
  have hgrown := grows_ensureDirectories (Path.inside out f.path).parent fs
  rw [writeFile, run_bind]
  rcases hmake : (ensureDirectories (Path.inside out f.path).parent).run fs with ⟨cause | ⟨⟩, fs₁⟩
  · rw [hmake] at hgrown
    exact .inr ⟨cause, fs₁, rfl, hgrown⟩
  · rw [hmake] at hgrown
    cases hlocate : fs₁.locate (Path.inside out f.path) with
    | error cause => exact .inr ⟨cause, fs₁, run_write_of_error hlocate _, hgrown⟩
    | ok l =>
      by_cases hentry : fs₁.entryAt? l = some .directory
      · exact .inr ⟨.isDirectory, fs₁, (run_write hlocate _).trans (if_pos hentry), hgrown⟩
      · have hset : Written [target out f] fs₁ (fs₁.set l (.file f.content.toUTF8)) :=
          .of_set hlocate hentry
        have hwritten := (Written.of_grown hgrown).append hset
          fun _ ha => absurd ha List.not_mem_nil
        exact .inl ⟨_, (run_write hlocate _).trans (if_neg hentry), hwritten⟩

/-- Writing a project has stopped at a file: the files before it are there in full, and no other
file has been made or changed. -/
structure StoppedAt (out : String) (done : List ProjectFile) (f : ProjectFile)
    (rest : List ProjectFile) (cause : Cause) (fs fs' : FileSystem) : Prop where
  failed : ∃ fs₁, Written (done.map (target out)) fs fs₁ ∧
    (writeFile out f).run fs₁ = (.error cause, fs')
  written : Written (done.map (target out)) fs fs'
  kept : ∀ g ∈ f :: rest, ∀ l, fs'.locate (.inside out g.path) = .ok l →
    fs'.fileAt? l = fs.fileAt? l

/-- Every file goes down from the directory of the project, to a path of its own. -/
structure Laid (files : List ProjectFile) : Prop where
  descending : ∀ f ∈ files, Path.IsDescending f.path
  nodup : (files.map ProjectFile.path).Nodup

theorem laid_files (o : Markup.Options) (t : Tree) : Laid (Project.files o t) :=
  ⟨fun _ => Project.isDescending_path, Project.nodup_paths o t⟩

theorem Laid.sublist {as bs : List ProjectFile} (h : Laid bs) (hsub : as.Sublist bs) : Laid as :=
  ⟨fun f hf => h.descending f (hsub.subset hf), h.nodup.sublist (hsub.map ProjectFile.path)⟩

theorem Laid.apart {as bs : List ProjectFile} (h : Laid (as ++ bs)) {a b : ProjectFile}
    (ha : a ∈ as) (hb : b ∈ bs) : (target out a).1.Apart (target out b).1 := by
  have hnodup := h.nodup
  rw [List.map_append, List.nodup_append] at hnodup
  apply Path.apart_inside (h.descending a (List.mem_append_left _ ha))
    (h.descending b (List.mem_append_right _ hb))
  exact hnodup.2.2 _ (List.mem_map_of_mem ha) _ (List.mem_map_of_mem hb)

theorem Laid.written_append {as bs : List ProjectFile} (h : Laid (as ++ bs))
    (ha : Written (as.map (target out)) fs fs') {fs'' : FileSystem}
    (hb : Written (bs.map (target out)) fs' fs'') :
    Written ((as ++ bs).map (target out)) fs fs'' := by
  rw [List.map_append]
  refine ha.append hb ?_
  intro v hv w hw
  obtain ⟨f, hf, rfl⟩ := List.mem_map.1 hv
  obtain ⟨g, hg, rfl⟩ := List.mem_map.1 hw
  exact h.apart hf hg

theorem Laid.kept {done rest : List ProjectFile} (h : Laid (done ++ rest))
    (hwritten : Written (done.map (target out)) fs fs') :
    ∀ g ∈ rest, ∀ l, fs'.locate (.inside out g.path) = .ok l → fs'.fileAt? l = fs.fileAt? l := by
  intro g hg l hlocate
  apply hwritten.others l
  intro w hw hplace
  obtain ⟨d, hd, rfl⟩ := List.mem_map.1 hw
  exact h.apart hd hg fs' l hplace hlocate

/-- Writing a project either writes it all or stops at one of its files. -/
theorem writeFiles_cases {files : List ProjectFile} (h : Laid files) (fs : FileSystem) :
    (∃ fs', (writeFiles out files).run fs = (.ok (), fs') ∧
        Written (files.map (target out)) fs fs') ∨
      ∃ done f rest cause fs', files = done ++ f :: rest ∧
        (writeFiles out files).run fs = (.error cause, fs') ∧
        StoppedAt out done f rest cause fs fs' := by
  induction files generalizing fs with
  | nil => exact .inl ⟨fs, rfl, .of_grown (.refl fs)⟩
  | cons f files ih =>
    rw [writeFiles, run_bind]
    rcases writeFile_cases out f fs with ⟨fs₁, hrun, hfirst⟩ | ⟨cause, fs₁, hrun, hgrown⟩
    · rw [hrun]
      rcases ih (h.sublist (List.sublist_cons_self f files)) fs₁ with ⟨fs', hrun', hwritten⟩ |
        ⟨done, g, rest, cause, fs', rfl, hrun', hstopped⟩
      · have hall : Laid ([f] ++ files) := h
        exact .inl ⟨fs', hrun', hall.written_append hfirst hwritten⟩
      · have hall : Laid ((f :: done) ++ g :: rest) := h
        have hdone : Laid ([f] ++ done) := hall.sublist (List.sublist_append_left (f :: done) _)
        have hwritten := hdone.written_append hfirst hstopped.written
        obtain ⟨fs₂, hwritten₂, hfailed⟩ := hstopped.failed
        exact .inr ⟨f :: done, g, rest, cause, fs', rfl, hrun',
          ⟨fs₂, hdone.written_append hfirst hwritten₂, hfailed⟩, hwritten, hall.kept hwritten⟩
    · have hall : Laid ([] ++ f :: files) := h
      rw [hrun]
      exact .inr ⟨[], f, files, cause, fs₁, rfl, rfl, ⟨fs, .of_grown (.refl fs), hrun⟩,
        .of_grown hgrown, hall.kept (.of_grown hgrown)⟩

/-! ## Commands -/

theorem run_ofExcept {α : Type} (e : Except Failure α) (fs : FileSystem) :
    (Job.ofExcept e).run fs = (e, fs) := by
  cases e <;> rfl

theorem run_ofAction {α : Type} (x : Action α) (fs : FileSystem) :
    (Job.ofAction x).run fs = match x.run fs with
      | (.ok a, fs') => (.ok a, fs')
      | (.error cause, fs') => (.error (.system cause), fs') := by
  show (match x.run fs with | (e, fs') => (e.mapError Failure.system, fs')) = _
  rcases x.run fs with ⟨_ | _, _⟩ <;> rfl

/-- Reading the input changes nothing. -/
theorem run_readInput_snd (stdin : ByteArray) (input : String) (fs : FileSystem) :
    ((readInput stdin input).run fs).2 = fs := by
  rw [readInput]
  split
  · rfl
  · have hread := run_read_snd (.ofString input) fs
    rw [run_ofAction]
    rcases hrun : (read (.ofString input)).run fs with ⟨_ | _, fs'⟩
    · rw [hrun] at hread
      exact hread
    · rw [hrun] at hread
      exact hread

theorem run_analyze_snd (stdin : ByteArray) (input : String) (fs : FileSystem) :
    (((Command.analyze input).execute stdin).run fs).2 = fs := by
  have hread := run_readInput_snd stdin input fs
  rw [Command.execute, run_bind]
  rcases hrun : (readInput stdin input).run fs with ⟨failure | bytes, fs'⟩
  · rw [hrun] at hread
    exact hread
  · rw [hrun] at hread
    show ((Job.ofExcept (loadTree bytes) >>= fun t => pure (analysisText t)).run fs').2 = fs
    rw [run_bind, run_ofExcept]
    cases loadTree bytes <;> exact hread

theorem run_generate {stdin bytes : ByteArray} {input : String} {options : Markup.Options}
    {t : Tree} (hread : (readInput stdin input).run fs = (.ok bytes, fs))
    (hload : loadTree bytes = .ok t) (hroot : t.rootElement?.isSome) :
    ((Command.generate input out options).execute stdin).run fs =
      match (writeFiles out (Project.files options t)).run fs with
      | (.ok (), fs') => (.ok (writtenLine (Project.files options t) out), fs')
      | (.error cause, fs') => (.error (.system cause), fs') := by
  rw [Command.execute, run_bind, hread]
  dsimp only
  rw [run_bind, run_ofExcept, hload]
  dsimp only
  rw [run_bind, run_ofExcept, projectFiles, if_pos hroot]
  dsimp only
  rw [run_bind, run_ofAction]
  rcases (writeFiles out (Project.files options t)).run fs with ⟨_ | ⟨⟩, _⟩ <;> rfl

/-- Nothing is written unless there is a tree with a root. -/
theorem run_generate_cases (stdin : ByteArray) (input out : String) (options : Markup.Options)
    (fs : FileSystem) :
    (((Command.generate input out options).execute stdin).run fs).2 = fs ∨
      ∃ bytes t, (readInput stdin input).run fs = (.ok bytes, fs) ∧ loadTree bytes = .ok t ∧
        t.rootElement?.isSome := by
  have hread := run_readInput_snd stdin input fs
  rcases hrun : (readInput stdin input).run fs with ⟨failure | bytes, fs'⟩
  · rw [hrun] at hread
    refine .inl ?_
    rw [Command.execute, run_bind, hrun]
    exact hread
  rw [hrun] at hread
  obtain rfl : fs' = fs := hread
  cases hload : loadTree bytes with
  | error failure =>
    refine .inl ?_
    rw [Command.execute, run_bind, hrun]
    dsimp only
    rw [run_bind, run_ofExcept, hload]
  | ok t =>
    by_cases hroot : t.rootElement?.isSome = true
    · exact .inr ⟨bytes, t, rfl, hload, hroot⟩
    · refine .inl ?_
      rw [Command.execute, run_bind, hrun]
      dsimp only
      rw [run_bind, run_ofExcept, hload]
      dsimp only
      rw [run_bind, run_ofExcept, projectFiles, if_neg hroot]

/-! ## Runs -/

/-- A run that does not end with code 0 has changed nothing, unless it could not write one of the
files of a project: then the files before that one are there in full, and no other file has been
made or changed. -/
theorem run_failed (arguments : List String) (stdin : ByteArray) (fs : FileSystem)
    (h : (run arguments stdin fs).1.code ≠ 0) :
    (run arguments stdin fs).2 = fs ∨
      ∃ input out options bytes t done f rest cause,
        Request.ofArguments arguments = .command (.generate input out options) ∧
        (readInput stdin input).run fs = (.ok bytes, fs) ∧ loadTree bytes = .ok t ∧
        t.rootElement?.isSome ∧ Project.files options t = done ++ f :: rest ∧
        (run arguments stdin fs).1 = { code := 1, failure := some (.system cause) } ∧
        StoppedAt out done f rest cause fs (run arguments stdin fs).2 := by
  unfold run at h ⊢
  cases hrequest : Request.ofArguments arguments with
  | misuse => exact .inl rfl
  | version => exact .inl rfl
  | help topic => exact .inl rfl
  | command c =>
    cases c with
    | analyze input => exact .inl (run_analyze_snd stdin input fs)
    | generate input out options =>
      rw [hrequest] at h
      rcases run_generate_cases stdin input out options fs with hkept |
        ⟨bytes, t, hread, hload, hroot⟩
      · exact .inl hkept
      have hrun : ((Command.generate input out options).execute stdin).run fs = _ :=
        run_generate hread hload hroot
      rcases writeFiles_cases (laid_files options t) fs with ⟨fs', hwrite, -⟩ |
        ⟨done, f, rest, cause, fs', hfiles, hwrite, hstopped⟩
      · rw [hwrite] at hrun
        dsimp only at h
        rw [hrun] at h
        exact absurd rfl h
      · rw [hwrite] at hrun
        refine .inr ⟨input, out, options, bytes, t, done, f, rest, cause, rfl, hread, hload, hroot,
          hfiles, ?_⟩
        dsimp only
        rw [hrun]
        exact ⟨rfl, hstopped⟩

/-! ## A run that stops -/

def rootRecord : String := "[\"set\",\"/root\",\"a\"]"

def cardRecord : String := "[\"add\",\"/elements/a\",[\"\",\"Card\"]]"

/-- A text that makes a tree with a root element. -/
def cardRecords : String := rootRecord ++ "\n" ++ cardRecord ++ "\n"

/-- A file stands where the project has a directory. -/
def blocked : FileSystem where
  entries := [(["app"], .file "old".toUTF8), (["in.jsonl"], .file cardRecords.toUTF8)]

/-- The files go to the working directory. -/
def blockedArguments : List String := ["export", "in.jsonl", "-o", "."]

theorem loadTree_cardRecords :
    ∃ t, loadTree cardRecords.toUTF8 = .ok t ∧ t.rootElement?.isSome := by
  have htext : String.fromUTF8? cardRecords.toUTF8 = some cardRecords := by
    rw [String.fromUTF8?, String.toUTF8_eq_toByteArray, dif_pos cardRecords.isValidUTF8]
    rfl
  have hlines : Text.lines cardRecords = [rootRecord, cardRecord] := by decide +kernel
  have hreadRoot : Raw.read? (Text.trimChars rootRecord.toList) =
      some (.array [.string (pieces "set"), .string (pieces "/root"), .string (pieces "a")]) := by
    cbv
  have hreadCard : Raw.read? (Text.trimChars cardRecord.toList) =
      some (.array [.string (pieces "add"), .string (pieces "/elements/a"),
        .array [.string [], .string (pieces "Card")]]) := by
    cbv
  have hroot : Operation.ofLine? rootRecord = some (.setRoot "a") :=
    Operation.ofLine?_of_read? hreadRoot rfl rfl
  have hcard : Operation.ofLine? cardRecord = some (.put "a" { key := "a", kind := "Card" }) :=
    Operation.ofLine?_of_read? hreadCard rfl rfl
  have hrootBlank : Text.isBlankText rootRecord = false := by decide
  have hcardBlank : Text.isBlankText cardRecord = false := by decide
  have helement : (Tree.empty.applyText cardRecords).1.rootElement? =
      some { key := "a", kind := "Card" } := by
    simp only [Tree.applyText, hlines, Tree.applyLines, Tree.applyLine, hrootBlank, hcardBlank,
      hroot, hcard]
    exact (OrderedMap.get?_insert ..).trans (if_pos rfl)
  refine ⟨(Tree.empty.applyText cardRecords).1, by rw [loadTree, htext], ?_⟩
  rw [helement]
  rfl

/-- A file is written straight into the output directory. -/
theorem run_writeFile_of_nil {name content : String} {l : Location}
    (hparent : (Path.inside out name).parent.parts = [])
    (hlocate : fs.locate (Path.inside out name) = .ok l)
    (hentry : fs.entryAt? l ≠ some .directory) :
    (writeFile out ⟨name, content⟩).run fs = (.ok (), fs.set l (.file content.toUTF8)) := by
  rw [writeFile, run_bind, run_ensureDirectories_of_nil hparent]
  exact (run_write hlocate _).trans (if_neg hentry)

theorem run_writeFiles_blocked (a b c d : String) (rest : List ProjectFile) :
    ∃ fs', (writeFiles "." (⟨"package.json", a⟩ :: ⟨"tsconfig.json", b⟩ :: ⟨"next.config.js", c⟩ ::
        ⟨"app/globals.css", d⟩ :: rest)).run blocked = (.error .exists, fs') ∧
      fs'.fileAt? ["package.json"] = some a.toUTF8 := by
  let fs₁ := blocked.set ["package.json"] (.file a.toUTF8)
  let fs₂ := fs₁.set ["tsconfig.json"] (.file b.toUTF8)
  let fs₃ := fs₂.set ["next.config.js"] (.file c.toUTF8)
  have h₁ : (writeFile "." ⟨"package.json", a⟩).run blocked = (.ok (), fs₁) :=
    run_writeFile_of_nil rfl rfl nofun
  have h₂ : (writeFile "." ⟨"tsconfig.json", b⟩).run fs₁ = (.ok (), fs₂) :=
    run_writeFile_of_nil rfl rfl nofun
  have h₃ : (writeFile "." ⟨"next.config.js", c⟩).run fs₂ = (.ok (), fs₃) :=
    run_writeFile_of_nil rfl rfl nofun
  have hparent : (Path.inside "." "app/globals.css").parent = ⟨false, [⟨"app", 5⟩], 5⟩ := by
    decide
  have h₄ : (writeFile "." ⟨"app/globals.css", d⟩).run fs₃ = (.error .exists, fs₃) := by
    have happ : fs₃.entryAt? ["app"] = some (.file "old".toUTF8) := rfl
    rw [writeFile, run_bind, hparent,
      run_ensureDirectories_of_file rfl (List.cons_ne_nil _ _) rfl happ]
  refine ⟨fs₃, ?_, rfl⟩
  rw [writeFiles, run_bind, h₁]
  dsimp only
  rw [writeFiles, run_bind, h₂]
  dsimp only
  rw [writeFiles, run_bind, h₃]
  dsimp only
  rw [writeFiles, run_bind, h₄]

/-- The first file has been written when the run fails. -/
theorem run_blocked :
    ∃ content fs', run blockedArguments ByteArray.empty blocked =
        ({ code := 1, failure := some (.system .exists) }, fs') ∧
      fs'.fileAt? ["package.json"] = some content := by
  obtain ⟨t, hload, hroot⟩ := loadTree_cardRecords
  have hrequest : Request.ofArguments blockedArguments =
      .command (.generate "in.jsonl" "." {}) := by
    decide
  have hsome : t.root ≠ none := by
    intro hnone
    rw [Tree.rootElement?, hnone] at hroot
    cases hroot
  have hfiles : ∃ a b c d rest, Project.files {} t = ⟨"package.json", a⟩ :: ⟨"tsconfig.json", b⟩ ::
      ⟨"next.config.js", c⟩ :: ⟨"app/globals.css", d⟩ :: rest := by
    rw [Project.files_eq_layout {} hsome]
    exact ⟨_, _, _, _, _, rfl⟩
  obtain ⟨a, b, c, d, rest, hfiles⟩ := hfiles
  obtain ⟨fs', hwrite, hfile⟩ := run_writeFiles_blocked a b c d rest
  have hread : (readInput ByteArray.empty "in.jsonl").run blocked =
      (.ok cardRecords.toUTF8, blocked) := rfl
  refine ⟨a.toUTF8, fs', ?_, hfile⟩
  unfold run
  rw [hrequest]
  dsimp only
  rw [run_generate hread hload hroot, hfiles, hwrite]
  rfl

/-- The project of a tree stops at a directory that is a file. -/
theorem run_failed_blocked :
    (run blockedArguments ByteArray.empty blocked).1.code ≠ 0 ∧
      ∃ out options t done f rest, Project.files options t = done ++ f :: rest ∧
        StoppedAt out done f rest .exists blocked
          (run blockedArguments ByteArray.empty blocked).2 := by
  obtain ⟨content, fs', hrun, hfile⟩ := run_blocked
  have hcode : (run blockedArguments ByteArray.empty blocked).1.code ≠ 0 := by
    rw [hrun]
    exact Nat.one_ne_zero
  refine ⟨hcode, ?_⟩
  rcases run_failed blockedArguments ByteArray.empty blocked hcode with hkept |
    ⟨input, out, options, bytes, t, done, f, rest, cause, -, -, -, -, hfiles, hreport, hstopped⟩
  · rw [hrun] at hkept
    obtain rfl : fs' = blocked := hkept
    cases hfile
  · rw [hrun] at hreport
    cases hreport
    exact ⟨out, options, t, done, f, rest, hfiles, hstopped⟩

/-- The run fails, and it has made a file. -/
theorem run_failed_fileMade :
    ¬∀ arguments stdin fs, (run arguments stdin fs).1.code ≠ 0 →
      ∀ l, (run arguments stdin fs).2.fileAt? l = fs.fileAt? l := by
  intro h
  obtain ⟨content, fs', hrun, hfile⟩ := run_blocked
  have hkept := h blockedArguments ByteArray.empty blocked (by rw [hrun]; exact Nat.one_ne_zero)
    ["package.json"]
  rw [hrun, hfile] at hkept
  cases hkept

end CommandLine

end StreamedUi
