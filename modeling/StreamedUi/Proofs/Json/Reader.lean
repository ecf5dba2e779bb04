import StreamedUi.Json.Reader

/-! Runs of a reader. -/

namespace StreamedUi.Json

theorem eq_of_isSpace {c : Char} (h : isSpace c = true) :
    c = ' ' ∨ c = '\t' ∨ c = '\n' ∨ c = '\r' := by
  simpa [isSpace, or_assoc] using h

namespace Reader

variable {r r' : Reader} {frames : List Frame} {v : Raw} {cs ds : List Char}

theorem run_cons (r : Reader) (c : Char) (cs : List Char) :
    r.run (c :: cs) = (r.step c).bind (run · cs) := rfl

theorem run_append (r : Reader) (cs ds : List Char) :
    r.run (cs ++ ds) = (r.run cs).bind (run · ds) := by
  rw [run, List.foldlM_append]
  rfl

/-- After a whole text only white space may come, and it changes nothing. -/
theorem run_done (h : (⟨frames, .done v⟩ : Reader).run cs = some r') :
    ∀ c ∈ cs, isSpace c = true := by
  induction cs with
  | nil => exact fun c hc => absurd hc List.not_mem_nil
  | cons c cs ih =>
    rw [run_cons] at h
    by_cases hc : isSpace c = true
    · have hstep : (⟨frames, .done v⟩ : Reader).step c = some ⟨frames, .done v⟩ := if_pos hc
      rw [hstep] at h
      exact List.forall_mem_cons.2 ⟨hc, ih h⟩
    · have hstep : (⟨frames, .done v⟩ : Reader).step c = none := if_neg hc
      rw [hstep] at h
      cases h

/-- What a reader has read when a text ends is a number, or all that it can ever read. -/
theorem result?_cases (h : r.result? = some v) :
    r = ⟨[], .done v⟩ ∨ ∃ n, v = .numeral n := by
  unfold result? at h
  split at h
  · next hframes hmode =>
    cases h
    obtain ⟨frames, mode⟩ := r
    cases hframes
    cases hmode
    exact .inl rfl
  · split at h
    · cases h
      exact .inr ⟨_, rfl⟩
    · cases h
  · cases h

end Reader

/-- A text that reads on after a proper beginning of it has been read: the beginning was a number,
or the rest is white space. -/
theorem Raw.read?_append {cs ds : List Char} {v w : Raw} (h : Raw.read? (cs ++ ds) = some v)
    (h' : Raw.read? cs = some w) : (∃ n, w = .numeral n) ∨ ∀ c ∈ ds, isSpace c = true := by
  obtain ⟨r, hr, -⟩ := Option.bind_eq_some_iff.1 h
  obtain ⟨r', hr', hw⟩ := Option.bind_eq_some_iff.1 h'
  rw [Reader.run_append, hr', Option.bind_some] at hr
  rcases Reader.result?_cases hw with rfl | hn
  · exact .inr (Reader.run_done hr)
  · exact .inl hn

end StreamedUi.Json
