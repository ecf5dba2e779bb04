import StreamedUi.Walk

/-! The walk by recursion over the tree, with the keys of the path as an argument. The loop over a
stack of frames meets the same elements and the same cycles (`Tree.walk_eq_descend`): each frame
stands for a call that is still to be finished, and no turn of the loop changes what will have been
met in the end (`Turn.outcome_eq`). -/

namespace StreamedUi.Walk

instance : Append Walk := ⟨fun w w' => ⟨w.visits ++ w'.visits, w.cuts ++ w'.cuts⟩⟩

theorem append_def (w w' : Walk) : w ++ w' = ⟨w.visits ++ w'.visits, w.cuts ++ w'.cuts⟩ := rfl

@[simp] theorem none_append (w : Walk) : none ++ w = w := rfl

@[simp] theorem append_none (w : Walk) : w ++ none = w := by
  simp [append_def, none]

/-- What following child entries of the element `e` meets. The path to `e` is its key and then
`above`, innermost first. -/
def follow (t : Tree) (above : List String) (key : String) (e : Element) : List String → Walk
  | [] => none
  | child :: rest =>
    if _ : child ∈ key :: above then ⟨[], [⟨key, child⟩]⟩ ++ follow t above key e rest
    else
      match _ : t.get? child with
      | .none => follow t above key e rest
      | some c =>
        ⟨[⟨c, above.length + 1, some e⟩], []⟩ ++ follow t (key :: above) child c c.childKeys ++
          follow t above key e rest
termination_by entries => (State.room t (key :: above), entries.length)
decreasing_by
  · exact Prod.Lex.right _ (Nat.lt_succ_self _)
  · exact Prod.Lex.right _ (Nat.lt_succ_self _)
  · exact Prod.Lex.left _ _ (State.room_cons_lt ‹_› ‹_›)
  · exact Prod.Lex.right _ (Nat.lt_succ_self _)

/-- The visit of an element, and everything met below it. -/
def descend (t : Tree) (above : List String) (key : String) (e : Element)
    (parent : Option Element) : Walk :=
  ⟨[⟨e, above.length, parent⟩], []⟩ ++ follow t above key e e.childKeys

section Follow

variable {t : Tree} {above : List String} {key child : String} {e c : Element}
  {rest : List String}

theorem follow_nil : follow t above key e [] = none := by
  rw [follow]

theorem follow_cut (h : child ∈ key :: above) :
    follow t above key e (child :: rest) = ⟨[], [⟨key, child⟩]⟩ ++ follow t above key e rest := by
  rw [follow, dif_pos h]

theorem follow_skip (h : child ∉ key :: above) (hget : t.get? child = .none) :
    follow t above key e (child :: rest) = follow t above key e rest := by
  rw [follow, dif_neg h]
  split
  · rfl
  · next hsome => simp [hget] at hsome

theorem follow_enter (h : child ∉ key :: above) (hget : t.get? child = some c) :
    follow t above key e (child :: rest) =
      descend t (key :: above) child c (some e) ++ follow t above key e rest := by
  rw [follow, dif_neg h]
  split
  · next hnone => simp [hget] at hnone
  · next c' hsome =>
    obtain rfl : c' = c := Option.some.inj (hsome.symm.trans hget)
    rfl

end Follow

namespace State

/-! ## One turn of the loop -/

/-- The walk ends only without a frame, with what has been met. -/
theorem eq_nil_of_step {t : Tree} {s : State} {walk : Walk} (hs : s.step t = .inl walk) :
    s.stack = [] ∧ walk = ⟨s.visits.reverse, s.cuts.reverse⟩ := by
  obtain ⟨_ | ⟨⟨key, e, depth, rest⟩, below⟩, ancestors, visits, cuts⟩ := s
  · cases hs
    exact ⟨rfl, rfl⟩
  · cases rest with
    | nil => cases hs
    | cons child rest =>
      simp only [step] at hs
      repeat' split at hs
      all_goals cases hs

/-- The depth of each frame is its place on the path. -/
def Ranked : List Frame → Prop
  | [] => True
  | f :: below => f.depth = below.length ∧ Ranked below

theorem Turn.ranked {t : Tree} {s s' : State} (H : Turn t s s') (hr : Ranked s.stack) :
    Ranked s'.stack := by
  cases H with
  | leave => exact hr.2
  | cut | skip => exact hr
  | enter => exact ⟨congrArg (· + 1) hr.1, hr⟩

/-! ## The whole loop -/

/-- What the frames are still to meet, the innermost first. -/
def remaining (t : Tree) : List Frame → Walk
  | [] => none
  | f :: below => follow t (below.map Frame.key) f.key f.element f.rest ++ remaining t below

/-- What will have been met when the loop ends. -/
def outcome (t : Tree) (s : State) : Walk :=
  ⟨s.visits.reverse, s.cuts.reverse⟩ ++ remaining t s.stack

theorem Turn.outcome_eq {t : Tree} {s s' : State} (H : Turn t s s') (hr : Ranked s.stack) :
    s'.outcome t = s.outcome t := by
  cases H with
  | leave => simp [outcome, remaining, follow_nil]
  | cut h => simp [outcome, remaining, follow_cut h, append_def]
  | skip h hget => simp [outcome, remaining, follow_skip h hget]
  | enter h hget =>
    simpa [outcome, remaining, follow_enter h hget, append_def, descend] using hr.1

theorem eq_outcome_of_step {t : Tree} {s : State} {walk : Walk} (hs : s.step t = .inl walk) :
    walk = s.outcome t := by
  obtain ⟨hstack, rfl⟩ := eq_nil_of_step hs
  simp [outcome, remaining, hstack]

theorem run_eq_outcome {t : Tree} {s : State} (h : s.Sound) (hr : Ranked s.stack) :
    s.run t h = s.outcome t := by
  fun_induction State.run t s h with
  | case1 s h walk hs => exact eq_outcome_of_step hs
  | case2 s h s' hs ih =>
    have H := Turn.of_step h hs
    exact (ih (H.ranked hr)).trans (H.outcome_eq hr)

end State

end StreamedUi.Walk

namespace StreamedUi.Tree

/-- The key at which a walk starts, if there is a root and the key is there. -/
def walkStart? (t : Tree) (start : Option String) : Option String := do
  let root ← t.root
  let key := start.getD root
  let _ ← t.get? key
  return key

theorem walkStart?_eq_some {t : Tree} {start : Option String} {key : String}
    (h : t.walkStart? start = some key) :
    ∃ root e, t.root = some root ∧ start.getD root = key ∧ t.get? key = some e := by
  obtain ⟨root, hroot, h⟩ := Option.bind_eq_some_iff.1 h
  obtain ⟨e, he, h⟩ := Option.bind_eq_some_iff.1 h
  cases h
  exact ⟨root, e, hroot, rfl, he⟩

theorem walk_eq_run {t : Tree} {start : Option String} {key : String}
    (h : t.walkStart? start = some key) :
    ∃ e, t.get? key = some e ∧
      t.walk start = (Walk.State.start key e).run t (Walk.State.sound_start key e) := by
  obtain ⟨root, e, hroot, rfl, he⟩ := walkStart?_eq_some h
  refine ⟨e, he, ?_⟩
  simp only [walk, hroot]
  split
  · next hnone => simp [he] at hnone
  · next e' he' =>
    obtain rfl : e' = e := Option.some.inj (he'.symm.trans he)
    rfl

/-- The loop is the recursive walk from the start. -/
theorem walk_eq_descend {t : Tree} {start : Option String} {key : String}
    (h : t.walkStart? start = some key) :
    ∃ e, t.get? key = some e ∧ t.walk start = Walk.descend t [] key e none := by
  obtain ⟨e, he, hwalk⟩ := walk_eq_run h
  refine ⟨e, he, ?_⟩
  rw [hwalk, Walk.State.run_eq_outcome (Walk.State.sound_start key e) ⟨rfl, trivial⟩]
  simp [Walk.State.outcome, Walk.State.start, Walk.State.remaining, Walk.descend]

theorem walk_eq_none {t : Tree} {start : Option String} (h : t.walkStart? start = none) :
    t.walk start = Walk.none := by
  unfold walk
  split
  · rfl
  · next root hroot =>
    simp only
    split
    · rfl
    · next e he => simp [walkStart?, hroot, he] at h

end StreamedUi.Tree
