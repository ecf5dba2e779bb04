import Mathlib.Algebra.GroupWithZero.Nat
import Mathlib.Data.List.Chain
import Mathlib.Data.List.Perm.Subperm
import StreamedUi.Proofs.OrderedMap
import StreamedUi.Proofs.Walk.Recursive

/-! The loop of a walk, turn by turn. The frames on the stack lead from the start to the element at
hand, each by a child entry of the one below it, and no key comes twice among them, so there are
never more of them than elements (`State.Invariant`). The loop ends, after one turn for each visit
and one for each child entry of a visited element (`Tree.walk_turns`). -/

namespace StreamedUi.Walk

/-- A turn for each child entry of a visited element, and one to leave it. -/
def turns (visits : List Visit) : Nat := (visits.map (·.element.childKeys.length + 1)).sum

/-- `f` was entered from the last entry that `g` has followed. -/
def Frame.EnteredFrom (f g : Frame) : Prop :=
  ∃ followed, g.element.childKeys = followed ++ f.key :: g.rest

namespace State

/-- What the loop has come to after some turns. -/
def after (t : Tree) : Nat → State → Walk ⊕ State
  | 0, s => .inr s
  | n + 1, s =>
    match s.step t with
    | .inl walk => .inl walk
    | .inr s' => after t n s'

/-! ## What the stack is -/

/-- Child entries lead from the start up the stack, and each frame has its own last entries open. -/
structure Linked (t : Tree) (start : String) (stack : List Frame) : Prop where
  get?_key : ∀ f ∈ stack, t.get? f.key = some f.element
  rest_suffix : ∀ f ∈ stack, f.rest <:+ f.element.childKeys
  entered : stack.IsChain Frame.EnteredFrom
  bottom : ∀ f, stack.getLast? = some f → f.key = start

namespace Linked

variable {t : Tree} {start key child : String} {e c : Element} {depth depth' : Nat}
  {rest : List String} {f : Frame} {below : List Frame}

theorem first (hget : t.get? start = some e) :
    Linked t start [⟨start, e, depth, e.childKeys⟩] where
  get?_key f hf := by
    obtain rfl := List.mem_singleton.1 hf
    exact hget
  rest_suffix f hf := by
    obtain rfl := List.mem_singleton.1 hf
    exact List.suffix_refl _
  entered := .singleton _
  bottom f hf := by
    cases hf
    rfl

theorem leave (h : Linked t start (f :: below)) : Linked t start below where
  get?_key g hg := h.get?_key g (List.mem_cons_of_mem f hg)
  rest_suffix g hg := h.rest_suffix g (List.mem_cons_of_mem f hg)
  entered := h.entered.of_cons
  bottom g hg := h.bottom g (by rw [List.getLast?_cons, hg, Option.getD_some])

/-- The frames below do not see which entries are still open. -/
theorem follow (h : Linked t start (⟨key, e, depth, child :: rest⟩ :: below)) :
    Linked t start (⟨key, e, depth, rest⟩ :: below) where
  get?_key := List.forall_mem_cons.2 (List.forall_mem_cons.1 h.get?_key)
  rest_suffix := by
    obtain ⟨hfirst, hbelow⟩ := List.forall_mem_cons.1 h.rest_suffix
    exact List.forall_mem_cons.2 ⟨(List.suffix_cons child rest).trans hfirst, hbelow⟩
  entered := by
    cases below with
    | nil => exact .singleton _
    | cons g below =>
      obtain ⟨hentered, hbelow⟩ := List.isChain_cons_cons.1 h.entered
      exact List.isChain_cons_cons.2 ⟨hentered, hbelow⟩
  bottom g hg := by
    cases below with
    | nil =>
      cases hg
      exact h.bottom ⟨key, e, depth, child :: rest⟩ rfl
    | cons g' below => exact h.bottom g hg

theorem enter (h : Linked t start (⟨key, e, depth, child :: rest⟩ :: below))
    (hget : t.get? child = some c) :
    Linked t start (⟨child, c, depth', c.childKeys⟩ :: ⟨key, e, depth, rest⟩ :: below) where
  get?_key := List.forall_mem_cons.2 ⟨hget, h.follow.get?_key⟩
  rest_suffix := List.forall_mem_cons.2 ⟨List.suffix_refl _, h.follow.rest_suffix⟩
  entered := by
    obtain ⟨followed, hfollowed⟩ := (List.forall_mem_cons.1 h.rest_suffix).1
    exact List.isChain_cons_cons.2 ⟨⟨followed, hfollowed.symm⟩, h.follow.entered⟩
  bottom g hg := h.follow.bottom g (by rwa [List.getLast?_cons_cons] at hg)

end Linked

/-- What holds at each turn of a walk from `start`. -/
structure Invariant (t : Tree) (start : String) (s : State) : Prop extends
    Sound s, Linked t start s.stack where
  /-- The depth of a frame is its index, counted from the bottom. -/
  depths : s.stack.reverse.map Frame.depth = List.range s.stack.length
  height_le : s.stack.length ≤ t.elements.size
  depth_le : ∀ v ∈ s.visits, v.depth + 1 ≤ t.elements.size

variable {t : Tree} {start key : String} {e : Element} {s s' : State}

theorem ranked_iff {stack : List Frame} :
    Ranked stack ↔ stack.reverse.map Frame.depth = List.range stack.length := by
  induction stack with
  | nil => exact iff_of_true trivial rfl
  | cons f below ih =>
    rw [Ranked, ih, List.reverse_cons, List.map_append, List.map_singleton, List.length_cons,
      List.range_succ, ← List.concat_eq_append, ← List.concat_eq_append, List.concat_inj, and_comm]

/-- Distinct keys of the tree are no more than its elements. -/
theorem length_stack_le (h : s.Sound) (hget : ∀ f ∈ s.stack, t.get? f.key = some f.element) :
    s.stack.length ≤ t.elements.size := by
  have hkeys : s.path ⊆ t.elements.keys := by
    intro k hk
    obtain ⟨f, hf, rfl⟩ := List.mem_map.1 hk
    exact OrderedMap.mem_keys_of_get? (hget f hf)
  have hle := (h.nodup.subperm hkeys).length_le
  rwa [path, List.length_map, OrderedMap.length_keys] at hle

theorem invariant_start (hget : t.get? key = some e) : (State.start key e).Invariant t key :=
  have hlinked : Linked t key (State.start key e).stack := .first hget
  have hheight := length_stack_le (sound_start key e) hlinked.get?_key
  { toSound := sound_start key e
    toLinked := hlinked
    depths := rfl
    height_le := hheight
    depth_le := fun _ hv => by
      obtain rfl := List.mem_singleton.1 hv
      exact hheight }

/-! ## Turn by turn -/

theorem Turn.linked (H : Turn t s s') (h : Linked t start s.stack) : Linked t start s'.stack := by
  cases H with
  | leave => exact h.leave
  | cut | skip => exact h.follow
  | enter _ hget => exact h.enter hget

/-- A visit is one level above the frame that it is entered from. -/
theorem Turn.depth_le {n : Nat} (H : Turn t s s') (hr : Ranked s.stack)
    (hheight : s'.stack.length ≤ n) (h : ∀ v ∈ s.visits, v.depth + 1 ≤ n) :
    ∀ v ∈ s'.visits, v.depth + 1 ≤ n := by
  cases H with
  | leave | cut | skip => exact h
  | enter =>
    refine List.forall_mem_cons.2 ⟨?_, h⟩
    have hdepth := hr.1
    simp only [List.length_cons] at hheight hdepth ⊢
    omega

theorem Invariant.step (h : s.Invariant t start) (hs : s.step t = .inr s') :
    s'.Invariant t start :=
  have H := Turn.of_step h.toSound hs
  have hsound := h.toSound.step hs
  have hlinked := H.linked h.toLinked
  have hranked := ranked_iff.2 h.depths
  have hheight := length_stack_le hsound hlinked.get?_key
  { toSound := hsound
    toLinked := hlinked
    depths := ranked_iff.1 (H.ranked hranked)
    height_le := hheight
    depth_le := H.depth_le hranked hheight h.depth_le }

theorem Invariant.after {n : Nat} (h : s.Invariant t start) (hs : s.after t n = .inr s') :
    s'.Invariant t start := by
  induction n generalizing s with
  | zero =>
    cases hs
    exact h
  | succ n ih =>
    rw [State.after] at hs
    split at hs
    · cases hs
    · next hstep => exact ih (h.step hstep) hs

theorem Invariant.depth_le_run {hs : s.Sound} (h : s.Invariant t start) :
    ∀ v ∈ (s.run t hs).visits, v.depth + 1 ≤ t.elements.size := by
  fun_induction State.run t s hs with
  | case1 s hsound walk hs =>
    obtain ⟨-, rfl⟩ := eq_nil_of_step hs
    exact fun v hv => h.depth_le v (List.mem_reverse.1 hv)
  | case2 s hsound s' hs ih => exact ih (h.step hs)

/-! ## How many turns -/

/-- The turns that the frames on the stack are still to take. -/
def openTurns (stack : List Frame) : Nat := (stack.map (·.rest.length + 1)).sum

theorem Turn.turns_eq (H : Turn t s s') :
    openTurns s.stack + turns s'.visits = openTurns s'.stack + turns s.visits + 1 := by
  cases H <;> simp only [openTurns, turns, List.map_cons, List.sum_cons, List.length_cons,
    List.length_nil] <;> omega

theorem turns_reverse (visits : List Visit) : turns visits.reverse = turns visits := by
  rw [turns, List.map_reverse, List.sum_reverse, turns]

/-- The loop ends when each visited element has been left. -/
theorem after_eq_run_iff (h : s.Sound) (n : Nat) :
    s.after t n = .inl (s.run t h) ↔
      turns (s.run t h).visits + openTurns s.stack < n + turns s.visits := by
  fun_induction State.run t s h generalizing n with
  | case1 s h walk hs =>
    obtain ⟨hstack, rfl⟩ := eq_nil_of_step hs
    rw [turns_reverse, hstack]
    cases n with
    | zero => simp [State.after, openTurns]
    | succ n => simp [State.after, hs, openTurns]
  | case2 s h s' hs ih =>
    have hturn := (Turn.of_step h hs).turns_eq
    cases n with
    | zero =>
      have hzero := ih 0
      simp only [State.after, reduceCtorEq, false_iff] at hzero ⊢
      omega
    | succ n =>
      rw [State.after, hs]
      exact (ih n).trans (by omega)

end State

end StreamedUi.Walk

namespace StreamedUi.Tree

/-- The loop ends, after one turn for each visit and one for each child entry of a visited element,
and at each turn the stack is the way from the start to the element at hand. Without a start there
is no loop. -/
theorem walk_turns (t : Tree) (start : Option String) :
    (match t.walkStart? start with
      | some key => ∃ e, t.get? key = some e ∧
          (∀ n, (Walk.State.start key e).after t n = .inl (t.walk start) ↔
            Walk.turns (t.walk start).visits < n) ∧
          ∀ n s, (Walk.State.start key e).after t n = .inr s → s.Invariant t key
      | none => t.walk start = Walk.none) ∧
      ∀ v ∈ (t.walk start).visits, v.depth + 1 ≤ t.elements.size := by
  cases hstart : t.walkStart? start with
  | none =>
    have hwalk := walk_eq_none hstart
    refine ⟨hwalk, ?_⟩
    rw [hwalk]
    exact fun _ hv => absurd hv List.not_mem_nil
  | some key =>
    obtain ⟨e, hget, hwalk⟩ := walk_eq_run hstart
    have H := Walk.State.invariant_start hget
    refine ⟨⟨e, hget, fun n => ?_, fun n s hs => H.after hs⟩, hwalk ▸ H.depth_le_run⟩
    have hfirst : Walk.State.openTurns (Walk.State.start key e).stack =
        Walk.turns (Walk.State.start key e).visits := rfl
    rw [hwalk, Walk.State.after_eq_run_iff H.toSound, hfirst, Nat.add_lt_add_iff_right]

/-- An element among whose children it is itself. -/
def ringElement : Element :=
  { key := "ring", kind := "Stack", children := some ["ring", "link", "gone", "link"] }

/-- An element that leads back to the first. -/
def linkElement : Element := { key := "link", kind := "Card", children := some ["ring"] }

/-- Each element is a child of the other, and the first one is a child of its own as well. One child
is missing. -/
def ringTree : Tree where
  root := some "ring"
  elements := (∅ : OrderedMap Element).insert "ring" ringElement |>.insert "link" linkElement

theorem get?_ringTree (k : String) : ringTree.get? k =
    if "link" = k then some linkElement else if "ring" = k then some ringElement else none := by
  simp only [ringTree, get?, OrderedMap.get?_insert, OrderedMap.get?_empty]

/-- After two turns all elements are on the stack. -/
theorem walk_turns_ring :
    ∃ s, (Walk.State.start "ring" ringElement).after ringTree 2 = .inr s ∧
      s.path = ["link", "ring"] ∧ s.stack.length = ringTree.elements.size ∧
      s.Invariant ringTree "ring" := by
  have hroot : ringTree.root = some "ring" := rfl
  have hring : ringTree.get? "ring" = some ringElement := get?_ringTree "ring"
  have hlink : ringTree.get? "link" = some linkElement := get?_ringTree "link"
  have hstart : ringTree.walkStart? none = some "ring" := by simp [walkStart?, hroot, hring]
  have H := (walk_turns ringTree none).1
  rw [hstart] at H
  obtain ⟨e, hget, -, H⟩ := H
  obtain rfl : e = ringElement := Option.some.inj (hget.symm.trans hring)
  have hafter : ∃ s, (Walk.State.start "ring" ringElement).after ringTree 2 = .inr s ∧
      s.path = ["link", "ring"] := by
    simp [Walk.State.after, Walk.State.step, Walk.State.start, Walk.State.path, ringElement,
      Element.childKeys, hlink]
  obtain ⟨s, hs, hpath⟩ := hafter
  have hkeys : ringTree.elements.keys = ["ring", "link"] := by
    simp [ringTree, OrderedMap.keys_insert]
  refine ⟨s, hs, hpath, ?_, H 2 s hs⟩
  calc s.stack.length
    _ = s.path.length := (List.length_map Walk.Frame.key).symm
    _ = ringTree.elements.keys.length := by rw [hpath, hkeys]; rfl
    _ = ringTree.elements.size := OrderedMap.length_keys _

end StreamedUi.Tree
