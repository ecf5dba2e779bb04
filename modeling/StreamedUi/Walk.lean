import Std.Data.HashSet
import StreamedUi.Tree.Basic
import StreamedUi.Notice

/-! Depth-first walks over a tree. A child that is missing is left out, and one that is already on
the path from the start is cut off. The walk is a loop over a stack of frames, one for each element
of the path; `State.Sound` says what the loop keeps, and `State.weight` why it ends. -/

namespace StreamedUi

/-- An element met on a walk. -/
structure Visit where
  element : Element
  depth : Nat
  parent : Option Element

/-- A child entry that leads back to the path. -/
structure Cut where
  parent : String
  child : String
  deriving DecidableEq, Repr

/-- The warning about a cut. -/
def Cut.notice (c : Cut) : Notice :=
  .warn ("Cycle detected at '" ++ c.parent ++ "' -> '" ++ c.child ++ "', branch truncated")

/-- What a walk met, in order. -/
structure Walk where
  visits : List Visit
  cuts : List Cut

namespace Walk

/-- The walk from where no element is. -/
def none : Walk := ⟨[], []⟩

/-- What a walk reports: its cuts, in order. -/
def notices (w : Walk) : List Notice := w.cuts.map Cut.notice

/-- An element of the path, and its child entries that are still to be followed. -/
structure Frame where
  key : String
  element : Element
  depth : Nat
  rest : List String

/-- A walk under way: the path, innermost first, and what has been met so far, last first. -/
structure State where
  stack : List Frame
  ancestors : Std.HashSet String
  visits : List Visit
  cuts : List Cut

namespace State

/-- The keys from the innermost element up to the start. -/
def path (s : State) : List String := s.stack.map Frame.key

/-- The start has been visited and is the whole path. -/
def start (key : String) (e : Element) : State :=
  ⟨[⟨key, e, 0, e.childKeys⟩], Std.HashSet.emptyWithCapacity.insert key, [⟨e, 0, .none⟩], []⟩

/-- Follows the next child entry of the innermost frame, or leaves the frame if it has none. The
walk is over when the path is empty. -/
def step (t : Tree) (s : State) : Walk ⊕ State :=
  match s with
  | ⟨[], _, visits, cuts⟩ => .inl ⟨visits.reverse, cuts.reverse⟩
  | ⟨f :: below, ancestors, visits, cuts⟩ =>
    match f.rest with
    | [] => .inr ⟨below, ancestors.erase f.key, visits, cuts⟩
    | child :: rest =>
      let stack := { f with rest := rest } :: below
      if ancestors.contains child then .inr ⟨stack, ancestors, visits, ⟨f.key, child⟩ :: cuts⟩
      else
        match t.get? child with
        | .none => .inr ⟨stack, ancestors, visits, cuts⟩
        | some e =>
          .inr ⟨⟨child, e, f.depth + 1, e.childKeys⟩ :: stack, ancestors.insert child,
            ⟨e, f.depth + 1, some f.element⟩ :: visits, cuts⟩

/-- The ancestors are the keys of the path, none of which comes twice. -/
structure Sound (s : State) : Prop where
  mem_ancestors_iff : ∀ key, key ∈ s.ancestors ↔ key ∈ s.path
  nodup : s.path.Nodup

theorem sound_start (key : String) (e : Element) : (start key e).Sound where
  mem_ancestors_iff k := by
    simp only [start, path, Std.HashSet.mem_insert, List.map_cons, List.mem_cons, beq_iff_eq]
    simp [@eq_comm _ key k]
  nodup := by simp [start, path]

/-! ## Turns of the loop -/

/-- What a turn that does not end the walk can do. -/
inductive Turn (t : Tree) : State → State → Prop
  | leave {key e depth below ancestors visits cuts} :
    Turn t ⟨⟨key, e, depth, []⟩ :: below, ancestors, visits, cuts⟩
      ⟨below, ancestors.erase key, visits, cuts⟩
  | cut {key e depth child rest below ancestors visits cuts} :
    child ∈ key :: below.map Frame.key →
    Turn t ⟨⟨key, e, depth, child :: rest⟩ :: below, ancestors, visits, cuts⟩
      ⟨⟨key, e, depth, rest⟩ :: below, ancestors, visits, ⟨key, child⟩ :: cuts⟩
  | skip {key e depth child rest below ancestors visits cuts} :
    child ∉ key :: below.map Frame.key → t.get? child = .none →
    Turn t ⟨⟨key, e, depth, child :: rest⟩ :: below, ancestors, visits, cuts⟩
      ⟨⟨key, e, depth, rest⟩ :: below, ancestors, visits, cuts⟩
  | enter {key e depth child rest below ancestors visits cuts c} :
    child ∉ key :: below.map Frame.key → t.get? child = some c →
    Turn t ⟨⟨key, e, depth, child :: rest⟩ :: below, ancestors, visits, cuts⟩
      ⟨⟨child, c, depth + 1, c.childKeys⟩ :: ⟨key, e, depth, rest⟩ :: below,
        ancestors.insert child, ⟨c, depth + 1, some e⟩ :: visits, cuts⟩

theorem Turn.of_step {t : Tree} {s s' : State} (h : s.Sound) (hs : s.step t = .inr s') :
    Turn t s s' := by
  obtain ⟨_ | ⟨⟨key, e, depth, rest⟩, below⟩, ancestors, visits, cuts⟩ := s
  · simp [step] at hs
  have hpath : ∀ child, ancestors.contains child = true ↔ child ∈ key :: below.map Frame.key :=
    fun child => Std.HashSet.contains_iff_mem.trans (h.mem_ancestors_iff child)
  cases rest with
  | nil =>
    cases hs
    exact .leave
  | cons child rest =>
    simp only [step] at hs
    split at hs
    · next hmem =>
      cases hs
      exact .cut ((hpath child).1 hmem)
    · next hmem =>
      have hfresh := mt (hpath child).2 hmem
      split at hs
      · next hget =>
        cases hs
        exact .skip hfresh hget
      · next hget =>
        cases hs
        exact .enter hfresh hget

/-- Only an element that is entered comes to the path, and only one that is left goes. -/
theorem Turn.sound {t : Tree} {s s' : State} (H : Turn t s s') (h : s.Sound) : s'.Sound := by
  obtain ⟨hmem, hnodup⟩ := h
  cases H with
  | leave =>
    simp only [path, List.map_cons, List.nodup_cons, List.mem_cons] at hmem hnodup
    refine ⟨fun k => ?_, hnodup.2⟩
    simp only [path, Std.HashSet.mem_erase, hmem, beq_eq_false_iff_ne]
    constructor
    · rintro ⟨hne, rfl | hk⟩
      · exact absurd rfl hne
      · exact hk
    · exact fun hk => ⟨fun he => hnodup.1 (he ▸ hk), .inr hk⟩
  | cut | skip => exact ⟨hmem, hnodup⟩
  | enter hfresh _ =>
    refine ⟨fun k => ?_, List.nodup_cons.2 ⟨hfresh, hnodup⟩⟩
    rw [Std.HashSet.mem_insert, hmem, path, path, List.map_cons (l := _ :: _), List.mem_cons,
      beq_iff_eq, eq_comm]
    rfl

theorem Sound.step {t : Tree} {s s' : State} (h : s.Sound) (hs : s.step t = .inr s') :
    s'.Sound := (Turn.of_step h hs).sound h

/-! ## Termination -/

/-- More than any element has children. -/
def base (t : Tree) : Nat := (t.elements.toList.flatMap (·.2.childKeys)).length + 2

/-- How many keys of the tree are not on a path. -/
def room (t : Tree) (path : List String) : Nat :=
  ((t.elements.toList.map Prod.fst).filter (· ∉ path)).length

/-- Each frame counts its open child entries, the more the shorter the path up to it. -/
def stackWeight (t : Tree) : List Frame → Nat
  | [] => 0
  | f :: below =>
    (f.rest.length + 1) * (base t).pow (room t (f.key :: below.map Frame.key)) +
      stackWeight t below

/-- A number that every turn of the loop makes less. -/
def weight (t : Tree) (s : State) : Nat := stackWeight t s.stack

theorem length_childKeys_lt_base {t : Tree} {key : String} {e : Element} (h : t.get? key = some e) :
    e.childKeys.length + 1 < base t := by
  have hmem : e.childKeys ∈ t.elements.toList.map (·.2.childKeys) :=
    List.mem_map.2 ⟨(key, e), OrderedMap.mem_toList_of_get? h, rfl⟩
  have := (List.sublist_flatten_of_mem hmem).length_le
  rw [← List.flatMap_def] at this
  simp only [base]
  omega

theorem room_cons_lt {t : Tree} {key : String} {e : Element} {path : List String}
    (h : t.get? key = some e) (hp : key ∉ path) : room t (key :: path) < room t path := by
  have hmem : key ∈ (t.elements.toList.map Prod.fst).filter (· ∉ path) := by
    simp only [List.mem_filter, decide_eq_true_eq]
    exact ⟨List.mem_map.2 ⟨(key, e), OrderedMap.mem_toList_of_get? h, rfl⟩, hp⟩
  have hfilter : (t.elements.toList.map Prod.fst).filter (· ∉ key :: path) =
      ((t.elements.toList.map Prod.fst).filter (· ∉ path)).filter (· ≠ key) := by
    rw [List.filter_filter]
    congr 1
    funext k
    simp only [List.mem_cons, not_or, Bool.decide_and]
  rw [room, room, hfilter]
  exact List.length_filter_lt_length_iff_exists.2 ⟨key, hmem, by simp⟩

theorem Turn.weight_lt {t : Tree} {s s' : State} (H : Turn t s s') : s'.weight t < s.weight t := by
  have hbase : 0 < base t := Nat.succ_pos _
  have hpow : ∀ k, 0 < (base t).pow k := fun k => Nat.pow_pos hbase
  -- A child entry less is as much less as one frame further down may count.
  have hdrop (rest : List String) (k : Nat) :
      (rest.length + 1) * (base t).pow k + (base t).pow k =
        (rest.length + 1 + 1) * (base t).pow k := (Nat.succ_mul ..).symm
  cases H with
  | @leave key _ _ below =>
    have hpos := hpow (room t (key :: below.map Frame.key))
    simp only [weight, stackWeight, List.length_nil, Nat.zero_add, Nat.one_mul]
    omega
  | @cut key _ _ _ rest below | @skip key _ _ _ rest below =>
    have hpos := hpow (room t (key :: below.map Frame.key))
    have hless := hdrop rest (room t (key :: below.map Frame.key))
    simp only [weight, stackWeight, List.length_cons]
    omega
  | @enter key _ _ child rest below _ _ _ c hfresh hget =>
    have hless := hdrop rest (room t (key :: below.map Frame.key))
    have hnew : (c.childKeys.length + 1) *
        (base t).pow (room t (child :: key :: below.map Frame.key)) <
        (base t).pow (room t (key :: below.map Frame.key)) := calc
      _ < base t * (base t).pow (room t (child :: key :: below.map Frame.key)) :=
        Nat.mul_lt_mul_of_pos_right (length_childKeys_lt_base hget) (hpow _)
      _ = (base t).pow (room t (child :: key :: below.map Frame.key) + 1) := Nat.mul_comm ..
      _ ≤ _ := Nat.pow_le_pow_right hbase (room_cons_lt hget hfresh)
    simp only [weight, stackWeight, List.map_cons, List.length_cons]
    omega

theorem weight_step_lt {t : Tree} {s s' : State} (h : s.Sound) (hs : s.step t = .inr s') :
    s'.weight t < s.weight t := (Turn.of_step h hs).weight_lt

/-- Walks until the path is empty. -/
def run (t : Tree) (s : State) (h : s.Sound) : Walk :=
  match hs : s.step t with
  | .inl walk => walk
  | .inr s' => run t s' (h.step hs)
  termination_by s.weight t
  decreasing_by exact weight_step_lt h hs

end State

end Walk

/-- The walk from a key, or else from the root. Without a root there is none. -/
def Tree.walk (t : Tree) (start : Option String) : Walk :=
  match t.root with
  | none => Walk.none
  | some root =>
    let key := start.getD root
    match t.get? key with
    | none => Walk.none
    | some e => (Walk.State.start key e).run t (Walk.State.sound_start key e)

end StreamedUi
