import Mathlib.Algebra.GroupWithZero.Nat
import Mathlib.Logic.Function.Basic
import StreamedUi.Proofs.Patch.LastWrite
import StreamedUi.Proofs.Tree.Received

/-! Sessions: a tree that is loaded, forked, patched by lines, texts and streams, and changed by
hand, in any order. Patches reach the tree as operations, whatever they come from
(`Session.step_patching`). So from the empty tree on each element knows the key that it stands
under, the version counts the operations since the tree was last loaded or forked, and a step that
accepts nothing changes nothing (`Session.session_sound`). -/

namespace StreamedUi.Tree

/-- What a session can do with its tree. -/
inductive Step
  | load (json : String)
  | fork
  | insert (e : Element)
  | line (line : String)
  | lines (lines : List String)
  | text (text : String)
  /-- A chunk for one of the patchers. -/
  | push (stream : Nat) (chunk : String)
  | finish (stream : Nat)
  | reset (stream : Nat)

/-- A step that may apply patches and does nothing else to the tree. -/
def Step.IsPatching : Step → Prop
  | .load _ | .fork | .insert _ => False
  | _ => True

/-- What a step answers. -/
inductive Report
  | silent
  | loaded (ok : Bool)
  | line (applied : Bool)
  | counted (stats : Stats)
  deriving DecidableEq, Repr

/-- How many lines a step says that it applied. -/
def Report.applied : Report → Nat
  | .silent | .loaded _ => 0
  | .line applied => if applied then 1 else 0
  | .counted stats => stats.applied

/-- A tree, and patchers that streams of patches for it go through. -/
structure Session where
  tree : Tree := .empty
  patchers : Nat → Patcher := fun _ => .empty

namespace Session

/-- An empty tree, and patchers that hold nothing. -/
def start : Session := {}

/-- One step, and what it answers. -/
def step (s : Session) : Step → Session × Report
  | .load json =>
    match ofJson? json with
    | some t => ({ s with tree := t }, .loaded true)
    | none => (s, .loaded false)
  | .fork => ({ s with tree := s.tree.fork }, .silent)
  | .insert e => ({ s with tree := s.tree.insert e }, .silent)
  | .line line =>
    let (tree, applied) := s.tree.applyLine line
    ({ s with tree }, .line applied)
  | .lines lines =>
    let (tree, stats) := s.tree.applyLines lines
    ({ s with tree }, .counted stats)
  | .text text =>
    let (tree, stats) := s.tree.applyText text
    ({ s with tree }, .counted stats)
  | .push stream chunk =>
    let (patcher, tree, stats) := (s.patchers stream).push s.tree chunk
    (⟨tree, Function.update s.patchers stream patcher⟩, .counted stats)
  | .finish stream =>
    let (patcher, tree, stats) := (s.patchers stream).finish s.tree
    (⟨tree, Function.update s.patchers stream patcher⟩, .counted stats)
  | .reset stream =>
    ({ s with patchers := Function.update s.patchers stream (s.patchers stream).reset }, .silent)

/-- The steps one after another. -/
def run (s : Session) (steps : List Step) : Session := steps.foldl (fun s step => (s.step step).1) s

/-! ## What the steps bring -/

/-- The lines that a step brings to the tree. -/
def incoming (s : Session) : Step → List String
  | .load _ | .fork | .insert _ | .reset _ => []
  | .line line => [line]
  | .lines lines => lines
  | .text text => Text.lines text
  | .push stream chunk =>
    Text.lines (Text.throughLastNewline ((s.patchers stream).pending ++ chunk))
  | .finish stream => Text.lines (s.patchers stream).pending

/-- The operations among these lines. -/
def accepted (s : Session) (step : Step) : List Operation :=
  (s.incoming step).filterMap Operation.ofLine?

/-- A step as far as the version goes. -/
inductive Event
  /-- The tree was loaded or forked. -/
  | renewed
  | accepted (lines : Nat)
  deriving DecidableEq, Repr

/-- What a step is to the version. -/
def event (s : Session) : Step → Event
  | .load json => if (ofJson? json).isSome then .renewed else .accepted 0
  | .fork => .renewed
  | step => .accepted (s.accepted step).length

/-- The events of some steps, in order. -/
def history (s : Session) : List Step → List Event
  | [] => []
  | step :: steps => s.event step :: (s.step step).1.history steps

/-- How many lines an event accepts. -/
def Event.count : Event → Nat
  | .renewed => 0
  | .accepted lines => lines

/-- How many lines have been accepted since the last event that made the tree anew. -/
def acceptedSince (events : List Event) : Nat :=
  ((events.rtakeWhile (· != .renewed)).map Event.count).sum

theorem acceptedSince_renewed (events : List Event) :
    acceptedSince (events ++ [.renewed]) = 0 := by
  rw [acceptedSince, List.rtakeWhile_concat]
  rfl

theorem acceptedSince_accepted (events : List Event) (lines : Nat) :
    acceptedSince (events ++ [.accepted lines]) = acceptedSince events + lines := by
  have hkept : (Event.accepted lines != .renewed) = true := rfl
  rw [acceptedSince, List.rtakeWhile_concat, if_pos hkept, List.map_append, List.sum_append]
  rfl

theorem run_concat (s : Session) (steps : List Step) (step : Step) :
    s.run (steps ++ [step]) = ((s.run steps).step step).1 := List.foldl_concat ..

theorem history_concat (s : Session) (steps : List Step) (step : Step) :
    s.history (steps ++ [step]) = s.history steps ++ [(s.run steps).event step] := by
  induction steps generalizing s with
  | nil => rfl
  | cons first steps ih => exact congrArg (s.event first :: ·) (ih _)

/-! ## What the steps do -/

theorem applyLine_eq (t : Tree) (line : String) :
    t.applyLine line =
      (t.applyAll ([line].filterMap Operation.ofLine?), (Operation.ofLine? line).isSome) := by
  rw [applyLine, List.filterMap_cons]
  cases Operation.ofLine? line <;> rfl

/-- A step that patches applies the operations among the lines that it brings, and says how many
there are. -/
theorem step_patching {step : Step} (h : step.IsPatching) (s : Session) :
    (s.step step).1.tree = s.tree.applyAll (s.accepted step) ∧
      (s.step step).2.applied = (s.accepted step).length := by
  cases step with
  | load | fork | insert => cases h
  | line line =>
    simp only [Session.step, applyLine_eq, accepted, incoming, Report.applied, true_and]
    cases hop : Operation.ofLine? line <;> simp [hop]
  | lines lines =>
    simp only [Session.step, applyLines_eq, accepted, incoming, Report.applied, and_self]
  | text text =>
    simp only [Session.step, applyText, applyLines_eq, accepted, incoming, Report.applied, and_self]
  | push stream chunk =>
    simp only [Session.step, Patcher.push, Text.splitAtLastNewline_eq, applyText, applyLines_eq,
      accepted, incoming, Text.throughLastNewline, Report.applied, and_self]
  | finish stream =>
    simp only [Session.step, Patcher.finish, applyText, applyLines_eq, accepted, incoming,
      Report.applied, and_self]
  | reset stream => exact ⟨rfl, rfl⟩

end Session

/-! ## Keys -/

/-- Each element knows the key that it stands under. -/
def Keyed (t : Tree) : Prop := ∀ key e, t.get? key = some e → e.key = key

section Keyed

variable {t : Tree}

theorem keyed_empty : Keyed empty := fun key e he => by
  rw [get?, empty, OrderedMap.get?_empty] at he
  cases he

theorem Keyed.put (h : t.Keyed) {key : String} {e : Element} (he : e.key = key) :
    ∀ k x, (t.elements.insert key e).get? k = some x → x.key = k := by
  intro k x hx
  rw [OrderedMap.get?_insert] at hx
  split at hx
  · next hk =>
    cases hx
    rw [he, hk]
  · exact h k x hx

theorem Keyed.applyAll {ops : List Operation} (h : t.Keyed)
    (hops : ∀ key e, Operation.put key e ∈ ops → e.key = key) : (t.applyAll ops).Keyed := by
  induction ops generalizing t with
  | nil => exact h
  | cons op ops ih =>
    refine ih ?_ fun key e he => hops key e (List.mem_cons_of_mem op he)
    cases op with
    | setRoot root => exact h
    | put key e => exact h.put (hops key e List.mem_cons_self)

theorem keyed_of_ofJson? {json : String} (h : ofJson? json = some t) : t.Keyed := fun key e he =>
  (received_of_ofJson? h (key, e) (OrderedMap.get?_eq_some_iff.1 he)).1

theorem version_of_ofJson? {json : String} (h : ofJson? json = some t) : t.version = 0 := by
  obtain ⟨r, -, h⟩ := Option.bind_eq_some_iff.1 h
  obtain ⟨fields, -, h⟩ := Option.bind_eq_some_iff.1 h
  obtain ⟨root, -, h⟩ := Option.bind_eq_some_iff.1 h
  obtain ⟨entries, -, h⟩ := Option.bind_eq_some_iff.1 h
  cases h
  rfl

end Keyed

/-! ## Whole sessions -/

namespace Session

variable {s : Session}

theorem keyed_step (h : s.tree.Keyed) (step : Step) : (s.step step).1.tree.Keyed := by
  by_cases hpatching : step.IsPatching
  · rw [(step_patching hpatching s).1]
    refine h.applyAll fun key e he => ?_
    obtain ⟨line, -, hline⟩ := List.mem_filterMap.1 he
    exact (Operation.received_of_ofLine? hline).1
  cases step with
  | load json =>
    rw [Session.step]
    split
    · next t ht => exact keyed_of_ofJson? ht
    · exact h
  | fork => exact h
  | insert e => exact h.put rfl
  | _ => exact absurd trivial hpatching

/-- The version starts again when the tree is made anew and else counts what is accepted. -/
theorem version_step (s : Session) (step : Step) :
    (s.step step).1.tree.version =
      match s.event step with
      | .renewed => 0
      | .accepted lines => s.tree.version + lines := by
  by_cases hpatching : step.IsPatching
  · have hevent : s.event step = .accepted (s.accepted step).length := by
      cases step <;> first | rfl | cases hpatching
    rw [(step_patching hpatching s).1, hevent, applyAll_version]
  cases step with
  | load json =>
    rw [Session.step, event]
    cases ht : ofJson? json with
    | none => rfl
    | some t => exact version_of_ofJson? ht
  | fork => rfl
  | insert e => rfl
  | _ => exact absurd trivial hpatching

theorem keyed_run (h : s.tree.Keyed) (steps : List Step) : (s.run steps).tree.Keyed := by
  induction steps generalizing s with
  | nil => exact h
  | cons step steps ih => exact ih (keyed_step h step)

theorem version_run (steps : List Step) :
    (start.run steps).tree.version = acceptedSince (start.history steps) := by
  induction steps using List.reverseRecOn with
  | nil => rfl
  | append_singleton steps step ih =>
    rw [run_concat, history_concat, version_step]
    cases (start.run steps).event step with
    | renewed => rw [acceptedSince_renewed]
    | accepted lines => rw [acceptedSince_accepted, ih]

/-- After any steps from the empty tree, each element knows the key that it stands under and the
version is the number of lines accepted since the tree was made, loaded or forked. Any further step
reports the lines that it accepts; if there are none, or a tree cannot be loaded, the tree stays as
it is. -/
theorem session_sound (steps : List Step) :
    let s := start.run steps
    (∀ key e, s.tree.get? key = some e → e.key = key) ∧
      s.tree.version = acceptedSince (start.history steps) ∧
      (∀ step, step.IsPatching → (s.step step).2.applied = (s.accepted step).length ∧
        ((s.step step).2.applied = 0 → (s.step step).1.tree = s.tree)) ∧
      ∀ json, ofJson? json = none →
        (s.step (.load json)).2 = .loaded false ∧ (s.step (.load json)).1.tree = s.tree := by
  refine ⟨keyed_run keyed_empty steps, version_run steps, fun step hstep => ?_, fun json h => ?_⟩
  · obtain ⟨htree, hreport⟩ := step_patching hstep (start.run steps)
    refine ⟨hreport, fun hnone => ?_⟩
    rw [htree, List.eq_nil_of_length_eq_zero (hreport.symm.trans hnone)]
    rfl
  · rw [Session.step, h]
    exact ⟨rfl, rfl⟩

/-- The beginning of a record. -/
def halfRecord : String := "[\"set\",\"/root\","

/-- Half a record is refused, as a line and as a tree. -/
theorem session_sound_halfRecord :
    let s := start.run [.push 0 halfRecord, .push 0 "\"a\"]", .finish 0, .fork]
    Step.IsPatching (.line halfRecord) ∧ (s.step (.line halfRecord)).2.applied = 0 ∧
      (s.step (.line halfRecord)).1.tree = s.tree ∧
      ofJson? halfRecord = none ∧ (s.step (.load halfRecord)).1.tree = s.tree := by
  intro s
  have hline : Operation.ofLine? halfRecord = none := by cbv
  have hjson : ofJson? halfRecord = none := by cbv
  obtain ⟨-, -, hpatching, hload⟩ :=
    session_sound [.push 0 halfRecord, .push 0 "\"a\"]", .finish 0, .fork]
  obtain ⟨hreport, hkept⟩ := hpatching (.line halfRecord) trivial
  have hnone : (s.step (.line halfRecord)).2.applied = 0 := by
    rw [hreport, accepted, incoming, List.filterMap_cons, hline]
    rfl
  exact ⟨trivial, hnone, hkept hnone, hjson, (hload _ hjson).2⟩

end Session

end StreamedUi.Tree
