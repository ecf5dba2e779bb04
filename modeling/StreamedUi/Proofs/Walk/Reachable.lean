import Mathlib.Logic.Relation
import StreamedUi.Proofs.Walk.Recursive

/-! What a walk visits, said by reachability: the elements that child entries lead to from the
start, whatever cycles there are (`Tree.mem_visits_iff`). Cutting a branch at a key of the path
loses nothing, because the way on from there is found from the path itself. -/

namespace StreamedUi

open Relation

namespace Tree

/-- The element under `key` has `child` as a child, which is there. -/
def Refers (t : Tree) (key child : String) : Prop :=
  ∃ e, t.get? key = some e ∧ child ∈ e.childKeys ∧ ∃ c, t.get? child = some c

/-- Child entries lead from the one key to the other, which is there. -/
def Reaches (t : Tree) (start key : String) : Prop :=
  (∃ e, t.get? start = some e) ∧ ReflTransGen t.Refers start key

/-- The keys that are there and that child entries lead to from the root. -/
def Reachable (t : Tree) (key : String) : Prop :=
  ∃ root, t.root = some root ∧ t.Reaches root key

/-- A reference to a key outside `above`. -/
def RefersAvoiding (t : Tree) (above : List String) (key child : String) : Prop :=
  t.Refers key child ∧ child ∉ above

variable {t : Tree} {above : List String} {key target : String} {e : Element}

/-- A way from a key goes on from its last visit to that key. -/
theorem reflTransGen_refersAvoiding (h : ReflTransGen (t.RefersAvoiding above) key target) :
    target = key ∨ ∃ child, t.Refers key child ∧ child ∉ key :: above ∧
      ReflTransGen (t.RefersAvoiding (key :: above)) child target := by
  induction h with
  | refl => exact .inl rfl
  | @tail mid target _ hstep ih =>
    by_cases htarget : target = key
    · exact .inl htarget
    have hfresh : target ∉ key :: above := by
      rw [List.mem_cons, not_or]
      exact ⟨htarget, hstep.2⟩
    rcases ih with rfl | ⟨child, hrefers, hchild, hway⟩
    · exact .inr ⟨target, hstep.1, hfresh, .refl⟩
    · exact .inr ⟨child, hrefers, hchild, hway.tail ⟨hstep.1, hfresh⟩⟩

end Tree

namespace Walk

open StreamedUi.Tree

variable {t : Tree} {target : String} {x : Element}

/-- A walk finds what its entries lead to without going back to the path. -/
theorem mem_follow_of_refersAvoiding (above : List String) (key : String) (e : Element)
    (entries : List String) (hx : t.get? target = some x) {child : String}
    (hentry : child ∈ entries) (hfresh : child ∉ key :: above)
    (hchild : ∃ c, t.get? child = some c)
    (hway : ReflTransGen (t.RefersAvoiding (key :: above)) child target) :
    x ∈ (follow t above key e entries).visits.map Visit.element := by
  fun_induction follow t above key e entries generalizing child with
  | case1 => exact absurd hentry List.not_mem_nil
  | case2 above key e entry rest hpath ih =>
    rcases List.mem_cons.1 hentry with rfl | hentry
    · exact absurd hpath hfresh
    · exact ih hentry hfresh hchild hway
  | case3 above key e entry rest hpath hnone ih =>
    rcases List.mem_cons.1 hentry with rfl | hentry
    · obtain ⟨c, hc⟩ := hchild
      simp [hnone] at hc
    · exact ih hentry hfresh hchild hway
  | case4 above key e entry rest hpath c hc ihc ih =>
    simp only [append_def, List.map_append, List.map_cons, List.mem_append, List.mem_cons]
    rcases List.mem_cons.1 hentry with rfl | hentry
    · left
      rcases reflTransGen_refersAvoiding hway with rfl | ⟨next, hrefers, hnext, hway⟩
      · rw [hc] at hx
        exact .inl (.inl (Option.some.inj hx).symm)
      · obtain ⟨c', hc', hmem, hthere⟩ := hrefers
        obtain rfl : c' = c := Option.some.inj (hc'.symm.trans hc)
        exact .inr (ihc hmem hnext hthere hway)
    · exact .inr (ih hentry hfresh hchild hway)

/-- A walk visits only what its entries lead to. -/
theorem exists_reaches_of_mem_follow (above : List String) (key : String) (e : Element)
    (entries : List String) (hget : t.get? key = some e) (hentries : entries ⊆ e.childKeys)
    (hx : x ∈ (follow t above key e entries).visits.map Visit.element) :
    ∃ target, ReflTransGen t.Refers key target ∧ t.get? target = some x := by
  fun_induction follow t above key e entries with
  | case1 => exact absurd hx List.not_mem_nil
  | case2 above key e entry rest hpath ih =>
    exact ih hget (List.subset_of_cons_subset hentries) hx
  | case3 above key e entry rest hpath hnone ih =>
    exact ih hget (List.subset_of_cons_subset hentries) hx
  | case4 above key e entry rest hpath c hc ihc ih =>
    have hrefers : t.Refers key entry := ⟨e, hget, hentries List.mem_cons_self, c, hc⟩
    simp only [append_def, List.map_append, List.map_cons, List.mem_append, List.mem_cons] at hx
    rcases hx with (hx | hx) | hx
    · obtain rfl : x = c := by simpa using hx
      exact ⟨entry, .single hrefers, hc⟩
    · obtain ⟨target, hway, htarget⟩ := ihc hc (List.Subset.refl _) hx
      exact ⟨target, .head hrefers hway, htarget⟩
    · exact ih hget (List.subset_of_cons_subset hentries) hx

end Walk

namespace Tree

variable {t : Tree}

/-- A walk visits exactly the elements that are reachable from its start. -/
theorem mem_visits_iff {start : Option String} {x : Element} :
    x ∈ (t.walk start).visits.map Visit.element ↔
      ∃ root key, t.root = some root ∧ t.Reaches (start.getD root) key ∧ t.get? key = some x := by
  cases hstart : t.walkStart? start with
  | none =>
    rw [walk_eq_none hstart]
    constructor
    · exact fun h => absurd h List.not_mem_nil
    · rintro ⟨root, key, hroot, ⟨⟨e, he⟩, -⟩, -⟩
      simp [walkStart?, hroot, he] at hstart
  | some key =>
    obtain ⟨root, e, hroot, rfl, he⟩ := walkStart?_eq_some hstart
    obtain ⟨e', he', hwalk⟩ := walk_eq_descend hstart
    obtain rfl : e' = e := Option.some.inj (he'.symm.trans he)
    rw [hwalk, Walk.descend, Walk.append_def, List.map_append, List.map_singleton,
      List.singleton_append, List.mem_cons]
    constructor
    · rintro (rfl | hx)
      · exact ⟨root, _, hroot, ⟨⟨_, he⟩, .refl⟩, he⟩
      · obtain ⟨target, hway, htarget⟩ :=
          Walk.exists_reaches_of_mem_follow [] _ e' e'.childKeys he (List.Subset.refl _) hx
        exact ⟨root, target, hroot, ⟨⟨_, he⟩, hway⟩, htarget⟩
    · rintro ⟨root', target, hroot', ⟨-, hway⟩, htarget⟩
      obtain rfl : root' = root := Option.some.inj (hroot'.symm.trans hroot)
      have hway : ReflTransGen (t.RefersAvoiding []) (start.getD root') target :=
        ReflTransGen.mono (fun _ _ h => ⟨h, List.not_mem_nil⟩) _ _ hway
      rcases reflTransGen_refersAvoiding hway with rfl | ⟨child, hrefers, hfresh, hway⟩
      · exact .inl (Option.some.inj (htarget.symm.trans he))
      · obtain ⟨e'', he'', hmem, hthere⟩ := hrefers
        obtain rfl : e'' = e' := Option.some.inj (he''.symm.trans he)
        exact .inr (Walk.mem_follow_of_refersAvoiding [] _ e'' e''.childKeys htarget hmem hfresh
          hthere hway)

theorem mem_visits_root_iff {x : Element} :
    x ∈ (t.walk none).visits.map Visit.element ↔
      ∃ key, t.Reachable key ∧ t.get? key = some x := by
  rw [mem_visits_iff]
  constructor
  · rintro ⟨root, key, hroot, hreaches, hx⟩
    exact ⟨key, ⟨root, hroot, hreaches⟩, hx⟩
  · rintro ⟨key, ⟨root, hroot, hreaches⟩, hx⟩
    exact ⟨root, key, hroot, hreaches, hx⟩

end Tree

end StreamedUi
