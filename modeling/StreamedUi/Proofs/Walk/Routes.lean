import Mathlib.Data.List.Forall2
import Mathlib.Data.Set.Card
import StreamedUi.Proofs.Walk.Recursive

/-! What a walk meets, said by the child indices that lead there. `Tree.along?` follows a sequence
of child indices without any guard; the walk visits the end of each sequence that repeats no key,
and cuts at each child entry that is on the path to it already, both in the lexicographic order of
the sequences (`Tree.walk_covers`). -/

namespace StreamedUi

/-! ## Lists in the order of index sequences -/

/-- The list has one member for each index sequence of `D`, in lexicographic order: what is at a
sequence comes before what is at its extensions. -/
def InOrder {α : Type} (D : List Nat → Prop) (P : List Nat → α → Prop) (xs : List α) : Prop :=
  ∃ routes : List (List Nat), routes.Pairwise (· < ·) ∧ (∀ is, is ∈ routes ↔ D is) ∧
    List.Forall₂ P routes xs

namespace InOrder

variable {α : Type} {D D' D'' : List Nat → Prop} {P Q : List Nat → α → Prop} {xs ys : List α}

theorem nil (h : ∀ is, ¬D is) : InOrder D P [] :=
  ⟨[], .nil, fun is => ⟨fun hm => absurd hm List.not_mem_nil, fun hd => absurd hd (h is)⟩, .nil⟩

theorem imp (H : InOrder D P xs) (hD : ∀ is, D is ↔ D' is) (hP : ∀ is x, P is x → Q is x) :
    InOrder D' Q xs := by
  obtain ⟨routes, hsorted, hmem, hall⟩ := H
  exact ⟨routes, hsorted, fun is => (hmem is).trans (hD is), hall.imp hP⟩

/-- Something at the empty sequence comes first. -/
theorem root {x : α} (hx : Q [] x) (H : InOrder D Q xs) (hD : ∀ is, D' is ↔ is = [] ∨ D is)
    (hne : ∀ is, D is → is ≠ []) : InOrder D' Q (x :: xs) := by
  obtain ⟨routes, hsorted, hmem, hall⟩ := H
  refine ⟨[] :: routes, List.pairwise_cons.2 ⟨fun is his => ?_, hsorted⟩, fun is => ?_,
    .cons hx hall⟩
  · obtain ⟨i, is, rfl⟩ := List.exists_cons_of_ne_nil (hne is ((hmem is).1 his))
    exact List.nil_lt_cons i is
  · rw [List.mem_cons, hmem, hD]

/-- What is below one child comes before what is below later ones. -/
theorem child {n : Nat} (H : InOrder D P xs) (H' : InOrder D' Q ys)
    (hP : ∀ is x, P is x → Q (n :: is) x)
    (hD : ∀ is, D'' is ↔ (∃ is', is = n :: is' ∧ D is') ∨ D' is)
    (hlater : ∀ is, D' is → ∃ i is', is = i :: is' ∧ n < i) : InOrder D'' Q (xs ++ ys) := by
  obtain ⟨routes, hsorted, hmem, hall⟩ := H
  obtain ⟨routes', hsorted', hmem', hall'⟩ := H'
  refine ⟨routes.map (n :: ·) ++ routes', List.pairwise_append.2 ⟨?_, hsorted', ?_⟩, fun is => ?_,
    List.rel_append (List.forall₂_map_left_iff.2 (hall.imp hP)) hall'⟩
  · exact List.pairwise_map.2 (hsorted.imp List.cons_lt_cons_self.2)
  · intro is his js hjs
    obtain ⟨is, -, rfl⟩ := List.mem_map.1 his
    obtain ⟨j, js, rfl, hj⟩ := hlater js ((hmem' js).1 hjs)
    exact List.cons_lt_cons_iff.2 (.inl hj)
  · rw [List.mem_append, List.mem_map, hmem', hD]
    refine or_congr_left ⟨?_, ?_⟩
    · intro h
      obtain ⟨is, his, rfl⟩ := h
      exact ⟨is, rfl, (hmem is).1 his⟩
    · intro h
      obtain ⟨is, rfl, his⟩ := h
      exact ⟨is, (hmem is).2 his, rfl⟩

theorem ncard_eq (H : InOrder D P xs) : Set.ncard {is | D is} = xs.length := by
  obtain ⟨routes, hsorted, hmem, hall⟩ := H
  have hset : {is | D is} = (routes.toFinset : Set (List Nat)) := by
    ext is
    simp [hmem]
  rw [hset, Set.ncard_coe_finset, List.toFinset_card_of_nodup, hall.length_eq]
  exact hsorted.imp ne_of_lt

theorem exists_mem {is : List Nat} (H : InOrder D P xs) (his : D is) : ∃ x ∈ xs, P is x := by
  obtain ⟨routes, -, hmem, hall⟩ := H
  obtain ⟨n, hn, rfl⟩ := List.mem_iff_getElem.1 ((hmem is).2 his)
  have hn' : n < xs.length := hall.length_eq ▸ hn
  exact ⟨xs[n], List.getElem_mem hn', hall.get hn hn'⟩

theorem exists_of_mem {x : α} (H : InOrder D P xs) (hx : x ∈ xs) : ∃ is, D is ∧ P is x := by
  obtain ⟨routes, -, hmem, hall⟩ := H
  obtain ⟨n, hn, rfl⟩ := List.mem_iff_getElem.1 hx
  have hn' : n < routes.length := hall.length_eq ▸ hn
  exact ⟨routes[n], (hmem _).1 (List.getElem_mem hn'), hall.get hn' hn⟩

/-- What stands between the sequences and the members is a list in the same order. -/
theorem exists_between {β : Type} {P' : List Nat → β → Prop} {R : β → α → Prop}
    (H : InOrder D P xs) (hP : ∀ is x, P is x → ∃ y, P' is y ∧ R y x) :
    ∃ ys, InOrder D P' ys ∧ List.Forall₂ R ys xs := by
  obtain ⟨routes, hsorted, hmem, hall⟩ := H
  suffices h : ∃ ys, List.Forall₂ P' routes ys ∧ List.Forall₂ R ys xs by
    obtain ⟨ys, hys, hxs⟩ := h
    exact ⟨ys, ⟨routes, hsorted, hmem, hys⟩, hxs⟩
  clear hsorted hmem
  induction hall with
  | nil => exact ⟨[], .nil, .nil⟩
  | cons hx _ ih =>
    obtain ⟨y, hy, hyx⟩ := hP _ _ hx
    obtain ⟨ys, hys, hxs⟩ := ih
    exact ⟨y :: ys, .cons hy hys, .cons hyx hxs⟩

end InOrder

/-! ## Paths by child indices -/

namespace Tree

/-- The keys and elements that a sequence of child indices leads through, the start first. -/
def along? (t : Tree) (key : String) : List Nat → Option (List (String × Element))
  | [] => (t.get? key).map fun e => [(key, e)]
  | i :: is => do
    let e ← t.get? key
    let child ← e.childKeys[i]?
    let trail ← t.along? child is
    return (key, e) :: trail

/-- The sequence leads somewhere, and no key comes twice on the way. -/
def IsSimple (t : Tree) (key : String) (is : List Nat) : Prop :=
  ∃ trail, t.along? key is = some trail ∧ (trail.map Prod.fst).Nodup

/-- `v` is the visit of the element that the sequence leads to. -/
def VisitAt (t : Tree) (key : String) (is : List Nat) (v : Visit) : Prop :=
  ∃ trail, t.along? key is = some trail ∧ trail.getLast?.map Prod.snd = some v.element ∧
    v.depth = is.length ∧ v.parent = trail.dropLast.getLast?.map Prod.snd

/-- The sequence leads to an element without repeating a key, and then to a child entry of it,
which is `c`, that names a key on the way. -/
def CutAt (t : Tree) (key : String) (is : List Nat) (c : Cut) : Prop :=
  ∃ front i trail e, is = front ++ [i] ∧ t.along? key front = some trail ∧
    (trail.map Prod.fst).Nodup ∧ trail.getLast? = some (c.parent, e) ∧
    e.childKeys[i]? = some c.child ∧ c.child ∈ trail.map Prod.fst

/-- The sequence leads along `trail`, which repeats no key and meets none of `above`. -/
structure Leads (t : Tree) (above : List String) (key : String) (is : List Nat)
    (trail : List (String × Element)) : Prop where
  along : t.along? key is = some trail
  nodup : (trail.map Prod.fst).Nodup
  avoids : ∀ k ∈ trail.map Prod.fst, k ∉ above

variable {t : Tree} {above : List String} {key child : String} {e : Element} {i : Nat}
  {is : List Nat} {trail : List (String × Element)}

theorem along?_nil_eq_some :
    t.along? key [] = some trail ↔ ∃ e, t.get? key = some e ∧ trail = [(key, e)] := by
  simp [along?, eq_comm]

theorem along?_cons_eq_some :
    t.along? key (i :: is) = some trail ↔ ∃ e child trail', t.get? key = some e ∧
      e.childKeys[i]? = some child ∧ t.along? child is = some trail' ∧
      trail = (key, e) :: trail' := by
  simp only [along?, Option.bind_eq_bind, Option.bind_eq_some_iff, Option.pure_def,
    Option.some.injEq]
  constructor
  · intro h
    obtain ⟨e, he, child, hchild, trail', halong, rfl⟩ := h
    exact ⟨e, child, trail', he, hchild, halong, rfl⟩
  · intro h
    obtain ⟨e, child, trail', he, hchild, halong, rfl⟩ := h
    exact ⟨e, he, child, hchild, trail', halong, rfl⟩

theorem along?_head (h : t.along? key is = some trail) : ∃ e rest, trail = (key, e) :: rest := by
  cases is with
  | nil =>
    obtain ⟨e, -, rfl⟩ := along?_nil_eq_some.1 h
    exact ⟨e, [], rfl⟩
  | cons i is =>
    obtain ⟨e, _, trail, -, -, -, rfl⟩ := along?_cons_eq_some.1 h
    exact ⟨e, trail, rfl⟩

/-- What comes before a way does not change its end. -/
theorem getLast?_cons_along? {p : String × Element} (h : t.along? key is = some trail) :
    (p :: trail).getLast? = trail.getLast? := by
  obtain ⟨e, rest, rfl⟩ := along?_head h
  exact List.getLast?_cons_cons

theorem leads_nil_iff (hget : t.get? key = some e) (hkey : key ∉ above) :
    t.Leads above key [] trail ↔ trail = [(key, e)] := by
  constructor
  · intro H
    obtain ⟨e', he', rfl⟩ := along?_nil_eq_some.1 H.along
    rw [hget] at he'
    cases he'
    rfl
  · rintro rfl
    exact ⟨along?_nil_eq_some.2 ⟨e, hget, rfl⟩, by simp, by simpa using hkey⟩

/-- A path that goes on to a child is a path of the child that avoids the element too. -/
theorem leads_cons_iff (hget : t.get? key = some e) (hkey : key ∉ above) :
    t.Leads above key (i :: is) trail ↔ ∃ child trail', e.childKeys[i]? = some child ∧
      t.Leads (key :: above) child is trail' ∧ trail = (key, e) :: trail' := by
  constructor
  · intro h
    obtain ⟨halong, hnodup, havoids⟩ := h
    obtain ⟨e', child, trail', he', hchild, halong', rfl⟩ := along?_cons_eq_some.1 halong
    rw [hget] at he'
    cases he'
    rw [List.map_cons, List.nodup_cons] at hnodup
    refine ⟨child, trail', hchild, ⟨halong', hnodup.2, fun k hk => ?_⟩, rfl⟩
    rw [List.mem_cons, not_or]
    exact ⟨fun heq => hnodup.1 (heq ▸ hk), havoids k (List.mem_cons_of_mem _ hk)⟩
  · intro h
    obtain ⟨child, trail', hchild, ⟨halong, hnodup, havoids⟩, rfl⟩ := h
    refine ⟨along?_cons_eq_some.2 ⟨e, child, trail', hget, hchild, halong, rfl⟩, ?_, ?_⟩
    · rw [List.map_cons, List.nodup_cons]
      exact ⟨fun hk => havoids key hk List.mem_cons_self, hnodup⟩
    · intro k hk
      rcases List.mem_cons.1 hk with rfl | hk
      · exact hkey
      · exact fun hm => havoids k hk (List.mem_cons_of_mem _ hm)

/-! ## What is met below a path -/

/-- The indices lead from `key` through elements that are not above it, none of them twice. -/
def SimpleFrom (t : Tree) (above : List String) (key : String) (is : List Nat) : Prop :=
  ∃ trail, t.Leads above key is trail

/-- The element that the indices lead to is met as `v` says. -/
def VisitFrom (t : Tree) (above : List String) (parent : Option Element) (key : String)
    (is : List Nat) (v : Visit) : Prop :=
  ∃ trail, t.Leads above key is trail ∧ trail.getLast?.map Prod.snd = some v.element ∧
    v.depth = above.length + is.length ∧
    v.parent = (trail.dropLast.getLast?.map Prod.snd).or parent

/-- The last index leads back to an element of the path or above it. -/
def CutFrom (t : Tree) (above : List String) (key : String) (is : List Nat) (c : Cut) : Prop :=
  ∃ front i trail e, is = front ++ [i] ∧ t.Leads above key front trail ∧
    trail.getLast? = some (c.parent, e) ∧ e.childKeys[i]? = some c.child ∧
    c.child ∈ trail.map Prod.fst ++ above

theorem simpleFrom_cons_iff (hget : t.get? key = some e) (hkey : key ∉ above) :
    t.SimpleFrom above key (i :: is) ↔ ∃ child, e.childKeys[i]? = some child ∧
      t.SimpleFrom (key :: above) child is := by
  simp only [SimpleFrom, leads_cons_iff hget hkey]
  constructor
  · intro h
    obtain ⟨_, child, trail, hchild, H, -⟩ := h
    exact ⟨child, hchild, trail, H⟩
  · intro h
    obtain ⟨child, hchild, trail, H⟩ := h
    exact ⟨_, child, trail, hchild, H, rfl⟩

theorem SimpleFrom.notMem (H : t.SimpleFrom above key is) : key ∉ above := by
  obtain ⟨trail, H⟩ := H
  obtain ⟨e, rest, rfl⟩ := along?_head H.along
  exact H.avoids key List.mem_cons_self

theorem SimpleFrom.get? (H : t.SimpleFrom above key is) : ∃ e, t.get? key = some e := by
  obtain ⟨trail, H⟩ := H
  cases is with
  | nil =>
    obtain ⟨e, he, -⟩ := along?_nil_eq_some.1 H.along
    exact ⟨e, he⟩
  | cons i is =>
    obtain ⟨e, _, _, he, -⟩ := along?_cons_eq_some.1 H.along
    exact ⟨e, he⟩

theorem VisitFrom.cons (hget : t.get? key = some e) (hkey : key ∉ above) {v : Visit}
    {parent : Option Element} (hchild : e.childKeys[i]? = some child)
    (H : t.VisitFrom (key :: above) (some e) child is v) :
    t.VisitFrom above parent key (i :: is) v := by
  obtain ⟨trail, hleads, helement, hdepth, hparent⟩ := H
  obtain ⟨c, rest, rfl⟩ := along?_head hleads.along
  refine ⟨_, (leads_cons_iff hget hkey).2 ⟨child, _, hchild, hleads, rfl⟩, ?_, ?_, ?_⟩
  · rw [List.getLast?_cons_cons, helement]
  · simp only [hdepth, List.length_cons]
    omega
  · rw [hparent, List.dropLast_cons_cons, List.getLast?_cons]
    cases ((child, c) :: rest).dropLast.getLast? <;> rfl

theorem cutFrom_cons_iff (hget : t.get? key = some e) (hkey : key ∉ above) {c : Cut} :
    t.CutFrom above key (i :: is) c ↔ ∃ child, e.childKeys[i]? = some child ∧
      ((is = [] ∧ child ∈ key :: above ∧ c = ⟨key, child⟩) ∨
        t.CutFrom (key :: above) child is c) := by
  constructor
  · intro h
    obtain ⟨front, i', trail, e', heq, H, hlast, hchild, hpath⟩ := h
    cases front with
    | nil =>
      obtain ⟨rfl, rfl⟩ := List.cons.inj heq
      rw [leads_nil_iff hget hkey] at H
      cases H
      cases hlast
      exact ⟨c.child, hchild, .inl ⟨rfl, hpath, rfl⟩⟩
    | cons j front =>
      obtain ⟨rfl, rfl⟩ := List.cons.inj heq
      obtain ⟨child, trail', hchild', H', rfl⟩ := (leads_cons_iff hget hkey).1 H
      rw [getLast?_cons_along? H'.along] at hlast
      refine ⟨child, hchild', .inr ⟨front, i', _, e', rfl, H', hlast, hchild, ?_⟩⟩
      simp only [List.map_cons, List.mem_append, List.mem_cons] at hpath ⊢
      tauto
  · rintro ⟨child, hchild,
      ⟨rfl, hpath, rfl⟩ | ⟨front, i', trail, e', rfl, H, hlast, hchild', hpath⟩⟩
    · exact ⟨[], i, [(key, e)], e, rfl, (leads_nil_iff hget hkey).2 rfl, rfl, hchild, hpath⟩
    · refine ⟨i :: front, i', _, e', rfl,
        (leads_cons_iff hget hkey).2 ⟨child, trail, hchild, H, rfl⟩, ?_, hchild', ?_⟩
      · rw [getLast?_cons_along? H.along, hlast]
      · simp only [List.map_cons, List.mem_append, List.mem_cons] at hpath ⊢
        tauto

theorem CutFrom.ne_nil {c : Cut} (H : t.CutFrom above key is c) : is ≠ [] := by
  obtain ⟨front, i, _, _, rfl, -⟩ := H
  exact List.append_ne_nil_of_right_ne_nil front (List.cons_ne_nil i [])

theorem CutFrom.simpleFrom {c : Cut} (H : t.CutFrom above key is c) :
    ∃ front, t.SimpleFrom above key front := by
  obtain ⟨front, _, trail, _, -, H, -⟩ := H
  exact ⟨front, trail, H⟩

/-- The walk meets, in order, what is below the element of a path, from its `n`-th child on. -/
structure Meets (t : Tree) (above : List String) (key : String) (n : Nat) (w : Walk) : Prop where
  visits (parent : Option Element) :
    InOrder (fun is => (∃ i is', is = i :: is' ∧ n ≤ i) ∧ t.SimpleFrom above key is)
      (t.VisitFrom above parent key) w.visits
  cuts :
    InOrder (fun is => (∃ i is', is = i :: is' ∧ n ≤ i) ∧ ∃ c, t.CutFrom above key is c)
      (t.CutFrom above key) w.cuts

/-- The sequences from the `n`-th child on begin with `n` or a later child. -/
theorem exists_cons_le_iff {n : Nat} {D : List Nat → Prop} {is : List Nat} :
    ((∃ i is', is = i :: is' ∧ n ≤ i) ∧ D is) ↔
      (∃ is', is = n :: is' ∧ D (n :: is')) ∨ ((∃ i is', is = i :: is' ∧ n + 1 ≤ i) ∧ D is) := by
  constructor
  · intro h
    obtain ⟨⟨i, is, rfl, hi⟩, hd⟩ := h
    rcases Nat.eq_or_lt_of_le hi with rfl | hi
    · exact .inl ⟨is, rfl, hd⟩
    · exact .inr ⟨⟨i, is, rfl, hi⟩, hd⟩
  · rintro (⟨is, rfl, hd⟩ | ⟨⟨i, is, rfl, hi⟩, hd⟩)
    · exact ⟨⟨n, is, rfl, Nat.le_refl n⟩, hd⟩
    · exact ⟨⟨i, is, rfl, Nat.le_of_succ_le hi⟩, hd⟩

/-- A child entry of the element `e` is a cut itself, if it names a key of the path. -/
def CutEntry (t : Tree) (above : List String) (key child : String) (is : List Nat) (c : Cut) :
    Prop :=
  (is = [] ∧ child ∈ key :: above ∧ c = ⟨key, child⟩) ∨ t.CutFrom (key :: above) child is c

/-- The walk meets, in order, what is at and below one child entry of the element `e`. -/
structure MeetsEntry (t : Tree) (above : List String) (key : String) (e : Element)
    (child : String) (w : Walk) : Prop where
  visits : InOrder (t.SimpleFrom (key :: above) child)
    (t.VisitFrom (key :: above) (some e) child) w.visits
  cuts : InOrder (fun is => ∃ c, t.CutEntry above key child is c) (t.CutEntry above key child)
    w.cuts

theorem MeetsEntry.cut (hpath : child ∈ key :: above) :
    t.MeetsEntry above key e child ⟨[], [⟨key, child⟩]⟩ where
  visits := .nil fun _ H => H.notMem hpath
  cuts := by
    refine InOrder.root (D := fun _ => False) (.inl ⟨rfl, hpath, rfl⟩) (.nil fun _ => id)
      (fun is => ?_) (fun _ => False.elim)
    rw [or_false]
    constructor
    · intro h
      obtain ⟨c, ⟨hnil, -⟩ | H⟩ := h
      · exact hnil
      · exact absurd hpath H.simpleFrom.choose_spec.notMem
    · exact fun hnil => ⟨_, .inl ⟨hnil, hpath, rfl⟩⟩

theorem MeetsEntry.skip (hpath : child ∉ key :: above) (hget : t.get? child = none) :
    t.MeetsEntry above key e child .none := by
  have hsimple : ∀ is, ¬t.SimpleFrom (key :: above) child is := fun is H => by
    obtain ⟨c, hc⟩ := H.get?
    simp [hget] at hc
  refine ⟨.nil hsimple, .nil ?_⟩
  rintro is ⟨c, ⟨-, hmem, -⟩ | H⟩
  · exact hpath hmem
  · exact hsimple _ H.simpleFrom.choose_spec

/-- The visit of the element itself comes before what is met below it. -/
theorem Meets.visits_root {w : Walk} (H : t.Meets above key 0 w) (hget : t.get? key = some e)
    (hkey : key ∉ above) (parent : Option Element) :
    InOrder (t.SimpleFrom above key) (t.VisitFrom above parent key)
      (⟨e, above.length, parent⟩ :: w.visits) := by
  have hleads := (leads_nil_iff hget hkey).2 rfl
  refine .root ⟨[(key, e)], hleads, rfl, rfl, rfl⟩ (H.visits parent) (fun is => ?_) ?_
  · constructor
    · intro hs
      cases is with
      | nil => exact .inl rfl
      | cons i is => exact .inr ⟨⟨i, is, rfl, Nat.zero_le i⟩, hs⟩
    · rintro (rfl | ⟨-, hs⟩)
      · exact ⟨_, hleads⟩
      · exact hs
  · rintro _ ⟨⟨i, is, rfl, -⟩, -⟩
    exact List.cons_ne_nil i is

theorem Meets.cuts_root {w : Walk} (H : t.Meets above key 0 w) :
    InOrder (fun is => ∃ c, t.CutFrom above key is c) (t.CutFrom above key) w.cuts := by
  refine H.cuts.imp (fun is => ⟨And.right, ?_⟩) (fun _ _ => id)
  intro h
  obtain ⟨c, hc⟩ := h
  obtain ⟨i, is, rfl⟩ := List.exists_cons_of_ne_nil hc.ne_nil
  exact ⟨⟨i, is, rfl, Nat.zero_le i⟩, c, hc⟩

theorem MeetsEntry.enter {c : Element} {w : Walk} (hpath : child ∉ key :: above)
    (hget : t.get? child = some c) (H : t.Meets (key :: above) child 0 w) :
    t.MeetsEntry above key e child (⟨[⟨c, above.length + 1, some e⟩], []⟩ ++ w) where
  visits := H.visits_root hget hpath (some e)
  cuts := by
    refine H.cuts_root.imp (fun is => ⟨fun ⟨c, hc⟩ => ⟨c, .inr hc⟩, ?_⟩) (fun _ _ => .inr)
    intro h
    obtain ⟨c, ⟨-, hmem, -⟩ | hc⟩ := h
    · exact absurd hmem hpath
    · exact ⟨c, hc⟩

theorem Meets.done (hget : t.get? key = some e) (hkey : key ∉ above) {n : Nat}
    (hn : e.childKeys.length ≤ n) : t.Meets above key n .none where
  visits _ := .nil fun _ => by
    intro h
    obtain ⟨⟨i, is, rfl, hi⟩, H⟩ := h
    obtain ⟨child, hchild, -⟩ := (simpleFrom_cons_iff hget hkey).1 H
    have := (List.getElem?_eq_some_iff.1 hchild).1
    omega
  cuts := .nil fun _ => by
    intro h
    obtain ⟨⟨i, is, rfl, hi⟩, c, H⟩ := h
    obtain ⟨child, hchild, -⟩ := (cutFrom_cons_iff hget hkey).1 H
    have := (List.getElem?_eq_some_iff.1 hchild).1
    omega

/-- What is met at one child entry comes before what is met at later ones. -/
theorem Meets.entry {w w' : Walk} {n : Nat} (hget : t.get? key = some e) (hkey : key ∉ above)
    (hchild : e.childKeys[n]? = some child) (H : t.MeetsEntry above key e child w)
    (H' : t.Meets above key (n + 1) w') : t.Meets above key n (w ++ w') where
  visits parent := by
    refine .child H.visits (H'.visits parent)
      (fun _ _ hv => hv.cons hget hkey hchild) (fun is => ?_) ?_
    · rw [exists_cons_le_iff]
      simp only [simpleFrom_cons_iff hget hkey, hchild, Option.some.injEq, exists_eq_left']
    · rintro is ⟨⟨i, is, rfl, hi⟩, -⟩
      exact ⟨i, is, rfl, hi⟩
  cuts := by
    have hcut : ∀ is c, t.CutFrom above key (n :: is) c ↔ t.CutEntry above key child is c := by
      intro is c
      simp only [cutFrom_cons_iff hget hkey, hchild, Option.some.injEq, exists_eq_left', CutEntry]
    refine .child H.cuts H'.cuts (fun is c hc => (hcut is c).2 hc) (fun is => ?_) ?_
    · rw [exists_cons_le_iff (D := fun is => ∃ c, t.CutFrom above key is c)]
      simp only [hcut]
    · rintro is ⟨⟨i, is, rfl, hi⟩, -⟩
      exact ⟨i, is, rfl, hi⟩

end Tree

namespace Walk

variable {t : Tree}

private theorem eq_drop_succ {keys rest : List String} {child : String} {n : Nat}
    (h : child :: rest = keys.drop n) : keys[n]? = some child ∧ rest = keys.drop (n + 1) := by
  rw [← List.head?_drop, ← List.tail_drop, ← h]
  exact ⟨rfl, rfl⟩

theorem meets_follow (above : List String) (key : String) (e : Element) (entries : List String)
    {n : Nat} (hget : t.get? key = some e) (hkey : key ∉ above)
    (hentries : entries = e.childKeys.drop n) :
    t.Meets above key n (follow t above key e entries) := by
  fun_induction follow t above key e entries generalizing n with
  | case1 above key e => exact .done hget hkey (List.drop_eq_nil_iff.1 hentries.symm)
  | case2 above key e child rest hpath ih =>
    obtain ⟨hchild, hrest⟩ := eq_drop_succ hentries
    exact .entry hget hkey hchild (.cut hpath) (ih hget hkey hrest)
  | case3 above key e child rest hpath hnone ih =>
    obtain ⟨hchild, hrest⟩ := eq_drop_succ hentries
    exact .entry hget hkey hchild (.skip hpath hnone) (ih hget hkey hrest)
  | case4 above key e child rest hpath c hc ihc ih =>
    obtain ⟨hchild, hrest⟩ := eq_drop_succ hentries
    exact .entry hget hkey hchild (.enter hpath hc (ihc hc hpath rfl)) (ih hget hkey hrest)

/-- The walk has a visit for each sequence of child indices from the key that repeats no key, and
a cut for each that then goes back to the path, in the order of the sequences. -/
structure Covers (t : Tree) (key : String) (w : Walk) : Prop where
  visits : InOrder (t.IsSimple key) (t.VisitAt key) w.visits
  cuts : InOrder (fun is => ∃ c, t.CutAt key is c) (t.CutAt key) w.cuts

theorem covers_descend {key : String} {e : Element} (hget : t.get? key = some e) :
    (descend t [] key e .none).Covers t key := by
  have H := meets_follow [] key e e.childKeys hget List.not_mem_nil (n := 0) rfl
  constructor
  · refine (H.visits_root hget List.not_mem_nil .none).imp (fun is => ?_) (fun is v => ?_)
    · constructor
      · intro h
        obtain ⟨trail, h⟩ := h
        exact ⟨trail, h.along, h.nodup⟩
      · intro h
        obtain ⟨trail, halong, hnodup⟩ := h
        exact ⟨trail, halong, hnodup, fun _ _ => List.not_mem_nil⟩
    · intro h
      obtain ⟨trail, h, helement, hdepth, hparent⟩ := h
      refine ⟨trail, h.along, helement, ?_, ?_⟩
      · simpa using hdepth
      · simpa using hparent
  · have hcut : ∀ is c, t.CutFrom [] key is c ↔ t.CutAt key is c := by
      intro is c
      constructor
      · intro h
        obtain ⟨front, i, trail, e', his, h, hlast, hchild, hpath⟩ := h
        exact ⟨front, i, trail, e', his, h.along, h.nodup, hlast, hchild, by simpa using hpath⟩
      · intro h
        obtain ⟨front, i, trail, e', his, halong, hnodup, hlast, hchild, hpath⟩ := h
        exact ⟨front, i, trail, e', his, ⟨halong, hnodup, fun _ _ => List.not_mem_nil⟩, hlast,
          hchild, by simpa using hpath⟩
    exact H.cuts_root.imp (fun is => exists_congr (hcut is)) (fun is c => (hcut is c).1)

end Walk

/-- The walk meets what the index sequences from its start say, and is the recursive walk that
carries the keys of the path. Without a start it meets nothing. -/
theorem Tree.walk_covers (t : Tree) (start : Option String) :
    match t.walkStart? start with
    | some key =>
      (∃ e, t.get? key = some e ∧ t.walk start = Walk.descend t [] key e none) ∧
        (t.walk start).Covers t key ∧
        (t.walk start).visits.length = Set.ncard {is | t.IsSimple key is}
    | none => t.walk start = Walk.none := by
  split
  · next key hstart =>
    obtain ⟨e, hget, hwalk⟩ := walk_eq_descend hstart
    have H := Walk.covers_descend hget
    rw [← hwalk] at H
    exact ⟨⟨e, hget, hwalk⟩, H, H.visits.ncard_eq.symm⟩
  · next hstart => exact walk_eq_none hstart

end StreamedUi
