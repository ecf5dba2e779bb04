import StreamedUi.Proofs.OrderedMap
import StreamedUi.Proofs.Walk.Reachable
import StreamedUi.Proofs.Walk.Routes

/-! What the cuts of a walk say about cycles. A route that repeats a key goes back to itself at some
first child entry, which is a cut (`Tree.isSimple_or_cutAt`), so a cycle that can be reached from
the start is met somewhere, however far away it is. `Unfolds` is the walk without any guard, which
ends exactly if there is no such cycle, and then meets what the guarded walk meets. The walk reports
exactly the cycles and visits exactly the keys that can be reached (`Tree.walk_exact`). -/

namespace StreamedUi

open Relation

namespace Tree

variable {t : Tree} {key k : String} {e : Element} {i : Nat} {is : List Nat}
  {trail : List (String × Element)} {p : String × Element}

/-! ## Routes -/

/-- The sequence leads somewhere, whether or not a key comes twice on the way. -/
def IsRoute (t : Tree) (key : String) (is : List Nat) : Prop :=
  ∃ trail, t.along? key is = some trail

/-- The sequence leads to the key `k`. -/
def EndsAt (t : Tree) (key : String) (is : List Nat) (k : String) : Prop :=
  ∃ trail, t.along? key is = some trail ∧ trail.getLast?.map Prod.fst = some k

/-- Child entries lead from the key back to it. -/
def OnCycle (t : Tree) (key : String) : Prop := TransGen t.Refers key key

/-- The last index leads from the last element on the way to a child that is there. -/
theorem along?_concat_eq_some :
    t.along? key (is ++ [i]) = some trail ↔ ∃ front parent e child c,
      t.along? key is = some front ∧ front.getLast? = some (parent, e) ∧
      e.childKeys[i]? = some child ∧ t.get? child = some c ∧ trail = front ++ [(child, c)] := by
  induction is generalizing key trail with
  | nil =>
    rw [List.nil_append, along?_cons_eq_some]
    constructor
    · intro h
      obtain ⟨e, child, trail', he, hchild, halong, rfl⟩ := h
      obtain ⟨c, hc, rfl⟩ := along?_nil_eq_some.1 halong
      exact ⟨_, _, _, child, c, along?_nil_eq_some.2 ⟨e, he, rfl⟩, rfl, hchild, hc, rfl⟩
    · intro h
      obtain ⟨front, parent, e, child, c, halong, hlast, hchild, hc, rfl⟩ := h
      obtain ⟨e', he', rfl⟩ := along?_nil_eq_some.1 halong
      cases hlast
      exact ⟨_, child, _, he', hchild, along?_nil_eq_some.2 ⟨c, hc, rfl⟩, rfl⟩
  | cons j is ih =>
    rw [List.cons_append, along?_cons_eq_some]
    constructor
    · intro h
      obtain ⟨e, next, trail', he, hnext, halong, rfl⟩ := h
      obtain ⟨front, parent, e', child, c, hfront, hlast, hchild, hc, rfl⟩ := ih.1 halong
      refine ⟨(key, e) :: front, parent, e', child, c,
        along?_cons_eq_some.2 ⟨e, next, front, he, hnext, hfront, rfl⟩, ?_, hchild, hc, rfl⟩
      rw [getLast?_cons_along? hfront, hlast]
    · intro h
      obtain ⟨_, parent, e', child, c, halong, hlast, hchild, hc, rfl⟩ := h
      obtain ⟨e, next, front, he, hnext, hfront, rfl⟩ := along?_cons_eq_some.1 halong
      rw [getLast?_cons_along? hfront] at hlast
      have hrest := ih.2 ⟨front, parent, e', child, c, hfront, hlast, hchild, hc, rfl⟩
      exact ⟨e, next, _, he, hnext, hrest, rfl⟩

/-- What is on the way is there, and is on the way from the key. -/
theorem get?_of_mem_along? (h : t.along? key is = some trail) (hp : p ∈ trail) :
    t.get? p.1 = some p.2 ∧ ReflTransGen t.Refers key p.1 := by
  induction is generalizing key trail p with
  | nil =>
    obtain ⟨e, he, rfl⟩ := along?_nil_eq_some.1 h
    cases List.mem_singleton.1 hp
    exact ⟨he, .refl⟩
  | cons i is ih =>
    obtain ⟨e, child, trail', he, hchild, halong, rfl⟩ := along?_cons_eq_some.1 h
    rcases List.mem_cons.1 hp with rfl | hp
    · exact ⟨he, .refl⟩
    · obtain ⟨hget, hway⟩ := ih halong hp
      obtain ⟨c, rest, rfl⟩ := along?_head halong
      have hthere := (ih halong List.mem_cons_self).1
      exact ⟨hget, .head ⟨e, he, List.mem_of_getElem? hchild, c, hthere⟩ hway⟩

/-- The way to anything on the way is a part of it. -/
theorem exists_along?_of_mem (h : t.along? key is = some trail) (hp : p ∈ trail) :
    ∃ front trail', front <+: is ∧ t.along? key front = some trail' ∧ trail' <+: trail ∧
      trail'.getLast? = some p := by
  induction is using List.reverseRecOn generalizing trail with
  | nil =>
    obtain ⟨e, he, rfl⟩ := along?_nil_eq_some.1 h
    cases List.mem_singleton.1 hp
    exact ⟨[], _, List.prefix_rfl, h, List.prefix_rfl, rfl⟩
  | append_singleton is i ih =>
    obtain ⟨trail, parent, e, child, c, halong, -, -, -, rfl⟩ := along?_concat_eq_some.1 h
    rcases List.mem_append.1 hp with hp | hp
    · obtain ⟨front, trail', hpart, hfront, hprefix, hlast⟩ := ih halong hp
      exact ⟨front, trail', hpart.trans (List.prefix_append _ _), hfront,
        hprefix.trans (List.prefix_append _ _), hlast⟩
    · cases List.mem_singleton.1 hp
      exact ⟨is ++ [i], _, List.prefix_rfl, h, List.prefix_rfl, List.getLast?_concat⟩

/-- A route goes on along a reference. -/
theorem along?_refers (h : t.along? key is = some trail) (hlast : trail.getLast? = some p)
    (hrefers : t.Refers p.1 k) :
    ∃ i c, t.along? key (is ++ [i]) = some (trail ++ [(k, c)]) := by
  obtain ⟨e, he, hk, c, hc⟩ := hrefers
  obtain rfl : e = p.2 := by
    have hp := (get?_of_mem_along? h (List.mem_of_getLast? hlast)).1
    exact Option.some.inj (he.symm.trans hp)
  obtain ⟨i, hi⟩ := List.mem_iff_getElem?.1 hk
  exact ⟨i, c, along?_concat_eq_some.2 ⟨trail, p.1, p.2, k, c, h, hlast, hi, hc, rfl⟩⟩

/-- From anything on the way, the rest of it leads to its end. -/
theorem reflTransGen_getLast (h : t.along? key is = some trail) (hp : p ∈ trail)
    {last : String × Element} (hlast : trail.getLast? = some last) :
    ReflTransGen t.Refers p.1 last.1 := by
  induction is using List.reverseRecOn generalizing trail last with
  | nil =>
    obtain ⟨e, he, rfl⟩ := along?_nil_eq_some.1 h
    cases List.mem_singleton.1 hp
    cases hlast
    exact .refl
  | append_singleton is i ih =>
    obtain ⟨front, parent, e, child, c, halong, hparent, hchild, hc, rfl⟩ :=
      along?_concat_eq_some.1 h
    rw [List.getLast?_concat] at hlast
    cases hlast
    rcases List.mem_append.1 hp with hp | hp
    · have hget := (get?_of_mem_along? halong (List.mem_of_getLast? hparent)).1
      exact (ih halong hp hparent).tail ⟨e, hget, List.mem_of_getElem? hchild, c, hc⟩
    · cases List.mem_singleton.1 hp
      exact .refl

/-! ## Simple routes -/

theorem IsSimple.isRoute (h : t.IsSimple key is) : t.IsRoute key is := by
  obtain ⟨trail, halong, -⟩ := h
  exact ⟨trail, halong⟩

/-- A way stays simple if it goes on to a key that is not on it. -/
theorem nodup_concat_iff {front : List (String × Element)} :
    ((front ++ [p]).map Prod.fst).Nodup ↔
      p.1 ∉ front.map Prod.fst ∧ (front.map Prod.fst).Nodup := by
  rw [List.map_append, List.map_singleton, ← List.concat_eq_append, List.nodup_concat]

/-- A route that is not simple goes back to itself, first where it is cut. -/
theorem isSimple_or_cutAt (h : t.IsRoute key is) :
    t.IsSimple key is ∨ ∃ front c, front <+: is ∧ t.CutAt key front c := by
  induction is using List.reverseRecOn with
  | nil =>
    obtain ⟨trail, halong⟩ := h
    obtain ⟨e, he, rfl⟩ := along?_nil_eq_some.1 halong
    exact .inl ⟨_, halong, List.nodup_singleton _⟩
  | append_singleton is i ih =>
    obtain ⟨trail, halong⟩ := h
    obtain ⟨front, parent, e, child, c, hfront, hlast, hchild, hc, rfl⟩ :=
      along?_concat_eq_some.1 halong
    rcases ih ⟨front, hfront⟩ with ⟨front', hfront', hnodup⟩ | ⟨front', cut, hprefix, hcut⟩
    · obtain rfl : front = front' := Option.some.inj (hfront.symm.trans hfront')
      by_cases hback : child ∈ front.map Prod.fst
      · exact .inr ⟨is ++ [i], ⟨parent, child⟩, List.prefix_rfl, is, i, front, e, rfl, hfront,
          hnodup, hlast, hchild, hback⟩
      · exact .inl ⟨_, halong, nodup_concat_iff.2 ⟨hback, hnodup⟩⟩
    · exact .inr ⟨front', cut, hprefix.trans (List.prefix_append _ _), hcut⟩

/-- Whatever can be reached is at the end of a simple route. -/
theorem exists_isSimple_endsAt (h : t.Reaches key k) :
    ∃ is, t.IsSimple key is ∧ t.EndsAt key is k := by
  obtain ⟨⟨e, he⟩, hway⟩ := h
  induction hway with
  | refl =>
    have halong := along?_nil_eq_some.2 ⟨e, he, rfl⟩
    exact ⟨[], ⟨_, halong, List.nodup_singleton _⟩, _, halong, rfl⟩
  | @tail mid target _ hrefers ih =>
    obtain ⟨is, ⟨trail, halong, hnodup⟩, ⟨trail', halong', hlast⟩⟩ := ih
    obtain rfl : trail' = trail := Option.some.inj (halong'.symm.trans halong)
    obtain ⟨p, hp, rfl⟩ := Option.map_eq_some_iff.1 hlast
    by_cases hback : target ∈ trail'.map Prod.fst
    · obtain ⟨q, hq, rfl⟩ := List.mem_map.1 hback
      obtain ⟨front, part, -, hfront, hpart, hlast'⟩ := exists_along?_of_mem halong hq
      refine ⟨front, ⟨part, hfront, ?_⟩, part, hfront, ?_⟩
      · exact hnodup.sublist (hpart.sublist.map _)
      · rw [hlast']
        rfl
    · obtain ⟨i, c, hnext⟩ := along?_refers halong hp hrefers
      refine ⟨is ++ [i], ⟨_, hnext, nodup_concat_iff.2 ⟨hback, hnodup⟩⟩, _, hnext, ?_⟩
      rw [List.getLast?_concat]
      rfl

/-- A route goes on as far as references lead. -/
theorem along?_transGen (h : t.along? key is = some trail) (hlast : trail.getLast? = some p)
    (hway : TransGen t.Refers p.1 k) :
    ∃ is' trail' c, trail <+: trail' ∧ t.along? key is' = some (trail' ++ [(k, c)]) := by
  induction hway with
  | single hrefers =>
    obtain ⟨i, c, hnext⟩ := along?_refers h hlast hrefers
    exact ⟨_, trail, c, List.prefix_rfl, hnext⟩
  | tail _ hrefers ih =>
    obtain ⟨is', trail', c, hprefix, halong⟩ := ih
    obtain ⟨i, c', hnext⟩ := along?_refers halong List.getLast?_concat hrefers
    exact ⟨_, _, c', hprefix.trans (List.prefix_append _ _), hnext⟩

/-! ## Cuts and cycles -/

/-- A cut closes a cycle. -/
theorem CutAt.onCycle {c : Cut} (h : t.CutAt key is c) :
    t.Reaches key c.parent ∧ t.Refers c.parent c.child ∧ t.OnCycle c.child := by
  obtain ⟨front, i, trail, e, -, halong, -, hlast, hchild, hback⟩ := h
  obtain ⟨q, hq, hqchild⟩ := List.mem_map.1 hback
  obtain ⟨hparent, hway⟩ := get?_of_mem_along? halong (List.mem_of_getLast? hlast)
  obtain ⟨hthere, -⟩ := get?_of_mem_along? halong hq
  have hrefers : t.Refers c.parent c.child :=
    ⟨e, hparent, List.mem_of_getElem? hchild, q.2, hqchild ▸ hthere⟩
  have hclose : ReflTransGen t.Refers c.child c.parent :=
    hqchild ▸ reflTransGen_getLast halong hq hlast
  obtain ⟨e', rest, rfl⟩ := along?_head halong
  have hstart := (get?_of_mem_along? halong List.mem_cons_self).1
  exact ⟨⟨⟨e', hstart⟩, hway⟩, hrefers, .tail' hclose hrefers⟩

/-- A cycle that can be reached is cut somewhere. -/
theorem exists_cutAt (h : t.Reaches key k) (hcycle : t.OnCycle k) : ∃ is c, t.CutAt key is c := by
  obtain ⟨is, -, trail, halong, hlast⟩ := exists_isSimple_endsAt h
  obtain ⟨p, hp, rfl⟩ := Option.map_eq_some_iff.1 hlast
  obtain ⟨is', trail', c, hprefix, haround⟩ := along?_transGen halong hp hcycle
  rcases isSimple_or_cutAt ⟨_, haround⟩ with ⟨whole, hwhole, hnodup⟩ | ⟨front, cut, -, hcut⟩
  · obtain rfl := Option.some.inj (haround.symm.trans hwhole)
    have hmem : p ∈ trail' := hprefix.subset (List.mem_of_getLast? hp)
    exact absurd (List.mem_map_of_mem hmem) (nodup_concat_iff.1 hnodup).1
  · exact ⟨front, cut, hcut⟩

/-! ## The walk without a guard -/

/-- The depth-first walk that goes on wherever child entries lead, from these keys. On a cycle it
would not end. -/
inductive Unfolds (t : Tree) : Nat → Option Element → List String → List Visit → Prop
  | done {depth parent} : Unfolds t depth parent [] []
  | missing {depth parent key rest visits} : t.get? key = none →
    Unfolds t depth parent rest visits → Unfolds t depth parent (key :: rest) visits
  | enter {depth parent key rest e below later} : t.get? key = some e →
    Unfolds t (depth + 1) (some e) e.childKeys below → Unfolds t depth parent rest later →
    Unfolds t depth parent (key :: rest) (⟨e, depth, parent⟩ :: below ++ later)

namespace Unfolds

variable {depth : Nat} {parent : Option Element} {keys : List String} {visits visits' : List Visit}

theorem unique (h : t.Unfolds depth parent keys visits) (h' : t.Unfolds depth parent keys visits') :
    visits = visits' := by
  induction h generalizing visits' with
  | done => cases h'; rfl
  | missing hnone _ ih =>
    cases h' with
    | missing _ hrest => exact ih hrest
    | enter hsome => simp [hnone] at hsome
  | enter hsome _ _ ihbelow ih =>
    cases h' with
    | missing hnone => simp [hsome] at hnone
    | enter hsome' hbelow hrest =>
      cases hsome.symm.trans hsome'
      rw [ihbelow hbelow, ih hrest]

/-- Where it ends, references do not go on for ever. -/
theorem acc (h : t.Unfolds depth parent keys visits) :
    ∀ key ∈ keys, Acc (Function.swap t.Refers) key := by
  induction h with
  | done => exact nofun
  | missing hnone _ ih =>
    refine List.forall_mem_cons.2 ⟨.intro _ fun child hrefers => ?_, ih⟩
    obtain ⟨e, he, -⟩ := hrefers
    simp [hnone] at he
  | enter hsome _ _ ihbelow ih =>
    refine List.forall_mem_cons.2 ⟨.intro _ fun child hrefers => ?_, ih⟩
    obtain ⟨e, he, hchild, -⟩ := hrefers
    cases hsome.symm.trans he
    exact ihbelow child hchild

end Unfolds

/-- Where references do not go on for ever, none leads into a cycle. -/
theorem not_onCycle_of_acc (h : Acc (Function.swap t.Refers) key)
    (hway : ReflTransGen t.Refers key k) : ¬t.OnCycle k := by
  have hk : Acc (TransGen (Function.swap t.Refers)) k := by
    induction hway with
    | refl => exact h.transGen
    | tail _ hrefers ih => exact ih.inv (.single hrefers)
  clear hway
  induction hk with
  | intro k _ ih =>
    intro hcycle
    exact ih k (transGen_swap.2 hcycle) hcycle

end Tree

namespace Walk

open StreamedUi.Tree

variable {t : Tree}

/-- A walk that cuts nothing would have been the same without a guard. -/
theorem unfolds_follow (above : List String) (key : String) (e : Element) (entries : List String)
    (hcuts : (follow t above key e entries).cuts = []) :
    t.Unfolds (above.length + 1) (some e) entries (follow t above key e entries).visits := by
  fun_induction follow t above key e entries with
  | case1 => exact .done
  | case2 above key e child rest hpath ih => cases hcuts
  | case3 above key e child rest hpath hnone ih => exact .missing hnone (ih hcuts)
  | case4 above key e child rest hpath c hc ihc ih =>
    obtain ⟨hbelow, hlater⟩ := List.append_eq_nil_iff.1 hcuts
    exact .enter hc (ihc hbelow) (ih hlater)

/-- The walk from the key reports cycles exactly, and visits exactly what can be reached. -/
structure Exact (t : Tree) (key : String) (w : Walk) : Prop where
  /-- Nothing is cut exactly if no key on a cycle can be reached. -/
  cuts_eq_nil_iff : w.cuts = [] ↔ ∀ k, t.Reaches key k → ¬t.OnCycle k
  /-- What is cut is an entry that can be reached and closes a cycle. -/
  onCycle : ∀ c ∈ w.cuts,
    t.Reaches key c.parent ∧ t.Refers c.parent c.child ∧ t.OnCycle c.child
  /-- The walk without a guard ends exactly if nothing is cut, and makes the same visits then. -/
  unfolds_iff : ∀ visits, t.Unfolds 0 .none [key] visits ↔ w.cuts = [] ∧ visits = w.visits
  /-- There is then one visit for each route, in order. -/
  routes : w.cuts = [] → InOrder (t.IsRoute key) (t.VisitAt key) w.visits
  /-- The keys of the visits, in their order, are the keys that can be reached. -/
  keys : ∃ keys, InOrder (t.IsSimple key) (t.EndsAt key) keys ∧
    List.Forall₂ (fun k v => t.get? k = some v.element) keys w.visits ∧
    ∀ k, k ∈ keys ↔ t.Reaches key k
  /-- Elements that know their keys are visited with them. -/
  elements : (∀ k e, t.get? k = some e → e.key = k) →
    ∀ k, k ∈ w.visits.map (·.element.key) ↔ t.Reaches key k

namespace Covers

variable {key : String} {w : Walk}

theorem cuts_eq_nil_iff (H : w.Covers t key) :
    w.cuts = [] ↔ ∀ k, t.Reaches key k → ¬t.OnCycle k := by
  constructor
  · intro hnil k hk hcycle
    obtain ⟨is, c, hcut⟩ := exists_cutAt hk hcycle
    obtain ⟨c', hmem, -⟩ := H.cuts.exists_mem ⟨c, hcut⟩
    exact absurd hmem (hnil ▸ List.not_mem_nil)
  · intro hacyclic
    refine List.eq_nil_iff_forall_not_mem.2 fun c hc => ?_
    obtain ⟨is, -, hcut⟩ := H.cuts.exists_of_mem hc
    obtain ⟨⟨hstart, hway⟩, hrefers, hcycle⟩ := hcut.onCycle
    exact hacyclic c.child ⟨hstart, hway.tail hrefers⟩ hcycle

/-- Without a cut, each route is simple. -/
theorem isRoute_iff (H : w.Covers t key) (hnil : w.cuts = []) (is : List Nat) :
    t.IsSimple key is ↔ t.IsRoute key is := by
  refine ⟨IsSimple.isRoute, fun h => ?_⟩
  rcases isSimple_or_cutAt h with hsimple | ⟨front, c, -, hcut⟩
  · exact hsimple
  · obtain ⟨c', hmem, -⟩ := H.cuts.exists_mem ⟨c, hcut⟩
    exact absurd hmem (hnil ▸ List.not_mem_nil)

theorem exists_keys (H : w.Covers t key) :
    ∃ keys, InOrder (t.IsSimple key) (t.EndsAt key) keys ∧
      List.Forall₂ (fun k v => t.get? k = some v.element) keys w.visits ∧
      ∀ k, k ∈ keys ↔ t.Reaches key k := by
  have hends : ∀ is v, t.VisitAt key is v →
      ∃ k, t.EndsAt key is k ∧ t.get? k = some v.element := by
    intro is v h
    obtain ⟨trail, halong, hlast, -⟩ := h
    obtain ⟨p, hp, hpv⟩ := Option.map_eq_some_iff.1 hlast
    refine ⟨p.1, ⟨trail, halong, by rw [hp]; rfl⟩, ?_⟩
    rw [← hpv]
    exact (get?_of_mem_along? halong (List.mem_of_getLast? hp)).1
  obtain ⟨keys, hkeys, helements⟩ := H.visits.exists_between hends
  refine ⟨keys, hkeys, helements, fun k => ⟨fun hk => ?_, fun hk => ?_⟩⟩
  · obtain ⟨is, -, trail, halong, hlast⟩ := hkeys.exists_of_mem hk
    obtain ⟨p, hp, rfl⟩ := Option.map_eq_some_iff.1 hlast
    obtain ⟨e, rest, rfl⟩ := along?_head halong
    have hstart := (get?_of_mem_along? halong List.mem_cons_self).1
    exact ⟨⟨e, hstart⟩, (get?_of_mem_along? halong (List.mem_of_getLast? hp)).2⟩
  · obtain ⟨is, hsimple, trail, halong, hlast⟩ := exists_isSimple_endsAt hk
    obtain ⟨k', hmem, trail', halong', hlast'⟩ := hkeys.exists_mem hsimple
    obtain rfl : trail' = trail := Option.some.inj (halong'.symm.trans halong)
    cases hlast.symm.trans hlast'
    exact hmem

end Covers

theorem exact_descend {key : String} {e : Element} (hget : t.get? key = some e) :
    (descend t [] key e .none).Exact t key := by
  have H := covers_descend hget
  generalize hw : descend t [] key e .none = w at H
  refine ⟨H.cuts_eq_nil_iff, ?onCycle, ?unfolds, ?routes, H.exists_keys, ?elements⟩
  case onCycle =>
    intro c hc
    obtain ⟨is, -, hcut⟩ := H.cuts.exists_of_mem hc
    exact hcut.onCycle
  case routes => exact fun hnil => H.visits.imp (H.isRoute_iff hnil) fun _ _ => id
  case elements =>
    intro hknown k
    obtain ⟨keys, -, helements, hkeys⟩ := H.exists_keys
    have hsame : List.Forall₂ Eq keys (w.visits.map (·.element.key)) :=
      List.forall₂_map_right_iff.2 (helements.imp fun k v hk => (hknown k v.element hk).symm)
    rw [List.forall₂_eq_eq_eq] at hsame
    rw [← hsame, hkeys]
  case unfolds =>
    have hself : w.cuts = [] → t.Unfolds 0 .none [key] w.visits := by
      intro hnil
      subst hw
      have hbelow := unfolds_follow [] key e e.childKeys hnil
      have hunfolds : t.Unfolds 0 .none [key] (⟨e, 0, .none⟩ :: _ ++ []) :=
        .enter hget hbelow .done
      rwa [List.append_nil] at hunfolds
    intro visits
    constructor
    · intro hunfolds
      have hnil : w.cuts = [] := H.cuts_eq_nil_iff.2 fun k hk =>
        not_onCycle_of_acc (hunfolds.acc key List.mem_cons_self) hk.2
      exact ⟨hnil, hunfolds.unique (hself hnil)⟩
    · rintro ⟨hnil, rfl⟩
      exact hself hnil

end Walk

/-- From a start that is there, the walk reports a cut exactly if a cycle can be reached, reports
only entries that close cycles, and visits the keys that can be reached. Without a cycle it is the
walk without a guard. -/
theorem Tree.walk_exact (t : Tree) (start : Option String) {root : String} {e : Element}
    (hroot : t.root = some root) (hget : t.get? (start.getD root) = some e) :
    (t.walk start).Exact t (start.getD root) := by
  have hstart : t.walkStart? start = some (start.getD root) := by
    simp [walkStart?, hroot, hget]
  obtain ⟨e', hget', hwalk⟩ := walk_eq_descend hstart
  exact hwalk ▸ Walk.exact_descend hget'

namespace Tree

/-- A page with one child in two places. -/
def pageElement : Element := { key := "page", kind := "Stack", children := some ["list", "list"] }

/-- A list that is a child of its own. -/
def listElement : Element := { key := "list", kind := "Card", children := some ["list"] }

/-- A page that has a list twice, which has itself as a child. -/
def listTree : Tree where
  root := some "page"
  elements := (∅ : OrderedMap Element).insert "page" pageElement |>.insert "list" listElement

theorem get?_listTree (k : String) : listTree.get? k =
    if "list" = k then some listElement else if "page" = k then some pageElement else none := by
  simp only [listTree, get?, OrderedMap.get?_insert, OrderedMap.get?_empty]

/-- The list is on a cycle, so something is cut, but both elements are visited. -/
theorem walk_exact_list :
    let w := listTree.walk none
    listTree.root = some "page" ∧ listTree.get? "page" = some pageElement ∧
      listTree.OnCycle "list" ∧ w.cuts ≠ [] ∧ "list" ∈ w.visits.map (·.element.key) := by
  have hpage : listTree.get? "page" = some pageElement := get?_listTree "page"
  have hlist : listTree.get? "list" = some listElement := get?_listTree "list"
  have hknown : ∀ k e, listTree.get? k = some e → e.key = k := by
    intro k e hget
    rw [get?_listTree] at hget
    split at hget
    case isTrue h => cases hget; exact h
    case isFalse =>
      split at hget
      case isTrue h => cases hget; exact h
      case isFalse => cases hget
  have hreaches : listTree.Reaches "page" "list" :=
    ⟨⟨_, hpage⟩, .single ⟨_, hpage, List.mem_cons_self, _, hlist⟩⟩
  have hcycle : listTree.OnCycle "list" :=
    .single ⟨_, hlist, List.mem_cons_self, _, hlist⟩
  have H := walk_exact listTree none rfl hpage
  refine ⟨rfl, hpage, hcycle, fun hnil => ?_, (H.elements hknown "list").2 hreaches⟩
  exact H.cuts_eq_nil_iff.1 hnil "list" hreaches hcycle

end Tree

end StreamedUi
