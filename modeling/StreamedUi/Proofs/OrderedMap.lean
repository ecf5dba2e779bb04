import Mathlib.Data.List.Nodup
import StreamedUi.OrderedMap

/-! The entries of an ordered map. They determine it (`ext_toList`), no key comes twice
(`nodup_keys`), and a map is built again from its entries (`ofList_toList`). So do the keys together
with what is found under them (`ext_get?`); an insertion changes neither but at its own key
(`keys_insert`, `get?_insert`). -/

namespace StreamedUi

namespace OrderedMap

universe u

variable {α : Type u} {m m' : OrderedMap α} {k : String} {v : α}

local instance equivBEqKey : EquivBEq String := instEquivBEqOfLawfulBEq

theorem ext_toList (h : m.toList = m'.toList) : m = m' := by
  obtain ⟨entries, index, hindex⟩ := m
  obtain ⟨entries', index', hindex'⟩ := m'
  obtain rfl : entries = entries' := Array.toList_inj.1 h
  obtain rfl : index = index' := Std.ExtHashMap.ext_getElem? fun k => Option.ext fun i =>
    (hindex k i).trans (hindex' k i).symm
  rfl

theorem index_eq_some_iff_keys {i : Nat} :
    m.index[k]? = some i ↔ (m.toList.map Prod.fst)[i]? = some k := by
  rw [m.index_eq_some_iff, toList, List.getElem?_map, Array.getElem?_toList]

theorem nodup_keys (m : OrderedMap α) : (m.toList.map Prod.fst).Nodup := by
  rw [List.nodup_iff_getElem?_ne_getElem?]
  intro i j hij hj heq
  have hkey := List.getElem?_eq_getElem hj
  have hi := index_eq_some_iff_keys.2 (heq.trans hkey)
  rw [index_eq_some_iff_keys.2 hkey] at hi
  exact Nat.ne_of_lt hij (Option.some.inj hi).symm

theorem index_eq_none_of_notMem (h : k ∉ m.toList.map Prod.fst) : m.index[k]? = none :=
  Option.eq_none_iff_forall_ne_some.2 fun _ hi =>
    h (List.mem_of_getElem? (index_eq_some_iff_keys.1 hi))

theorem toList_insert_of_notMem (h : k ∉ m.toList.map Prod.fst) (v : α) :
    (m.insert k v).toList = m.toList ++ [(k, v)] := by
  have hnone := index_eq_none_of_notMem h
  unfold insert
  split
  next i hi =>
    rw [hnone] at hi
    cases hi
  next => exact Array.toList_push

theorem mem_toList_insert {e : String × α} (h : e ∈ (m.insert k v).toList) :
    e ∈ m.toList ∨ e = (k, v) := by
  unfold insert at h
  split at h
  next i hi =>
    rw [toList, Array.toList_setIfInBounds] at h
    exact List.mem_or_eq_of_mem_set h
  next =>
    rw [toList, Array.toList_push, List.mem_append, List.mem_singleton] at h
    exact h

/-! ## Keys and look-ups -/

/-- The keys in the order in which they first came. -/
def keys (m : OrderedMap α) : List String := m.toList.map Prod.fst

theorem get?_eq_some_iff : m.get? k = some v ↔ (k, v) ∈ m.toList := by
  constructor
  · exact mem_toList_of_get?
  · intro h
    obtain ⟨i, hi⟩ := List.mem_iff_getElem?.1 h
    have hindex : m.index[k]? = some i := by
      rw [index_eq_some_iff_keys, List.getElem?_map, hi]
      rfl
    rw [toList, Array.getElem?_toList] at hi
    rw [get?, hindex, Option.bind_some, hi]
    rfl

theorem get?_eq_none_iff : m.get? k = none ↔ k ∉ m.keys := by
  rw [keys, List.mem_map, Option.eq_none_iff_forall_ne_some]
  constructor
  · rintro h ⟨⟨k, v⟩, he, rfl⟩
    exact h v (get?_eq_some_iff.2 he)
  · intro h v hv
    exact h ⟨(k, v), get?_eq_some_iff.1 hv, rfl⟩

theorem mem_keys_of_get? (h : m.get? k = some v) : k ∈ m.keys :=
  List.mem_map_of_mem (mem_toList_of_get? h)

theorem length_keys (m : OrderedMap α) : m.keys.length = m.size := List.length_map Prod.fst

@[simp] theorem keys_empty : (∅ : OrderedMap α).keys = [] := rfl

@[simp] theorem get?_empty (k : String) : (∅ : OrderedMap α).get? k = none :=
  get?_eq_none_iff.2 List.not_mem_nil

theorem keys_insert (m : OrderedMap α) (k : String) (v : α) :
    (m.insert k v).keys = if k ∈ m.keys then m.keys else m.keys ++ [k] := by
  split
  · next hk =>
    obtain ⟨i, hi⟩ := List.mem_iff_getElem?.1 hk
    have hindex := index_eq_some_iff_keys.2 hi
    unfold insert
    split
    · next j hj =>
      obtain rfl : i = j := Option.some.inj (hindex.symm.trans hj)
      rw [keys, toList, Array.toList_setIfInBounds, List.map_set]
      obtain ⟨hlt, rfl⟩ := List.getElem?_eq_some_iff.1 hi
      exact List.set_getElem_self hlt
    · next hnone =>
      rw [hindex] at hnone
      cases hnone
  · next hk => rw [keys, toList_insert_of_notMem hk, List.map_append, List.map_singleton, keys]

@[simp] theorem get?_insert (m : OrderedMap α) (k : String) (v : α) (k' : String) :
    (m.insert k v).get? k' = if k = k' then some v else m.get? k' := by
  unfold insert
  split
  · next i hi =>
    have hentry := (m.index_eq_some_iff k i).1 hi
    obtain ⟨e, he, rfl⟩ := Option.map_eq_some_iff.1 hentry
    have hlt : i < m.entries.size := (Array.getElem?_eq_some_iff.1 he).1
    simp only [get?]
    split
    · next hk =>
      subst hk
      rw [hi, Option.bind_some, Array.getElem?_setIfInBounds_self_of_lt hlt]
      rfl
    · next hk =>
      cases hj : m.index[k']? with
      | none => rfl
      | some j =>
        have hne : i ≠ j := by
          rintro rfl
          have := (m.index_eq_some_iff k' i).1 hj
          rw [he] at this
          exact hk (Option.some.inj this)
        rw [Option.bind_some, Option.bind_some, Array.getElem?_setIfInBounds_ne hne]
  · next hnone =>
    simp only [get?, Std.ExtHashMap.getElem?_insert, beq_iff_eq]
    split
    · rw [Option.bind_some, Array.getElem?_push_size]
      rfl
    · cases hj : m.index[k']? with
      | none => rfl
      | some j =>
        obtain ⟨_, he, -⟩ := Option.map_eq_some_iff.1 ((m.index_eq_some_iff k' j).1 hj)
        have hlt : j < m.entries.size := (Array.getElem?_eq_some_iff.1 he).1
        rw [Option.bind_some, Option.bind_some, Array.getElem?_push_lt hlt,
          Array.getElem?_eq_getElem hlt]

/-- Maps with the same keys in the same order and the same values under them are equal. -/
theorem ext_get? (hkeys : m.keys = m'.keys) (hget : ∀ k, m.get? k = m'.get? k) : m = m' := by
  have htagged (m : OrderedMap α) :
      m.toList.map (fun e => (e.1, some e.2)) = m.keys.map fun k => (k, m.get? k) := by
    rw [keys, List.map_map]
    refine List.map_congr_left fun e he => ?_
    rw [Function.comp_apply, get?_eq_some_iff.2 he]
  have hinjective : Function.Injective fun e : String × α => (e.1, some e.2) := by
    intro e e' he
    rw [Prod.mk.injEq, Option.some.injEq] at he
    exact Prod.ext he.1 he.2
  apply ext_toList
  apply List.map_injective_iff.2 hinjective
  rw [htagged m, htagged m', hkeys, funext hget]

/-! ## Building a map -/

theorem foldl_insert {es : List (String × α)} (h : ((m.toList ++ es).map Prod.fst).Nodup) :
    (es.foldl (fun m (k, v) => m.insert k v) m).toList = m.toList ++ es := by
  induction es generalizing m with
  | nil => exact (List.append_nil _).symm
  | cons e es ih =>
    have hassoc : m.toList ++ e :: es = m.toList ++ [e] ++ es := by rw [List.append_assoc]; rfl
    have hnew : e.1 ∉ m.toList.map Prod.fst := fun he =>
      (List.nodup_append.1 (List.map_append ▸ h)).2.2 e.1 he e.1 List.mem_cons_self rfl
    have hinsert := toList_insert_of_notMem hnew e.2
    rw [hassoc, ← hinsert] at h ⊢
    exact ih h

/-- Entries with distinct keys are kept as they are. -/
theorem toList_ofList_of_nodup {es : List (String × α)} (h : (es.map Prod.fst).Nodup) :
    (ofList es).toList = es := foldl_insert (m := ∅) h

theorem ofList_toList (m : OrderedMap α) : ofList m.toList = m :=
  ext_toList (toList_ofList_of_nodup m.nodup_keys)

theorem forall_mem_ofList {P : String × α → Prop} {es : List (String × α)} (h : ∀ e ∈ es, P e) :
    ∀ e ∈ (ofList es).toList, P e := by
  rw [ofList]
  refine List.foldlRecOn es _ (motive := fun m : OrderedMap α => ∀ e ∈ m.toList, P e)
    (fun _ he => absurd he List.not_mem_nil) fun m hm e he f hf => ?_
  rcases mem_toList_insert hf with hf | rfl
  · exact hm f hf
  · exact h e he

end OrderedMap

end StreamedUi
