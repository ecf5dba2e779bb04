import Mathlib.Data.List.Nodup
import StreamedUi.Json.Raw

/-! The shape of JSON values: how deep arrays and objects nest, and that the names of an object are
distinct. The value of a text has distinct names at every depth (`Raw.distinct_of_value?`), for of
members with one name only one is kept. -/

namespace StreamedUi.Json

/-! ## Members -/

namespace Members

variable {ms : Members} {name : String} {v : Value}

theorem names_set (ms : Members) (name : String) (v : Value) :
    (ms.set name v).map Prod.fst =
      if name ∈ ms.map Prod.fst then ms.map Prod.fst else ms.map Prod.fst ++ [name] := by
  induction ms with
  | nil => rfl
  | cons m ms ih =>
    obtain ⟨k, w⟩ := m
    by_cases hk : k = name
    · simp [set, hk]
    · have hk' : ¬name = k := fun h => hk h.symm
      simp only [set, if_neg hk, List.map_cons, ih, List.mem_cons, hk', false_or]
      split <;> rfl

theorem nodup_names_set (h : (ms.map Prod.fst).Nodup) (name : String) (v : Value) :
    ((ms.set name v).map Prod.fst).Nodup := by
  rw [names_set]
  split
  next => exact h
  next hname =>
    exact List.nodup_append.2 ⟨h, List.nodup_singleton name, fun k hk k' hk' heq => by
      obtain rfl := List.mem_singleton.1 hk'
      exact hname (heq ▸ hk)⟩

theorem forall_mem_set {P : Value → Prop} (h : ∀ m ∈ ms, P m.2) (hv : P v) :
    ∀ m ∈ ms.set name v, P m.2 := by
  induction ms with
  | nil => exact List.forall_mem_singleton.2 hv
  | cons m ms ih =>
    obtain ⟨hm, hms⟩ := List.forall_mem_cons.1 h
    rw [set]
    split
    · exact List.forall_mem_cons.2 ⟨hv, hms⟩
    · exact List.forall_mem_cons.2 ⟨hm, ih hms⟩

/-- A new name comes last. -/
theorem set_of_notMem (h : name ∉ ms.map Prod.fst) : ms.set name v = ms ++ [(name, v)] := by
  induction ms with
  | nil => rfl
  | cons m ms ih =>
    obtain ⟨hm, hms⟩ := not_or.1 (mt List.mem_cons.2 h)
    rw [set, if_neg fun heq => hm heq.symm, ih hms, List.cons_append]

theorem nodup_names_ofList (ms : List (String × Value)) : ((ofList ms).map Prod.fst).Nodup := by
  rw [ofList]
  refine List.foldlRecOn ms _ (motive := fun acc : Members => (acc.map Prod.fst).Nodup)
    List.nodup_nil fun acc hacc m _ => nodup_names_set hacc m.1 m.2

theorem forall_mem_ofList {P : Value → Prop} {ms : List (String × Value)}
    (h : ∀ m ∈ ms, P m.2) : ∀ m ∈ ofList ms, P m.2 := by
  rw [ofList]
  refine List.foldlRecOn ms _ (motive := fun acc : Members => ∀ m ∈ acc, P m.2)
    (fun _ hm => absurd hm List.not_mem_nil) fun acc hacc m hm => forall_mem_set hacc (h m hm)

theorem foldl_set (acc : Members) {ms : List (String × Value)}
    (h : ((acc ++ ms).map Prod.fst).Nodup) :
    ms.foldl (fun members (name, v) => set members name v) acc = acc ++ ms := by
  induction ms generalizing acc with
  | nil => exact (List.append_nil acc).symm
  | cons m ms ih =>
    have hassoc : acc ++ m :: ms = acc ++ [m] ++ ms := by rw [List.append_assoc]; rfl
    have hnew : m.1 ∉ acc.map Prod.fst := fun hm =>
      (List.nodup_append.1 (List.map_append ▸ h)).2.2 m.1 hm m.1 List.mem_cons_self rfl
    rw [hassoc, ← ih _ (hassoc ▸ h), ← set_of_notMem hnew]
    rfl

/-- Members with distinct names are kept as they are. -/
theorem ofList_of_nodup {ms : List (String × Value)} (h : (ms.map Prod.fst).Nodup) :
    ofList ms = ms := foldl_set [] h

end Members

theorem Members.mem_of_lookup {ms : Members} {name : String} {v : Value}
    (h : ms.lookup name = some v) : (name, v) ∈ ms := by
  obtain ⟨before, after, rfl, -⟩ := List.lookup_eq_some_iff.1 h
  exact List.mem_append_right before List.mem_cons_self

namespace Value

/-! ## Depth -/

mutual
/-- How many arrays and objects nest. -/
def depth : Value → Nat
  | .array items => itemsDepth items + 1
  | .object ms => membersDepth ms + 1
  | _ => 0

def itemsDepth : List Value → Nat
  | [] => 0
  | v :: vs => max v.depth (itemsDepth vs)

def membersDepth : List (String × Value) → Nat
  | [] => 0
  | (_, v) :: ms => max v.depth (membersDepth ms)
end

theorem membersDepth_le_iff {ms : List (String × Value)} {n : Nat} :
    membersDepth ms ≤ n ↔ ∀ m ∈ ms, m.2.depth ≤ n := by
  induction ms with
  | nil => simp [membersDepth]
  | cons m ms ih => rw [membersDepth, Nat.max_le, ih, List.forall_mem_cons]

/-! ## Distinct names -/

/-- In every object inside the value no two members have one name. -/
inductive Distinct : Value → Prop
  | null : Distinct .null
  | bool (b : Bool) : Distinct (.bool b)
  | number (n : Number) : Distinct (.number n)
  | string (s : String) : Distinct (.string s)
  | array {items : List Value} (values : ∀ v ∈ items, Distinct v) : Distinct (.array items)
  | object {ms : List (String × Value)} (names : (ms.map Prod.fst).Nodup)
      (values : ∀ m ∈ ms, Distinct m.2) : Distinct (.object ms)

/-- What holds of the members or the items of a value holds of its fields. -/
theorem forall_mem_of_fields? {Q : Value → Prop} {v : Value} {names : List String}
    {fields : Members} (hmembers : ∀ ms, v = .object ms → ∀ m ∈ ms, Q m.2)
    (hitems : ∀ items, v = .array items → ∀ w ∈ items, Q w) (h : v.fields? names = some fields) :
    ∀ m ∈ fields, Q m.2 := by
  cases v with
  | object ms =>
    cases h
    exact hmembers _ rfl
  | array items =>
    rw [fields?] at h
    split at h
    · cases h
      exact fun m hm => hitems items rfl m.2 (List.of_mem_zip hm).2
    · cases h
  | _ => cases h

end Value

/-- What holds of all that a reader can give holds of all that it gave. -/
theorem forall_mem_of_mapM {α β : Type} {f : α → Option β} {P : β → Prop}
    (hf : ∀ a b, f a = some b → P b) {l : List α} {l' : List β} (h : l.mapM f = some l') :
    ∀ b ∈ l', P b := by
  induction l generalizing l' with
  | nil =>
    cases h
    exact fun _ hb => absurd hb List.not_mem_nil
  | cons a l ih =>
    rw [List.mapM_cons] at h
    obtain ⟨b, hb, h⟩ := Option.bind_eq_some_iff.1 h
    obtain ⟨bs, hbs, h⟩ := Option.bind_eq_some_iff.1 h
    cases h
    exact List.forall_mem_cons.2 ⟨hf a b hb, ih hbs⟩

/-- A list is read again if each of its elements is. -/
theorem mapM_map_of_forall {α β γ : Type} {f : β → Option γ} {g : α → β} {result : α → γ}
    {l : List α} (h : ∀ a ∈ l, f (g a) = some (result a)) :
    (l.map g).mapM f = some (l.map result) := by
  induction l with
  | nil => rfl
  | cons a l ih =>
    obtain ⟨ha, hl⟩ := List.forall_mem_cons.1 h
    rw [List.map_cons, List.mapM_cons, ha, ih hl]
    rfl

namespace Raw

mutual
/-- What a text means has distinct names. -/
theorem distinct_of_value? {levels : Nat} {v : Value} :
    ∀ r : Raw, r.value? levels = some v → v.Distinct
  | .null, h => by cases h; exact .null
  | .bool b, h => by cases h; exact .bool b
  | .numeral n, h => by
    obtain ⟨m, -, rfl⟩ := Option.map_eq_some_iff.1 h
    exact .number m
  | .string pieces, h => by
    obtain ⟨s, -, rfl⟩ := Option.map_eq_some_iff.1 h
    exact .string s
  | .array items, h => by
    cases levels with
    | zero => cases h
    | succ levels =>
      obtain ⟨vs, hvs, rfl⟩ := Option.map_eq_some_iff.1 h
      exact .array (distinct_of_values? items hvs)
  | .object members, h => by
    cases levels with
    | zero => cases h
    | succ levels =>
      obtain ⟨ms, hms, rfl⟩ := Option.map_eq_some_iff.1 h
      exact .object (Members.nodup_names_ofList ms)
        (Members.forall_mem_ofList (distinct_of_members? members hms))

theorem distinct_of_values? {levels : Nat} {vs : List Value} :
    ∀ items : List Raw, values? levels items = some vs → ∀ v ∈ vs, v.Distinct
  | [], h => by
    cases h
    exact fun _ hv => absurd hv List.not_mem_nil
  | r :: items, h => by
    obtain ⟨v, hv, h⟩ := Option.bind_eq_some_iff.1 h
    obtain ⟨vs, hvs, h⟩ := Option.bind_eq_some_iff.1 h
    cases h
    exact List.forall_mem_cons.2 ⟨distinct_of_value? r hv, distinct_of_values? items hvs⟩

theorem distinct_of_members? {levels : Nat} {ms : List (String × Value)} :
    ∀ members : List (List Piece × Raw), members? levels members = some ms →
      ∀ m ∈ ms, m.2.Distinct
  | [], h => by
    cases h
    exact fun _ hm => absurd hm List.not_mem_nil
  | (_, r) :: members, h => by
    obtain ⟨name, -, h⟩ := Option.bind_eq_some_iff.1 h
    obtain ⟨v, hv, h⟩ := Option.bind_eq_some_iff.1 h
    obtain ⟨ms, hms, h⟩ := Option.bind_eq_some_iff.1 h
    cases h
    exact List.forall_mem_cons.2 ⟨distinct_of_value? r hv, distinct_of_members? members hms⟩
end

/-- What holds of all values that are read holds of the values of fields. -/
theorem forall_mem_of_fieldValues? {Q : Value → Prop} {levels : Nat}
    (hQ : ∀ (r : Raw) (v : Value), r.value? levels = some v → Q v) {fields : List (String × Raw)}
    {ms : Members} (h : fieldValues? levels fields = some ms) : ∀ m ∈ ms, Q m.2 := by
  refine forall_mem_of_mapM (fun field m hm => ?_) h
  obtain ⟨v, hv, rfl⟩ := Option.map_eq_some_iff.1 hm
  exact hQ field.2 v hv

end Raw

end StreamedUi.Json
