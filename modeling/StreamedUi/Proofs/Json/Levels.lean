import StreamedUi.Proofs.Json.Written

/-! How deep values nest that are read. A text is read only if it nests no deeper than it may
(`Raw.depth_le_of_value?`), so a value whose text is read does not nest deeper either
(`Value.depth_le_of_value?_raw`). -/

namespace StreamedUi.Json

theorem exists_of_mapM_eq_some {α β : Type} {f : α → Option β} {l : List α} {l' : List β}
    (h : l.mapM f = some l') : ∀ a ∈ l, ∃ b, f a = some b := by
  induction l generalizing l' with
  | nil => exact fun _ ha => absurd ha List.not_mem_nil
  | cons a l ih =>
    rw [List.mapM_cons] at h
    obtain ⟨b, hb, h⟩ := Option.bind_eq_some_iff.1 h
    obtain ⟨bs, hbs, -⟩ := Option.bind_eq_some_iff.1 h
    exact List.forall_mem_cons.2 ⟨⟨b, hb⟩, ih hbs⟩

namespace Value

theorem itemsDepth_le_iff {vs : List Value} {n : Nat} :
    itemsDepth vs ≤ n ↔ ∀ v ∈ vs, v.depth ≤ n := by
  induction vs with
  | nil => simp [itemsDepth]
  | cons v vs ih => rw [itemsDepth, Nat.max_le, ih, List.forall_mem_cons]

theorem depth_of_mem_object {ms : List (String × Value)} {n : Nat}
    (h : (Value.object ms).depth ≤ n + 1) : ∀ m ∈ ms, m.2.depth ≤ n :=
  membersDepth_le_iff.1 (Nat.le_of_succ_le_succ h)

theorem depth_of_mem_array {items : List Value} {n : Nat}
    (h : (Value.array items).depth ≤ n + 1) : ∀ v ∈ items, v.depth ≤ n :=
  itemsDepth_le_iff.1 (Nat.le_of_succ_le_succ h)

/-! ## Values whose text is read -/

mutual
theorem depth_le_of_value?_raw :
    ∀ (v : Value) {levels : Nat} {w : Value}, v.raw.value? levels = some w → v.depth ≤ levels
  | .null, _, _, _ | .bool _, _, _, _ | .number _, _, _, _ | .string _, _, _, _ => Nat.zero_le _
  | .array items, levels, _, h => by
    cases levels with
    | zero => cases h
    | succ levels =>
      obtain ⟨ws, hws, -⟩ := Option.map_eq_some_iff.1 h
      exact Nat.succ_le_succ (itemsDepth_le_of_values?_raw items hws)
  | .object ms, levels, _, h => by
    cases levels with
    | zero => cases h
    | succ levels =>
      obtain ⟨ws, hws, -⟩ := Option.map_eq_some_iff.1 h
      exact Nat.succ_le_succ (membersDepth_le_of_members?_raw ms hws)

theorem itemsDepth_le_of_values?_raw :
    ∀ (vs : List Value) {levels : Nat} {ws : List Value},
      Raw.values? levels (rawItems vs) = some ws → itemsDepth vs ≤ levels
  | [], _, _, _ => Nat.zero_le _
  | v :: vs, _, _, h => by
    obtain ⟨w, hw, h⟩ := Option.bind_eq_some_iff.1 h
    obtain ⟨ws, hws, -⟩ := Option.bind_eq_some_iff.1 h
    exact Nat.max_le.2 ⟨depth_le_of_value?_raw v hw, itemsDepth_le_of_values?_raw vs hws⟩

theorem membersDepth_le_of_members?_raw :
    ∀ (ms : List (String × Value)) {levels : Nat} {ws : List (String × Value)},
      Raw.members? levels (rawMembers ms) = some ws → membersDepth ms ≤ levels
  | [], _, _, _ => Nat.zero_le _
  | (_, v) :: ms, _, _, h => by
    obtain ⟨name, -, h⟩ := Option.bind_eq_some_iff.1 h
    obtain ⟨w, hw, h⟩ := Option.bind_eq_some_iff.1 h
    obtain ⟨ws, hws, -⟩ := Option.bind_eq_some_iff.1 h
    exact Nat.max_le.2 ⟨depth_le_of_value?_raw v hw, membersDepth_le_of_members?_raw ms hws⟩
end

end Value

theorem depth_le_of_fieldValues?_raw {levels : Nat} {ms fields : Members}
    (h : Raw.fieldValues? levels (ms.map fun m => (m.1, m.2.raw)) = some fields) :
    ∀ m ∈ ms, m.2.depth ≤ levels := by
  intro m hm
  obtain ⟨field, hfield⟩ :=
    exists_of_mapM_eq_some h (m.1, m.2.raw) (List.mem_map_of_mem (f := fun m => (m.1, m.2.raw)) hm)
  obtain ⟨w, hw, -⟩ := Option.map_eq_some_iff.1 hfield
  exact m.2.depth_le_of_value?_raw hw

namespace Raw

/-! ## Values that are read -/

mutual
theorem depth_le_of_value? :
    ∀ (r : Raw) {levels : Nat} {v : Value}, r.value? levels = some v → v.depth ≤ levels
  | .null, _, _, h | .bool _, _, _, h => by
    cases h
    exact Nat.zero_le _
  | .numeral _, _, _, h | .string _, _, _, h => by
    obtain ⟨_, -, rfl⟩ := Option.map_eq_some_iff.1 h
    exact Nat.zero_le _
  | .array items, levels, _, h => by
    cases levels with
    | zero => cases h
    | succ levels =>
      obtain ⟨vs, hvs, rfl⟩ := Option.map_eq_some_iff.1 h
      exact Nat.succ_le_succ (Value.itemsDepth_le_iff.2 (depth_le_of_values? items hvs))
  | .object members, levels, _, h => by
    cases levels with
    | zero => cases h
    | succ levels =>
      obtain ⟨ms, hms, rfl⟩ := Option.map_eq_some_iff.1 h
      have hkept : ∀ m ∈ Members.ofList ms, m.2.depth ≤ levels :=
        Members.forall_mem_ofList (P := fun v => v.depth ≤ levels)
          (depth_le_of_members? members hms)
      exact Nat.succ_le_succ (Value.membersDepth_le_iff.2 hkept)

theorem depth_le_of_values? :
    ∀ (items : List Raw) {levels : Nat} {vs : List Value}, values? levels items = some vs →
      ∀ v ∈ vs, v.depth ≤ levels
  | [], _, _, h => by
    cases h
    exact fun _ hv => absurd hv List.not_mem_nil
  | r :: items, _, _, h => by
    obtain ⟨v, hv, h⟩ := Option.bind_eq_some_iff.1 h
    obtain ⟨vs, hvs, h⟩ := Option.bind_eq_some_iff.1 h
    cases h
    exact List.forall_mem_cons.2 ⟨depth_le_of_value? r hv, depth_le_of_values? items hvs⟩

theorem depth_le_of_members? :
    ∀ (members : List (List Piece × Raw)) {levels : Nat} {ms : List (String × Value)},
      members? levels members = some ms → ∀ m ∈ ms, m.2.depth ≤ levels
  | [], _, _, h => by
    cases h
    exact fun _ hm => absurd hm List.not_mem_nil
  | (_, r) :: members, _, _, h => by
    obtain ⟨name, -, h⟩ := Option.bind_eq_some_iff.1 h
    obtain ⟨v, hv, h⟩ := Option.bind_eq_some_iff.1 h
    obtain ⟨ms, hms, h⟩ := Option.bind_eq_some_iff.1 h
    cases h
    exact List.forall_mem_cons.2 ⟨depth_le_of_value? r hv, depth_le_of_members? members hms⟩
end

end Raw

end StreamedUi.Json
