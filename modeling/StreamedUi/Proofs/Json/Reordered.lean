import StreamedUi.Proofs.Json.Shape

/-! Values whose objects have their members in another order. Look-ups and equality of values do not
see the order (`Reorders.stringMember?_eq`, `Reorders.same_left`, `Reorders.same_right`). -/

namespace StreamedUi.Json

namespace Value

/-- Somewhere in the value, the members of one object change their order. -/
inductive Reorders : Value → Value → Prop
  | members {ms ms' : List (String × Value)} : (ms.map Prod.fst).Nodup → ms.Perm ms' →
    Reorders (.object ms) (.object ms')
  | item {v v' : Value} (front back : List Value) : Reorders v v' →
    Reorders (.array (front ++ v :: back)) (.array (front ++ v' :: back))
  | member {v v' : Value} (front back : List (String × Value)) (name : String) : Reorders v v' →
    Reorders (.object (front ++ (name, v) :: back)) (.object (front ++ (name, v') :: back))

end Value

/-! ## Look-ups -/

namespace Members

variable {ms ms' : Members} {name : String} {v v' : Value}

theorem lookup_eq_some_iff (h : (ms.map Prod.fst).Nodup) :
    ms.lookup name = some v ↔ (name, v) ∈ ms := by
  refine ⟨mem_of_lookup, fun hmem => ?_⟩
  obtain ⟨front, back, rfl⟩ := List.append_of_mem hmem
  refine List.lookup_eq_some_iff.2 ⟨front, back, rfl, fun m hm => ?_⟩
  rw [List.map_append, List.nodup_append] at h
  exact bne_iff_ne.2 fun heq =>
    h.2.2 m.1 (List.mem_map_of_mem hm) name List.mem_cons_self heq.symm

theorem lookup_perm (h : (ms.map Prod.fst).Nodup) (hperm : ms.Perm ms') (name : String) :
    ms.lookup name = ms'.lookup name := by
  have h' : (ms'.map Prod.fst).Nodup := (hperm.map Prod.fst).nodup_iff.1 h
  refine Option.ext fun v => ?_
  rw [lookup_eq_some_iff h, lookup_eq_some_iff h', hperm.mem_iff]

/-- Two look-ups that differ in the value of one member find the same, or these two values. -/
theorem lookup_replace (front back : Members) (k name : String) (v v' : Value) :
    (front ++ (k, v) :: back).lookup name = (front ++ (k, v') :: back).lookup name ∨
      (front ++ (k, v) :: back).lookup name = some v ∧
        (front ++ (k, v') :: back).lookup name = some v' := by
  induction front with
  | nil =>
    by_cases hname : name = k
    · subst hname
      exact .inr ⟨List.lookup_cons_self, List.lookup_cons_self⟩
    · have test : (name == k) = false := beq_eq_false_iff_ne.2 hname
      exact .inl (by simp only [List.nil_append, List.lookup_cons, test])
  | cons m front ih =>
    obtain ⟨j, w⟩ := m
    by_cases hname : name = j
    · subst hname
      exact .inl (by simp only [List.cons_append, List.lookup_cons_self])
    · have test : (name == j) = false := beq_eq_false_iff_ne.2 hname
      simpa only [List.cons_append, List.lookup_cons, test] using ih

end Members

namespace Value

variable {v v' : Value}

theorem Reorders.string?_eq (h : Reorders v v') : v.string? = none ∧ v'.string? = none := by
  cases h <;> exact ⟨rfl, rfl⟩

theorem Reorders.stringMember?_eq (h : Reorders v v') (name : String) :
    v.stringMember? name = v'.stringMember? name := by
  unfold stringMember?
  cases h with
  | members hnodup hperm => rw [member?, member?, Members.lookup_perm hnodup hperm]
  | item front back h => rfl
  | member front back k h =>
    rw [member?, member?]
    rcases Members.lookup_replace front back k name _ _ with heq | ⟨hv, hv'⟩
    · rw [heq]
    · rw [hv, hv', Option.bind_some, Option.bind_some, h.string?_eq.1, h.string?_eq.2]

/-! ## Equality -/

theorem sameMembers_eq_all (ms ns : List (String × Value)) :
    sameMembers ms ns = ms.all fun m => (ns.lookup m.1).any m.2.same := by
  induction ms with
  | nil => rfl
  | cons m ms ih =>
    rw [sameMembers, ih, List.all_cons]
    cases ns.lookup m.1 <;> rfl

theorem sameItems_replace_left (hsame : ∀ w, v.same w = v'.same w) (front back ys : List Value) :
    sameItems (front ++ v :: back) ys = sameItems (front ++ v' :: back) ys := by
  induction front generalizing ys with
  | nil => cases ys <;> simp [sameItems, hsame]
  | cons x front ih => cases ys <;> simp [sameItems, ih]

theorem sameItems_replace_right (hsame : ∀ w : Value, w.same v = w.same v')
    (front back xs : List Value) :
    sameItems xs (front ++ v :: back) = sameItems xs (front ++ v' :: back) := by
  induction front generalizing xs with
  | nil => cases xs <;> simp [sameItems, hsame]
  | cons y front ih => cases xs <;> simp [sameItems, ih]

theorem Reorders.same_left (h : Reorders v v') (w : Value) : v.same w = v'.same w := by
  induction h generalizing w with
  | members hnodup hperm =>
    cases w with
    | object ns =>
      rw [same, same, sameMembers_eq_all, sameMembers_eq_all, hperm.length_eq, hperm.all_eq]
    | _ => rfl
  | item front back _ ih =>
    cases w with
    | array ys => exact sameItems_replace_left ih front back ys
    | _ => rfl
  | member front back k _ ih =>
    cases w with
    | object ns =>
      simp only [same, sameMembers_eq_all, List.length_append, List.length_cons, List.all_append,
        List.all_cons]
      rw [show Value.same _ = Value.same _ from funext ih]
    | _ => rfl

theorem Reorders.same_right (h : Reorders v v') (w : Value) : w.same v = w.same v' := by
  induction h generalizing w with
  | members hnodup hperm =>
    cases w with
    | object ns =>
      simp only [same, sameMembers_eq_all, hperm.length_eq, Members.lookup_perm hnodup hperm]
    | _ => rfl
  | item front back _ ih =>
    cases w with
    | array xs => exact sameItems_replace_right ih front back xs
    | _ => rfl
  | @member v v' front back k _ ih =>
    cases w with
    | object ns =>
      have hany : ∀ m : String × Value,
          ((front ++ (k, v) :: back).lookup m.1).any m.2.same =
            ((front ++ (k, v') :: back).lookup m.1).any m.2.same := by
        intro m
        rcases Members.lookup_replace front back k m.1 v v' with heq | ⟨hv, hv'⟩
        · rw [heq]
        · rw [hv, hv', Option.any_some, Option.any_some, ih]
      simp only [same, sameMembers_eq_all, List.length_append, List.length_cons, hany]
    | _ => rfl

end Value

end StreamedUi.Json
