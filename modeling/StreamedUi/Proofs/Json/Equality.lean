import StreamedUi.Proofs.Json.Reordered

/-! Equality of values, in which the order of members does not count and the two zeros are one. It
is transitive (`Value.same_trans`), and equal values are worth the same as numbers
(`Value.units_eq_of_same`). -/

namespace StreamedUi.Json

open Numeric

namespace Number

variable {m n k : Number}

theorem same_trans (h : m.same n = true) (h' : n.same k = true) : m.same k = true := by
  cases m <;> cases n <;> cases k <;> simp_all [same, Binary.valueEq]

/-- Numbers that are equal as written have the same value as floats. -/
theorem units_eq_of_same (h : m.same n = true) :
    m.toFloat?.map Binary.units = n.toFloat?.map Binary.units := by
  cases m <;> cases n <;> simp_all [same, Binary.valueEq, toFloat?]

end Number

namespace Value

mutual
theorem same_trans : ∀ (u : Value) {v w : Value}, u.same v = true → v.same w = true →
    u.same w = true
  | .null, v, w, huv, h => by
    cases v with
    | null => exact h
    | _ => cases huv
  | .bool a, v, w, huv, h => by
    cases v with
    | bool b =>
      obtain rfl : a = b := beq_iff_eq.1 huv
      exact h
    | _ => cases huv
  | .string s, v, w, huv, h => by
    cases v with
    | string t =>
      obtain rfl : s = t := beq_iff_eq.1 huv
      exact h
    | _ => cases huv
  | .number m, v, w, huv, h => by
    cases v with
    | number n =>
      cases w with
      | number k => exact Number.same_trans huv h
      | _ => cases h
    | _ => cases huv
  | .array xs, v, w, huv, h => by
    cases v with
    | array ys =>
      cases w with
      | array zs => exact sameItems_trans xs huv h
      | _ => cases h
    | _ => cases huv
  | .object ms, v, w, huv, h => by
    cases v with
    | object ns =>
      cases w with
      | object os =>
        rw [same, Bool.and_eq_true, beq_iff_eq] at huv h ⊢
        exact ⟨huv.1.trans h.1, sameMembers_trans ms huv.2 h.2⟩
      | _ => cases h
    | _ => cases huv

theorem sameItems_trans : ∀ (xs : List Value) {ys zs : List Value}, sameItems xs ys = true →
    sameItems ys zs = true → sameItems xs zs = true
  | [], ys, zs, hxy, h => by
    cases ys with
    | nil => exact h
    | cons => cases hxy
  | x :: xs, ys, zs, hxy, h => by
    cases ys with
    | nil => cases hxy
    | cons y ys =>
      cases zs with
      | nil => cases h
      | cons z zs =>
        rw [sameItems, Bool.and_eq_true] at hxy h ⊢
        exact ⟨same_trans x hxy.1 h.1, sameItems_trans xs hxy.2 h.2⟩

theorem sameMembers_trans : ∀ (ms : List (String × Value)) {ns os : List (String × Value)},
    sameMembers ms ns = true → sameMembers ns os = true → sameMembers ms os = true
  | [], _, _, _, _ => rfl
  | (name, v) :: ms, ns, os, hmn, h => by
    rw [sameMembers, Bool.and_eq_true] at hmn ⊢
    refine ⟨?_, sameMembers_trans ms hmn.2 h⟩
    cases hns : ns.lookup name with
    | none =>
      rw [hns] at hmn
      cases hmn.1
    | some x =>
      rw [hns] at hmn
      -- The member found in the middle is in turn looked up in the last object.
      rw [sameMembers_eq_all, List.all_eq_true] at h
      have hos := h (name, x) (Members.mem_of_lookup hns)
      cases hy : os.lookup name with
      | none =>
        rw [hy] at hos
        cases hos
      | some y =>
        rw [hy] at hos
        exact same_trans v hmn.1 hos
end

section Equal

variable {v w : Value}

/-- Equal values are equal to the same values. -/
theorem same_congr_left (h : v.same w = true) (h' : w.same v = true) (u : Value) :
    v.same u = w.same u :=
  Bool.eq_iff_iff.2 ⟨same_trans w h', same_trans v h⟩

theorem same_congr_right (h : v.same w = true) (h' : w.same v = true) (u : Value) :
    u.same v = u.same w :=
  Bool.eq_iff_iff.2 ⟨fun hu => same_trans u hu h, fun hu => same_trans u hu h'⟩

theorem units_eq_of_same (h : v.same w = true) :
    v.toFloat?.map Binary.units = w.toFloat?.map Binary.units := by
  cases v <;> cases w <;> try cases h
  case number.number m n => exact Number.units_eq_of_same h
  all_goals rfl

end Equal

end Value

end StreamedUi.Json
