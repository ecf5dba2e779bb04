import StreamedUi.Proofs.Condition.Members
import StreamedUi.Proofs.Json.Shape

/-! Conditions that are written and read again. What `parse` accepts is written as a value that it
accepts with the same result, and what it rejects is written as it came
(`ofValue_toValue_ofValue`). -/

namespace StreamedUi
open Json

theorem Operand.ofValue_toValue_ofValue (v : Value) :
    ofValue (ofValue v).toValue = ofValue v := by
  cases h : v.stringMember? "path" with
  | some p => simp only [ofValue, h, toValue]; rfl
  | none => simp only [ofValue, h, toValue]

namespace Condition

variable {v : Value} {c : Condition} {cs : List Condition}

/-! ## Conditions of the grammar -/

/-- A condition without unknown parts, whose operands are read from values of which `Q` holds. -/
inductive Regular (Q : Value → Prop) : Condition → Prop
  | literal (b : Bool) : Regular Q (.literal b)
  | path (p : String) : Regular Q (.path p)
  | and {cs : List Condition} : (∀ c ∈ cs, Regular Q c) → Regular Q (.and cs)
  | or {cs : List Condition} : (∀ c ∈ cs, Regular Q c) → Regular Q (.or cs)
  | not {c : Condition} : Regular Q c → Regular Q (.not c)
  | compare (op : Comparison) {vs : List Value} : (∀ v ∈ vs, Q v) →
    Regular Q (.compare op (vs.map Operand.ofValue))

/-- What holds of a value holds of the values in it. -/
structure Hereditary (Q : Value → Prop) : Prop where
  item {items : List Value} {v : Value} : Q (.array items) → v ∈ items → Q v
  member {ms : List (String × Value)} {m : String × Value} : Q (.object ms) → m ∈ ms → Q m.2

theorem Regular.ofParts {Q : Value → Prop} (h : ∀ c ∈ cs, Regular Q c)
    (hc : Condition.ofParts cs = .ok c) : Regular Q c := by
  match cs with
  | [] => cases hc
  | [d] =>
    cases hc
    exact h c (List.mem_singleton_self c)
  | d :: e :: cs =>
    cases hc
    exact .and h

mutual
theorem regular_of_parse {Q : Value → Prop} (hQ : Hereditary Q) :
    ∀ {v : Value} {c : Condition}, Q v → parse v = .ok c → Regular Q c
  | .bool b, _, _, h => by
    cases h
    exact .literal b
  | .object ms, _, hv, h => by
    obtain ⟨cs, hcs, hc⟩ := bind_eq_ok h
    exact .ofParts (regular_of_parseMembers hQ (fun m hm => hQ.member hv hm) hcs) hc
  | .null, _, _, h | .number _, _, _, h | .string _, _, _, h | .array _, _, _, h => by cases h

theorem regular_of_parseMembers {Q : Value → Prop} (hQ : Hereditary Q) :
    ∀ {ms : List (String × Value)} {cs : List Condition}, (∀ m ∈ ms, Q m.2) →
      parseMembers ms = .ok cs → ∀ c ∈ cs, Regular Q c
  | [], _, _, h => by
    cases h
    exact fun _ hc => absurd hc List.not_mem_nil
  | (name, v) :: rest, cs, hms, h => by
    obtain ⟨hv, hrest⟩ := List.forall_mem_cons.1 hms
    rcases parseMembers_cons_eq_ok h with ⟨-, h⟩ | ⟨c, cs', rfl, hmember, h⟩
    · exact regular_of_parseMembers hQ hrest h
    · refine List.forall_mem_cons.2 ⟨?_, regular_of_parseMembers hQ hrest h⟩
      cases hmember with
      | path p => exact .path p
      | and hitems => exact .and (regular_of_parseItems hQ (fun _ hw => hQ.item hv hw) hitems)
      | or hitems => exact .or (regular_of_parseItems hQ (fun _ hw => hQ.item hv hw) hitems)
      | not hc => exact .not (regular_of_parse hQ hv hc)
      | compare op operands => exact .compare op fun _ hw => hQ.item hv hw

theorem regular_of_parseItems {Q : Value → Prop} (hQ : Hereditary Q) :
    ∀ {vs : List Value} {cs : List Condition}, (∀ v ∈ vs, Q v) →
      parseItems vs = .ok cs → ∀ c ∈ cs, Regular Q c
  | [], _, _, h => by
    cases h
    exact fun _ hc => absurd hc List.not_mem_nil
  | v :: vs, cs, hvs, h => by
    obtain ⟨hv, hrest⟩ := List.forall_mem_cons.1 hvs
    obtain ⟨c, hc, h⟩ := bind_eq_ok h
    obtain ⟨cs', hcs', rfl⟩ := map_eq_ok h
    exact List.forall_mem_cons.2 ⟨regular_of_parse hQ hv hc, regular_of_parseItems hQ hrest hcs'⟩
end

theorem toValues_eq_map (cs : List Condition) : toValues cs = cs.map toValue := by
  induction cs with
  | nil => rfl
  | cons c cs ih => rw [toValues, ih, List.map_cons]

theorem parseItems_toValues (h : ∀ c ∈ cs, parse c.toValue = .ok c) :
    parseItems (toValues cs) = .ok cs := by
  induction cs with
  | nil => rfl
  | cons c cs ih =>
    obtain ⟨hc, hcs⟩ := List.forall_mem_cons.1 h
    rw [toValues, parseItems, hc, ih hcs]
    rfl

/-- A condition of the grammar is accepted as it is written. -/
theorem Regular.parse_toValue {Q : Value → Prop} (h : Regular Q c) : parse c.toValue = .ok c := by
  induction h with
  | literal b => rfl
  | path p => exact parse_tagged (.path p)
  | and _ ih => exact parse_tagged (.and (parseItems_toValues ih))
  | or _ ih => exact parse_tagged (.or (parseItems_toValues ih))
  | not _ ih => exact parse_tagged (.not ih)
  | compare op _ =>
    refine (parse_tagged (.compare op _)).trans ?_
    simp [Operand.ofValue_toValue_ofValue]

theorem distinct_tagged (name : String) (h : v.Distinct) : (tagged name v).Distinct :=
  .object (List.nodup_singleton name) (List.forall_mem_singleton.2 h)

theorem distinct_operand (h : v.Distinct) : (Operand.ofValue v).toValue.Distinct := by
  rw [Operand.ofValue]
  split
  · exact distinct_tagged _ (.string _)
  · exact h

theorem Regular.distinct_toValue (h : Regular Value.Distinct c) : c.toValue.Distinct := by
  induction h with
  | literal b => exact .bool b
  | path p => exact distinct_tagged _ (.string p)
  | and _ ih | or _ ih =>
    refine distinct_tagged _ (.array ?_)
    rw [toValues_eq_map]
    exact List.forall_mem_map.2 ih
  | not _ ih => exact distinct_tagged _ ih
  | compare op h =>
    refine distinct_tagged _ (.array (List.forall_mem_map.2 (List.forall_mem_map.2 ?_)))
    exact fun v hv => distinct_operand (h v hv)

/-! ## Values of any form -/

theorem hereditary_true : Hereditary fun _ => True := ⟨fun _ _ => trivial, fun _ _ => trivial⟩

theorem hereditary_distinct : Hereditary Value.Distinct where
  item h hv := by
    cases h with
    | array values => exact values _ hv
  member h hm := by
    cases h with
    | object _ values => exact values _ hm

/-- Writing a condition and reading it again does not change it. -/
theorem ofValue_toValue_ofValue (v : Value) : ofValue (ofValue v).toValue = ofValue v := by
  cases h : parse v with
  | ok c =>
    have hc := (regular_of_parse hereditary_true (v := v) trivial h).parse_toValue
    simp only [ofValue, h, hc]
  | error e => simp only [ofValue, h, toValue]

theorem distinct_toValue_ofValue (h : v.Distinct) : (ofValue v).toValue.Distinct := by
  cases hparse : parse v with
  | ok c =>
    simp only [ofValue, hparse]
    exact (regular_of_parse hereditary_distinct h hparse).distinct_toValue
  | error e => simpa only [ofValue, hparse, toValue] using h

theorem toValue_ofValue_ne_null (h : v ≠ .null) : (ofValue v).toValue ≠ .null := by
  cases hparse : parse v with
  | ok c =>
    simp only [ofValue, hparse]
    intro hnull
    cases regular_of_parse hereditary_true (v := v) trivial hparse <;> cases hnull
  | error e => simpa only [ofValue, hparse, toValue] using h

end Condition

end StreamedUi
