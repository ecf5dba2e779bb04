import Mathlib.Logic.Function.Iterate
import StreamedUi.Condition.Eval
import StreamedUi.Proofs.Condition.Stored

/-! The form in which a condition is stored. Several members of the grammar in one object become a
conjunction of objects with one member each, an operand is reduced to the path that it binds, and
members outside the grammar are left out (`toValue_of_parse`). Storing it again changes nothing. -/

namespace StreamedUi
open Json

namespace Condition

variable {v : Value} {c : Condition} {cs : List Condition} {ms : List (String × Value)}

/-- Of an object with a string under `path` only that member is kept. -/
def normalOperand (v : Value) : Value :=
  match v.stringMember? "path" with
  | some p => tagged "path" (.string p)
  | none => v

/-- A single part stands for itself. -/
def conjoined : List Value → Value
  | [v] => v
  | vs => tagged "and" (.array vs)

mutual
/-- The form in which a well-formed value is stored. -/
def normal : Value → Value
  | .object ms =>
    conjoined <| (ms.filter (·.1 ∈ names)).map fun m => tagged m.1 (normalMember m.1 m.2)
  | v => v
termination_by v => (sizeOf v, 0)
decreasing_by
  have hm := List.sizeOf_lt_of_mem ‹m ∈ ms›
  obtain ⟨name, v⟩ := m
  simp only [Prod.mk.sizeOf_spec, Value.object.sizeOf_spec] at hm ⊢
  exact .left _ _ (by omega)

/-- The stored form of the value of a member of the grammar. -/
def normalMember (name : String) (v : Value) : Value :=
  if name = "not" then normal v
  else
    match v with
    | .array items =>
      .array (if name = "and" ∨ name = "or" then items.map normal else items.map normalOperand)
    | v => v
termination_by (sizeOf v, 1)
decreasing_by
  · exact .right _ Nat.zero_lt_one
  · have hw := List.sizeOf_lt_of_mem ‹_›
    exact .left _ _ (by rw [Value.array.sizeOf_spec]; omega)
end

theorem normalMember_not (v : Value) : normalMember "not" v = normal v := by
  rw [normalMember.eq_def, if_pos rfl]

theorem toValue_operand (v : Value) : (Operand.ofValue v).toValue = normalOperand v := by
  rw [Operand.ofValue, normalOperand]
  cases v.stringMember? "path" <;> rfl

theorem toValue_ofParts (h : ofParts cs = .ok c) : c.toValue = conjoined (toValues cs) := by
  match cs with
  | [] => cases h
  | [d] =>
    cases h
    rfl
  | d :: e :: cs =>
    cases h
    rfl

mutual
/-- What is accepted is stored in its normal form. -/
theorem toValue_of_parse : ∀ {v : Value} {c : Condition}, parse v = .ok c → c.toValue = normal v
  | .bool b, _, h => by
    cases h
    rw [normal, toValue]
    exact nofun
  | .object ms, _, h => by
    obtain ⟨cs, hcs, hc⟩ := bind_eq_ok h
    rw [toValue_ofParts hc, toValues_of_parseMembers hcs, normal]
  | .null, _, h | .number _, _, h | .string _, _, h | .array _, _, h => by cases h

theorem toValues_of_parseMembers : ∀ {ms : List (String × Value)} {cs : List Condition},
    parseMembers ms = .ok cs →
      toValues cs =
        (ms.filter (·.1 ∈ names)).map fun m => tagged m.1 (normalMember m.1 m.2)
  | [], _, h => by
    cases h
    rfl
  | (name, v) :: rest, cs, h => by
    rcases parseMembers_cons_eq_ok h with ⟨hname, hrest⟩ | ⟨c, cs', rfl, hmember, hrest⟩
    · rw [List.filter_cons_of_neg (by simpa using hname), toValues_of_parseMembers hrest]
    · rw [List.filter_cons_of_pos (by simpa using hmember.mem_names), List.map_cons, toValues,
        toValues_of_parseMembers hrest]
      congr 1
      cases hmember with
      | path p => simp [toValue, normalMember]
      | and hitems | or hitems => simp [toValue, normalMember, toValues_of_parseItems hitems]
      | not hc => rw [toValue, normalMember_not, toValue_of_parse hc]
      | compare op operands =>
        obtain ⟨-, hand, hor, hnot⟩ := op.name_ne
        simp [toValue, normalMember, hand, hor, hnot, Function.comp_def, toValue_operand]

theorem toValues_of_parseItems : ∀ {vs : List Value} {cs : List Condition},
    parseItems vs = .ok cs → toValues cs = vs.map normal
  | [], _, h => by
    cases h
    rfl
  | v :: vs, cs, h => by
    obtain ⟨c, hc, h⟩ := bind_eq_ok h
    obtain ⟨cs', hcs', rfl⟩ := map_eq_ok h
    rw [toValues, List.map_cons, toValue_of_parse hc, toValues_of_parseItems hcs']
end

/-! ## Storing again and again -/

/-- A value after it was read as a condition and written. -/
def stored (v : Value) : Value := (ofValue v).toValue

theorem ofValue_stored_iterate (n : Nat) (v : Value) : ofValue (stored^[n] v) = ofValue v := by
  induction n with
  | zero => rfl
  | succ n ih => rw [Function.iterate_succ_apply', stored, ofValue_toValue_ofValue, ih]

theorem stored_iterate (n : Nat) (v : Value) : stored^[n + 1] v = stored v := by
  rw [Function.iterate_succ_apply', stored, ofValue_stored_iterate, stored]

theorem stored_of_parse_ok (h : parse v = .ok c) : stored v = normal v := by
  rw [stored, ofValue, h]
  exact toValue_of_parse h

theorem ofValue_of_parse_error {e : Error} (h : parse v = .error e) : ofValue v = .unknown v := by
  rw [ofValue, h]

/-- Storing a condition does not change it, and what is no condition is stored as it is. -/
theorem stored_faithful (v : Value) :
    ofValue (ofValue v).toValue = ofValue v ∧
    (∀ n, (∀ data, (ofValue (stored^[n] v)).holds data = (ofValue v).holds data) ∧
      (ofValue (stored^[n] v)).paths = (ofValue v).paths) ∧
    (∀ n, stored^[n + 1] v = stored v) ∧
    (∀ c, parse v = .ok c → stored v = normal v) ∧
    ∀ e, parse v = .error e → ofValue v = .unknown v ∧ stored v = v := by
  refine ⟨ofValue_toValue_ofValue v, fun n => ?_, fun n => stored_iterate n v,
    fun c => stored_of_parse_ok, fun e h => ?_⟩
  · rw [ofValue_stored_iterate]
    exact ⟨fun _ => rfl, rfl⟩
  · have hunknown := ofValue_of_parse_error h
    exact ⟨hunknown, by rw [stored, hunknown, toValue]⟩

theorem stored_faithful_hint :
    (parse (.object [("path", .string "a"), ("hint", .null), ("not", .bool true)]) =
        .ok (.and [.path "a", .not (.literal true)]) ∧
      stored (.object [("path", .string "a"), ("hint", .null), ("not", .bool true)]) =
        normal (.object [("path", .string "a"), ("hint", .null), ("not", .bool true)])) ∧
    parse (tagged "path" .null) = .error .pathNotString ∧
      stored (tagged "path" .null) = tagged "path" .null :=
  ⟨⟨rfl, (stored_faithful _).2.2.2.1 _ rfl⟩, rfl, ((stored_faithful _).2.2.2.2 _ rfl).2⟩

example : stored (.object [("path", .string "a"), ("hint", .null), ("not", .bool true)]) =
    tagged "and" (.array [tagged "path" (.string "a"), tagged "not" (.bool true)]) := rfl

end Condition

end StreamedUi
