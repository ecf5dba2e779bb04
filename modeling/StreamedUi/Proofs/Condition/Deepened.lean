import StreamedUi.Proofs.Condition.Members
import StreamedUi.Proofs.Json.Levels

/-! How deep a condition nests as it is stored. An object with several members of the grammar is
stored as a list of conditions under `and`, two levels further down. Without such an object no
condition gets deeper, and with some of them on the way down it gets at most twice as many levels
deeper (`depth_toValue_ofValue_le`). -/

namespace StreamedUi
open Json

theorem depth_tagged (name : String) (v : Value) : (tagged name v).depth = v.depth + 1 := by
  rw [tagged, Value.depth, Value.membersDepth, Value.membersDepth, Nat.max_zero]

theorem Operand.depth_toValue_ofValue_le (v : Value) : (ofValue v).toValue.depth ≤ v.depth := by
  cases h : v.stringMember? "path" with
  | none => simp only [ofValue, h, toValue, Nat.le_refl]
  | some p =>
    simp only [ofValue, h, toValue, depth_tagged]
    cases v with
    | object ms => exact Nat.succ_le_succ (Nat.zero_le _)
    | _ => cases h

namespace Condition

variable {c : Condition} {cs : List Condition} {ms : List (String × Value)}

/-- How many members of an object are members of the grammar. -/
def memberCount (ms : List (String × Value)) : Nat := (ms.filter (names.contains ·.1)).length

mutual
/-- How many objects with several members of the grammar are on one way down through conditions. -/
def joints : Value → Nat
  | .object ms => memberJoints ms + if 2 ≤ memberCount ms then 1 else 0
  | _ => 0

def memberJoints : List (String × Value) → Nat
  | [] => 0
  | (name, v) :: rest =>
    max
      (if name = "not" then joints v
      else if name = "and" ∨ name = "or" then
        match v with
        | .array items => itemJoints items
        | _ => 0
      else 0)
      (memberJoints rest)

def itemJoints : List Value → Nat
  | [] => 0
  | v :: vs => max (joints v) (itemJoints vs)
end

theorem memberJoints_items {name : String} (hname : name = "and" ∨ name = "or")
    (items : List Value) (rest : List (String × Value)) :
    memberJoints ((name, .array items) :: rest) = max (itemJoints items) (memberJoints rest) := by
  have hnot : name ≠ "not" := by rcases hname with rfl | rfl <;> decide
  rw [memberJoints.eq_def]
  simp only [if_neg hnot, if_pos hname]

theorem memberJoints_not (v : Value) (rest : List (String × Value)) :
    memberJoints (("not", v) :: rest) = max (joints v) (memberJoints rest) := by
  rw [memberJoints.eq_def]
  simp only [if_true]

theorem memberJoints_le_cons (m : String × Value) (rest : List (String × Value)) :
    memberJoints rest ≤ memberJoints (m :: rest) := by
  rw [memberJoints.eq_def (m :: rest)]
  exact Nat.le_max_right _ _

theorem length_of_parseMembers (h : parseMembers ms = .ok cs) : cs.length = memberCount ms := by
  induction ms generalizing cs with
  | nil =>
    cases h
    rfl
  | cons m ms ih =>
    obtain ⟨name, v⟩ := m
    rw [memberCount, List.filter_cons]
    rcases parseMembers_cons_eq_ok h with ⟨hname, hrest⟩ | ⟨c, cs', rfl, hmember, hrest⟩
    · rw [if_neg (mt List.contains_iff_mem.1 hname)]
      exact ih hrest
    · rw [if_pos (List.contains_iff_mem.2 hmember.mem_names)]
      exact congrArg (· + 1) (ih hrest)

/-- What the members of an object form together is two levels deeper if there are several. -/
theorem depth_ofParts_le {n : Nat} (hc : ofParts cs = .ok c)
    (h : Value.itemsDepth (toValues cs) ≤ n) :
    c.toValue.depth ≤ n + 2 * if 2 ≤ cs.length then 1 else 0 := by
  match cs with
  | [] => cases hc
  | [d] =>
    cases hc
    exact (Nat.le_max_left _ _).trans h
  | d :: e :: cs =>
    cases hc
    have hseveral : 2 ≤ (d :: e :: cs).length := Nat.le_add_left _ _
    rw [if_pos hseveral, toValue, depth_tagged, Value.depth]
    exact Nat.add_le_add_right h 2

-- By recursion on the value, as the parser goes: an `and`, an `or` or a `not` is stored as deep as
-- it is, and only the objects around them can become lists.
mutual
theorem depth_le_of_parse : ∀ {v : Value} {c : Condition}, parse v = .ok c →
    c.toValue.depth ≤ v.depth + 2 * joints v
  | .bool b, _, h => by
    cases h
    exact Nat.zero_le _
  | .object ms, _, h => by
    obtain ⟨cs, hcs, hc⟩ := bind_eq_ok h
    have hle := depth_ofParts_le hc (depth_le_of_parseMembers hcs)
    rw [length_of_parseMembers hcs] at hle
    rw [joints, Value.depth]
    omega
  | .null, _, h | .number _, _, h | .string _, _, h | .array _, _, h => by cases h

theorem depth_le_of_parseMembers : ∀ {ms : List (String × Value)} {cs : List Condition},
    parseMembers ms = .ok cs →
      Value.itemsDepth (toValues cs) ≤ Value.membersDepth ms + 1 + 2 * memberJoints ms
  | [], _, h => by
    cases h
    exact Nat.zero_le _
  | (name, v) :: rest, cs, h => by
    have hjoints := memberJoints_le_cons (name, v) rest
    rw [Value.membersDepth]
    rcases parseMembers_cons_eq_ok h with ⟨-, hrest⟩ | ⟨c, cs', rfl, hmember, hrest⟩
    · have hle := depth_le_of_parseMembers hrest
      omega
    have hle := depth_le_of_parseMembers hrest
    have hc : c.toValue.depth ≤ v.depth + 1 + 2 * memberJoints ((name, v) :: rest) := by
      cases hmember with
      | path p =>
        rw [toValue, depth_tagged]
        exact Nat.le_add_right _ _
      | and hitems | or hitems =>
        have hitems := depth_le_of_parseItems hitems
        rw [memberJoints_items (by decide)] at hjoints ⊢
        rw [toValue, depth_tagged, Value.depth, Value.depth]
        omega
      | not hc =>
        have hc := depth_le_of_parse hc
        rw [memberJoints_not] at hjoints ⊢
        rw [toValue, depth_tagged]
        omega
      | compare op operands =>
        have hoperands : Value.itemsDepth ((operands.map Operand.ofValue).map Operand.toValue) ≤
            Value.itemsDepth operands := by
          rw [List.map_map]
          refine Value.itemsDepth_le_iff.2 (List.forall_mem_map.2 ?_)
          intro w hw
          exact (Operand.depth_toValue_ofValue_le w).trans
            (Value.itemsDepth_le_iff.1 (Nat.le_refl _) w hw)
        rw [toValue, depth_tagged, Value.depth, Value.depth]
        omega
    rw [toValues, Value.itemsDepth]
    omega

theorem depth_le_of_parseItems : ∀ {vs : List Value} {cs : List Condition},
    parseItems vs = .ok cs →
      Value.itemsDepth (toValues cs) ≤ Value.itemsDepth vs + 2 * itemJoints vs
  | [], _, h => by
    cases h
    exact Nat.zero_le _
  | v :: vs, cs, h => by
    obtain ⟨c, hc, h⟩ := bind_eq_ok h
    obtain ⟨cs', hcs', rfl⟩ := map_eq_ok h
    have hfirst := depth_le_of_parse hc
    have hrest := depth_le_of_parseItems hcs'
    rw [toValues, Value.itemsDepth, Value.itemsDepth, itemJoints]
    omega
end

/-- A condition is stored two levels deeper, at most, for each object on one way down that stands
for several conditions. -/
theorem depth_toValue_ofValue_le (v : Value) :
    (ofValue v).toValue.depth ≤ v.depth + 2 * joints v := by
  cases h : parse v with
  | ok c =>
    simp only [ofValue, h]
    exact depth_le_of_parse h
  | error e =>
    simp only [ofValue, h, toValue]
    exact Nat.le_add_right _ _

end Condition

end StreamedUi
