import StreamedUi.Condition.Parser
import StreamedUi.Proofs.Condition.Mentions

/-! How the parser goes through the members of an object. A member outside the grammar is passed
over, a member of the grammar gives one condition (`parseMembers_cons_eq_ok`), and the paths of a
condition are those of the value that it comes from (`paths_ofValue`). -/

namespace StreamedUi
open Json

namespace Condition

variable {name : String} {v : Value} {c : Condition} {cs : List Condition}
  {rest : List (String × Value)}

/-- The names of the grammar. -/
def names : List String := ["path", "and", "or", "not"] ++ Comparison.all.map Comparison.name

theorem mem_names_iff :
    name ∈ names ↔
      name = "path" ∨ name = "and" ∨ name = "or" ∨ name = "not" ∨
        ∃ op, name = Comparison.name op := by
  constructor
  · intro h
    rcases List.mem_append.1 h with h | h
    · simp only [List.mem_cons, List.not_mem_nil, or_false] at h
      exact h.imp_right fun h => h.imp_right fun h => h.imp_right .inl
    · obtain ⟨op, -, rfl⟩ := List.mem_map.1 h
      exact .inr (.inr (.inr (.inr ⟨op, rfl⟩)))
  · rintro (rfl | rfl | rfl | rfl | ⟨op, rfl⟩)
    case inr.inr.inr.inr => cases op <;> decide
    all_goals decide

theorem notMem_names_iff :
    name ∉ names ↔
      name ≠ "path" ∧ name ≠ "and" ∧ name ≠ "or" ∧ name ≠ "not" ∧
        ∀ op, name ≠ Comparison.name op := by
  simp only [mem_names_iff, not_or, not_exists, ne_eq]

theorem name_mem_names (op : Comparison) : op.name ∈ names :=
  mem_names_iff.2 (.inr (.inr (.inr (.inr ⟨op, rfl⟩))))

/-- The condition that a member of the grammar gives. -/
inductive ParsesMember : String → Value → Condition → Prop
  | path (p : String) : ParsesMember "path" (.string p) (.path p)
  | and {items : List Value} {cs : List Condition} : parseItems items = .ok cs →
    ParsesMember "and" (.array items) (.and cs)
  | or {items : List Value} {cs : List Condition} : parseItems items = .ok cs →
    ParsesMember "or" (.array items) (.or cs)
  | not {v : Value} {c : Condition} : parse v = .ok c → ParsesMember "not" v (.not c)
  | compare (op : Comparison) (operands : List Value) :
    ParsesMember op.name (.array operands) (.compare op (operands.map Operand.ofValue))

theorem ParsesMember.mem_names (h : ParsesMember name v c) : name ∈ names := by
  cases h with
  | compare op operands => exact name_mem_names op
  | _ => decide

theorem map_eq_ok {α β ε : Type} {f : α → β} {x : Except ε α} {b : β} (h : x.map f = .ok b) :
    ∃ a, x = .ok a ∧ f a = b := by
  cases x with
  | error => cases h
  | ok a => exact ⟨a, rfl, Except.ok.inj h⟩

theorem bind_eq_ok {α β ε : Type} {f : α → Except ε β} {x : Except ε α} {b : β}
    (h : x >>= f = .ok b) : ∃ a, x = .ok a ∧ f a = .ok b := by
  cases x with
  | error => cases h
  | ok a => exact ⟨a, rfl, h⟩

theorem parseMembers_cons_of_notMem (h : name ∉ names) :
    parseMembers ((name, v) :: rest) = parseMembers rest := by
  obtain ⟨hpath, hand, hor, hnot, hop⟩ := notMem_names_iff.1 h
  rw [parseMembers.eq_def]
  simp only [if_neg hpath, if_neg hand, if_neg hor, if_neg hnot,
    Comparison.ofName?_eq_none_iff.2 hop]

theorem parseMembers_cons (h : ParsesMember name v c) :
    parseMembers ((name, v) :: rest) = (parseMembers rest).map (c :: ·) := by
  rw [parseMembers.eq_def]
  cases h with
  | path p => rfl
  | and h | or h => simp [h, bind, Except.bind]
  | not h => simp [h, bind, Except.bind]
  | compare op operands =>
    obtain ⟨hpath, hand, hor, hnot⟩ := op.name_ne
    simp [hpath, hand, hor, hnot, op.ofName?_name]

/-- A member of the grammar is accepted as its own condition. -/
theorem parsesMember_of_parseMembers (hname : name ∈ names)
    (h : parseMembers ((name, v) :: rest) = .ok cs) : ∃ c, ParsesMember name v c := by
  rw [parseMembers.eq_def] at h
  rcases mem_names_iff.1 hname with rfl | rfl | rfl | rfl | ⟨op, rfl⟩
  case inl =>
    cases v <;> try cases h
    exact ⟨_, .path _⟩
  case inr.inl =>
    cases v <;> try cases h
    obtain ⟨ds, hds, -⟩ := bind_eq_ok h
    exact ⟨_, .and hds⟩
  case inr.inr.inl =>
    cases v <;> try cases h
    obtain ⟨ds, hds, -⟩ := bind_eq_ok h
    exact ⟨_, .or hds⟩
  case inr.inr.inr.inl =>
    obtain ⟨c, hc, -⟩ := bind_eq_ok h
    exact ⟨_, .not hc⟩
  case inr.inr.inr.inr =>
    obtain ⟨hpath, hand, hor, hnot⟩ := op.name_ne
    simp only [if_neg hpath, if_neg hand, if_neg hor, if_neg hnot, op.ofName?_name] at h
    cases v <;> try cases h
    exact ⟨_, .compare op _⟩

/-- A member gives a condition, or it is outside the grammar. -/
theorem parseMembers_cons_eq_ok (h : parseMembers ((name, v) :: rest) = .ok cs) :
    (name ∉ names ∧ parseMembers rest = .ok cs) ∨
      ∃ c cs', cs = c :: cs' ∧ ParsesMember name v c ∧ parseMembers rest = .ok cs' := by
  by_cases hname : name ∈ names
  · obtain ⟨c, hc⟩ := parsesMember_of_parseMembers hname h
    rw [parseMembers_cons hc] at h
    obtain ⟨cs', hrest, rfl⟩ := map_eq_ok h
    exact .inr ⟨c, cs', rfl, hc, hrest⟩
  · exact .inl ⟨hname, by rwa [parseMembers_cons_of_notMem hname] at h⟩

/-- An object with a single member of the grammar. -/
theorem parse_tagged (h : ParsesMember name v c) : parse (tagged name v) = .ok c := by
  rw [tagged, parse, parseMembers_cons h]
  rfl

/-! ## Paths -/

theorem memberPaths_of_notMem (h : name ∉ names) : memberPaths name v = [] := by
  obtain ⟨hpath, hand, hor, hnot, hop⟩ := notMem_names_iff.1 h
  have hnone := Comparison.ofName?_eq_none_iff.2 hop
  cases v <;> simp [memberPaths, rawMemberPaths, hpath, hand, hor, hnot, hnone]

theorem memberPaths_path (v : Value) : memberPaths "path" v = v.string?.toList := by
  cases v <;> rfl

theorem memberPaths_not (v : Value) : memberPaths "not" v = rawPaths v := by
  cases v <;> simp [memberPaths, rawMemberPaths]

theorem path?_ofValue (v : Value) : (Operand.ofValue v).path? = v.stringMember? "path" := by
  rw [Operand.ofValue]
  cases v.stringMember? "path" <;> rfl

theorem paths_ofParts (h : ofParts cs = .ok c) : c.paths = pathsOf cs := by
  match cs with
  | [] => cases h
  | [d] =>
    cases h
    rw [pathsOf, pathsOf, List.append_nil]
  | d :: e :: cs =>
    cases h
    rw [paths]

mutual
theorem paths_of_parse : ∀ {v : Value} {c : Condition}, parse v = .ok c → c.paths = rawPaths v
  | .bool b, _, h => by
    cases h
    rfl
  | .object ms, _, h => by
    obtain ⟨cs, hcs, hc⟩ := bind_eq_ok h
    rw [paths_ofParts hc, rawPaths, pathsOf_of_parseMembers hcs]
  | .null, _, h | .number _, _, h | .string _, _, h | .array _, _, h => by cases h

theorem pathsOf_of_parseMembers : ∀ {ms : List (String × Value)} {cs : List Condition},
    parseMembers ms = .ok cs → pathsOf cs = rawMemberPaths ms
  | [], _, h => by
    cases h
    rfl
  | (name, v) :: rest, cs, h => by
    rw [rawMemberPaths_cons]
    rcases parseMembers_cons_eq_ok h with ⟨hname, hrest⟩ | ⟨c, cs', rfl, hmember, hrest⟩
    · rw [memberPaths_of_notMem hname, List.nil_append, pathsOf_of_parseMembers hrest]
    · rw [pathsOf, pathsOf_of_parseMembers hrest]
      congr 1
      cases hmember with
      | path p => rfl
      | and hitems => rw [memberPaths_items (.inl rfl), paths, pathsOf_of_parseItems hitems]
      | or hitems => rw [memberPaths_items (.inr rfl), paths, pathsOf_of_parseItems hitems]
      | not hc => rw [memberPaths_not, paths, paths_of_parse hc]
      | compare op operands =>
        have hcomp : Operand.path? ∘ Operand.ofValue = Value.stringMember? "path" :=
          funext path?_ofValue
        rw [memberPaths_operands, paths, operandPaths, List.filterMap_map, hcomp]

theorem pathsOf_of_parseItems : ∀ {vs : List Value} {cs : List Condition},
    parseItems vs = .ok cs → pathsOf cs = rawItemPaths vs
  | [], _, h => by
    cases h
    rfl
  | v :: vs, cs, h => by
    obtain ⟨c, hc, h⟩ := bind_eq_ok h
    obtain ⟨cs', hcs', rfl⟩ := map_eq_ok h
    rw [pathsOf, rawItemPaths, paths_of_parse hc, pathsOf_of_parseItems hcs']
end

/-- The paths of a condition are those of the value that it was read from. -/
theorem paths_ofValue (v : Value) : (ofValue v).paths = rawPaths v := by
  rw [ofValue]
  split
  next h => exact paths_of_parse h
  next => rw [paths]

end Condition

end StreamedUi
