import StreamedUi.Condition.Eval
import StreamedUi.Proofs.Condition.Members

/-! The grammar of conditions and what its values mean, apart from the parser and the evaluation.
The parser accepts the values of the grammar and no others (`accepts_iff`), and its result holds on
the data that meet the value (`holds_iff_of_parse`). -/

namespace StreamedUi
open Json

theorem Comparison.name_inj {op op' : Comparison} : op.name = op'.name ↔ op = op' := by
  cases op <;> cases op' <;> decide

namespace Condition

variable {name : String} {v w data : Value} {c : Condition} {cs : List Condition}
  {ms : List (String × Value)} {items : List Value}

/-! ## Well-formed values -/

mutual
/-- A boolean, or an object that has members of the grammar, all of them well formed. -/
inductive WellFormed : Value → Prop
  | bool (b : Bool) : WellFormed (.bool b)
  | object {ms : List (String × Value)} : (∃ m ∈ ms, m.1 ∈ names) →
    (∀ m ∈ ms, m.1 ∈ names → WellFormedMember m.1 m.2) → WellFormed (.object ms)

/-- A member of the grammar whose value has the form that its name asks for. -/
inductive WellFormedMember : String → Value → Prop
  | path (p : String) : WellFormedMember "path" (.string p)
  | and {items : List Value} : (∀ v ∈ items, WellFormed v) → WellFormedMember "and" (.array items)
  | or {items : List Value} : (∀ v ∈ items, WellFormed v) → WellFormedMember "or" (.array items)
  | not {v : Value} : WellFormed v → WellFormedMember "not" v
  | compare (op : Comparison) (operands : List Value) : WellFormedMember op.name (.array operands)
end

theorem wellFormed_object_iff :
    WellFormed (.object ms) ↔
      (∃ m ∈ ms, m.1 ∈ names) ∧ ∀ m ∈ ms, m.1 ∈ names → WellFormedMember m.1 m.2 := by
  constructor
  · intro h
    cases h with
    | object hsome hall => exact ⟨hsome, hall⟩
  · rintro ⟨hsome, hall⟩
    exact .object hsome hall

theorem WellFormedMember.mem_names (h : WellFormedMember name v) : name ∈ names := by
  cases h with
  | compare op operands => exact name_mem_names op
  | _ => decide

theorem parseMembers_of_notMem (h : ∀ m ∈ ms, m.1 ∉ names) : parseMembers ms = .ok [] := by
  induction ms with
  | nil => rfl
  | cons m ms ih =>
    obtain ⟨hm, hms⟩ := List.forall_mem_cons.1 h
    rw [parseMembers_cons_of_notMem hm, ih hms]

theorem wellFormedMember_path_iff : WellFormedMember "path" v ↔ ∃ p, v = .string p := by
  constructor
  · intro h
    generalize hname : "path" = name at h
    cases h with
    | path p => exact ⟨p, rfl⟩
    | compare op operands => exact absurd hname.symm op.name_ne.1
    | _ => exact absurd hname (by decide)
  · rintro ⟨p, rfl⟩
    exact .path p

theorem wellFormedMember_not_iff : WellFormedMember "not" v ↔ WellFormed v := by
  constructor
  · intro h
    generalize hname : "not" = name at h
    cases h with
    | not hv => exact hv
    | compare op operands => exact absurd hname.symm op.name_ne.2.2.2
    | _ => exact absurd hname (by decide)
  · exact .not

theorem wellFormedMember_array_iff (hname : name = "and" ∨ name = "or") :
    WellFormedMember name (.array items) ↔ ∀ v ∈ items, WellFormed v := by
  constructor
  · intro h
    cases h with
    | and hitems | or hitems => exact hitems
    | not hv => exact absurd hname (by decide)
    | compare op operands => exact absurd hname (not_or.2 ⟨op.name_ne.2.1, op.name_ne.2.2.1⟩)
  · rcases hname with rfl | rfl
    · exact .and
    · exact .or

theorem not_wellFormedMember_object (hname : name ≠ "not") :
    ¬ WellFormedMember name (.object ms) := by
  intro h
  cases h
  exact hname rfl

mutual
theorem wellFormed_of_parse : ∀ {v : Value} {c : Condition}, parse v = .ok c → WellFormed v
  | .bool b, _, _ => .bool b
  | .object ms, c, h => by
    obtain ⟨cs, hcs, hc⟩ := bind_eq_ok h
    by_cases hsome : ∃ m ∈ ms, m.1 ∈ names
    · exact .object hsome (wellFormedMember_of_parseMembers hcs)
    · rw [parseMembers_of_notMem fun m hm hname => hsome ⟨m, hm, hname⟩] at hcs
      obtain rfl := Except.ok.inj hcs
      cases hc
  | .null, _, h | .number _, _, h | .string _, _, h | .array _, _, h => by cases h

theorem wellFormedMember_of_parseMembers :
    ∀ {ms : List (String × Value)} {cs : List Condition}, parseMembers ms = .ok cs →
      ∀ m ∈ ms, m.1 ∈ names → WellFormedMember m.1 m.2
  | [], _, _ => fun _ hm => absurd hm List.not_mem_nil
  | (name, v) :: rest, cs, h => by
    rcases parseMembers_cons_eq_ok h with ⟨hname, hrest⟩ | ⟨c, cs', -, hmember, hrest⟩
    · exact List.forall_mem_cons.2
        ⟨fun hname' => absurd hname' hname, wellFormedMember_of_parseMembers hrest⟩
    · refine List.forall_mem_cons.2 ⟨fun _ => ?_, wellFormedMember_of_parseMembers hrest⟩
      cases hmember with
      | path p => exact .path p
      | and hitems => exact .and (wellFormed_of_parseItems hitems)
      | or hitems => exact .or (wellFormed_of_parseItems hitems)
      | not hc => exact .not (wellFormed_of_parse hc)
      | compare op operands => exact .compare op operands

theorem wellFormed_of_parseItems :
    ∀ {vs : List Value} {cs : List Condition}, parseItems vs = .ok cs → ∀ v ∈ vs, WellFormed v
  | [], _, _ => fun _ hv => absurd hv List.not_mem_nil
  | v :: vs, cs, h => by
    obtain ⟨c, hc, h⟩ := bind_eq_ok h
    obtain ⟨cs', hcs', -⟩ := map_eq_ok h
    exact List.forall_mem_cons.2 ⟨wellFormed_of_parse hc, wellFormed_of_parseItems hcs'⟩
end

/-! ## Meaning -/

/-- What an operand stands for: an object with a string under `path` for the data there, all else
for itself. -/
def operandValue (data v : Value) : Option Value :=
  match v.stringMember? "path" with
  | some p => data.at? p
  | none => some v

mutual
/-- The data meet a boolean if it is true, and an object if each member of the grammar holds. -/
def Meets (data : Value) : Value → Prop
  | .bool b => b = true
  | .object ms => ∀ m, ∀ _ : m ∈ ms, MeetsMember data m.1 m.2
  | _ => False
termination_by v => (sizeOf v, 0)
decreasing_by
  have hm := List.sizeOf_lt_of_mem ‹_›
  obtain ⟨name, v⟩ := m
  simp only [Prod.mk.sizeOf_spec, Value.object.sizeOf_spec] at hm ⊢
  exact .left _ _ (by omega)

/-- The data meet one member; a member outside the grammar asks for nothing. -/
def MeetsMember (data : Value) (name : String) (v : Value) : Prop :=
  (name = "path" → ∀ p, v = .string p → (data.at? p).any truthy = true) ∧
  (name = "and" → ∀ items, v = .array items → ∀ w, ∀ _ : w ∈ items, Meets data w) ∧
  (name = "or" → ∀ items, ∀ _ : v = .array items, ∃ w, ∃ _ : w ∈ items, Meets data w) ∧
  (name = "not" → ¬ Meets data v) ∧
  ∀ op operands, name = Comparison.name op → v = .array operands →
    op.holds (operands[0]?.bind (operandValue data)) (operands[1]?.bind (operandValue data)) = true
termination_by (sizeOf v, 1)
decreasing_by
  · have hw := List.sizeOf_lt_of_mem ‹_›
    subst v
    exact .left _ _ (by rw [Value.array.sizeOf_spec]; omega)
  · have hw := List.sizeOf_lt_of_mem ‹_›
    subst v
    exact .left _ _ (by rw [Value.array.sizeOf_spec]; omega)
  · exact .right _ Nat.zero_lt_one
end

theorem meets_object_iff : Meets data (.object ms) ↔ ∀ m ∈ ms, MeetsMember data m.1 m.2 := by
  rw [Meets]

theorem meetsMember_path_iff :
    MeetsMember data "path" v ↔ ∀ p, v = .string p → (data.at? p).any truthy = true := by
  rw [MeetsMember]
  simp [fun op : Comparison => op.name_ne.1.symm]

theorem meetsMember_and_iff :
    MeetsMember data "and" (.array items) ↔ ∀ v ∈ items, Meets data v := by
  rw [MeetsMember]
  simp [fun op : Comparison => op.name_ne.2.1.symm]

theorem meetsMember_or_iff :
    MeetsMember data "or" (.array items) ↔ ∃ v ∈ items, Meets data v := by
  rw [MeetsMember]
  simp [fun op : Comparison => op.name_ne.2.2.1.symm]

theorem meetsMember_not_iff : MeetsMember data "not" v ↔ ¬ Meets data v := by
  rw [MeetsMember]
  simp [fun op : Comparison => op.name_ne.2.2.2.symm]

theorem meetsMember_compare_iff {op : Comparison} {operands : List Value} :
    MeetsMember data op.name (.array operands) ↔
      op.holds (operands[0]?.bind (operandValue data))
        (operands[1]?.bind (operandValue data)) = true := by
  obtain ⟨hpath, hand, hor, hnot⟩ := op.name_ne
  rw [MeetsMember]
  simp [hpath, hand, hor, hnot, Comparison.name_inj]

theorem meetsMember_of_notMem (h : name ∉ names) : MeetsMember data name v := by
  obtain ⟨hpath, hand, hor, hnot, hop⟩ := notMem_names_iff.1 h
  rw [MeetsMember]
  simp [hpath, hand, hor, hnot, hop]

/-! ## The parser and the evaluation -/

theorem resolve_ofValue (v : Value) : (Operand.ofValue v).resolve data = operandValue data v := by
  rw [Operand.ofValue, operandValue]
  cases v.stringMember? "path" <;> rfl

theorem holds_compare_iff (op : Comparison) (operands : List Value) :
    (compare op (operands.map Operand.ofValue)).holds data = true ↔
      MeetsMember data op.name (.array operands) := by
  rw [meetsMember_compare_iff, holds]
  simp only [List.getElem?_map, Option.bind_map, Function.comp_def, resolve_ofValue]

theorem exists_parseItems
    (h : ∀ v ∈ items, ∃ c, parse v = .ok c ∧ ∀ data, c.holds data = true ↔ Meets data v) :
    ∃ cs, parseItems items = .ok cs ∧
      (∀ data, holdAll data cs = true ↔ ∀ v ∈ items, Meets data v) ∧
      ∀ data, holdsAny data cs = true ↔ ∃ v ∈ items, Meets data v := by
  induction items with
  | nil => exact ⟨[], rfl, by simp [holdAll], by simp [holdsAny]⟩
  | cons v items ih =>
    obtain ⟨⟨c, hparse, hc⟩, hitems⟩ := List.forall_mem_cons.1 h
    obtain ⟨cs, hcs, hall, hsome⟩ := ih hitems
    refine ⟨c :: cs, by rw [parseItems, hparse, hcs]; rfl, fun data => ?_, fun data => ?_⟩
    · rw [List.forall_mem_cons, ← hc data, ← hall data, holdAll, Bool.and_eq_true]
    · simp only [List.mem_cons, exists_eq_or_imp, ← hc data, ← hsome data, holdsAny,
        Bool.or_eq_true]

theorem exists_parseMembers
    (h : ∀ m ∈ ms, m.1 ∈ names → ∃ c, ParsesMember m.1 m.2 c ∧
      ∀ data, c.holds data = true ↔ MeetsMember data m.1 m.2) :
    ∃ cs, parseMembers ms = .ok cs ∧ (cs = [] → ∀ m ∈ ms, m.1 ∉ names) ∧
      ∀ data, holdAll data cs = true ↔ ∀ m ∈ ms, MeetsMember data m.1 m.2 := by
  induction ms with
  | nil => exact ⟨[], rfl, fun _ _ hm => absurd hm List.not_mem_nil, by simp [holdAll]⟩
  | cons m ms ih =>
    obtain ⟨hm, hms⟩ := List.forall_mem_cons.1 h
    obtain ⟨cs, hcs, hnil, hall⟩ := ih hms
    by_cases hname : m.1 ∈ names
    · obtain ⟨c, hparse, hc⟩ := hm hname
      refine ⟨c :: cs, by rw [parseMembers_cons hparse, hcs]; rfl, nofun, fun data => ?_⟩
      rw [List.forall_mem_cons, ← hc data, ← hall data, holdAll, Bool.and_eq_true]
    · refine ⟨cs, by rw [parseMembers_cons_of_notMem hname, hcs],
        fun h => List.forall_mem_cons.2 ⟨hname, hnil h⟩, fun data => ?_⟩
      rw [List.forall_mem_cons, hall data, and_iff_right (meetsMember_of_notMem hname)]

theorem exists_ofParts (h : cs ≠ []) :
    ∃ c, ofParts cs = .ok c ∧ ∀ data, c.holds data = holdAll data cs := by
  match cs, h with
  | [c], _ => exact ⟨c, rfl, fun data => by rw [holdAll, holdAll, Bool.and_true]⟩
  | c :: d :: cs, _ => exact ⟨_, rfl, fun data => by rw [holds]⟩

-- The induction is on why the value is well formed; the lists of members and of items are dealt
-- with by the lemmas above.
mutual
/-- What is well formed is accepted, and the result holds on the data that meet it. -/
theorem WellFormed.exists_parse : ∀ {v : Value}, WellFormed v →
    ∃ c, parse v = .ok c ∧ ∀ data, c.holds data = true ↔ Meets data v
  | _, .bool b => ⟨.literal b, rfl, fun data => by simp only [Meets, holds]⟩
  | .object ms, .object ⟨m, hm, hname⟩ hall => by
    obtain ⟨cs, hcs, hnil, hmeans⟩ :=
      exists_parseMembers fun m hm hname => (hall m hm hname).exists_parsesMember
    obtain ⟨c, hc, hholds⟩ := exists_ofParts fun h => hnil h m hm hname
    refine ⟨c, by rw [parse, hcs]; exact hc, fun data => ?_⟩
    rw [hholds data, hmeans data, meets_object_iff]

theorem WellFormedMember.exists_parsesMember : ∀ {name : String} {v : Value},
    WellFormedMember name v →
      ∃ c, ParsesMember name v c ∧ ∀ data, c.holds data = true ↔ MeetsMember data name v
  | _, _, .path p => by
    refine ⟨.path p, .path p, fun data => ?_⟩
    simp only [meetsMember_path_iff, Value.string.injEq, forall_eq', holds]
  | _, _, .and hitems => by
    obtain ⟨cs, hcs, hall, -⟩ := exists_parseItems fun v hv => (hitems v hv).exists_parse
    exact ⟨_, .and hcs, fun data => by rw [meetsMember_and_iff, ← hall data, holds]⟩
  | _, _, .or hitems => by
    obtain ⟨cs, hcs, -, hsome⟩ := exists_parseItems fun v hv => (hitems v hv).exists_parse
    exact ⟨_, .or hcs, fun data => by rw [meetsMember_or_iff, ← hsome data, holds]⟩
  | _, _, .not hv => by
    obtain ⟨c, hparse, hc⟩ := hv.exists_parse
    exact ⟨_, .not hparse, fun data => by
      rw [meetsMember_not_iff, ← hc data, holds, Bool.not_eq_true', Bool.not_eq_true]⟩
  | _, _, .compare op operands =>
    ⟨_, .compare op operands, fun data => holds_compare_iff op operands⟩
end

theorem accepts_iff_exists : accepts v = true ↔ ∃ c, parse v = .ok c := by
  rw [accepts]
  cases parse v <;> simp

/-- The parser accepts the grammar and nothing else. -/
theorem accepts_iff : accepts v = true ↔ WellFormed v := by
  rw [accepts_iff_exists]
  constructor
  · rintro ⟨c, hc⟩
    exact wellFormed_of_parse hc
  · intro h
    obtain ⟨c, hc, -⟩ := h.exists_parse
    exact ⟨c, hc⟩

theorem holds_iff_of_parse (h : parse v = .ok c) : c.holds data = true ↔ Meets data v := by
  obtain ⟨d, hd, hmeans⟩ := (wellFormed_of_parse h).exists_parse
  obtain rfl := Except.ok.inj (h.symm.trans hd)
  exact hmeans data

/-- What is kept as an unknown condition holds. -/
theorem holds_ofValue_iff : (ofValue v).holds data = true ↔ (WellFormed v → Meets data v) := by
  rw [ofValue]
  split
  next c h => rw [holds_iff_of_parse h, imp_iff_right (wellFormed_of_parse h)]
  next e h =>
    have hv : ¬ WellFormed v := by rw [← accepts_iff, accepts, h]; exact Bool.false_ne_true
    exact iff_of_true (by rw [holds]) fun hwf => absurd hwf hv

end Condition

end StreamedUi
