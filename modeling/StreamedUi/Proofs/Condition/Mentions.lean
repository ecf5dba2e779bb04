import StreamedUi.Condition.Paths

/-! Where a condition mentions a data path, as relations apart from the functions that collect the
paths. The collectors find exactly what is mentioned (`mem_rawPaths_iff`, `mem_paths_iff`). -/

namespace StreamedUi

open Json

theorem Json.Value.string?_eq_some_iff {v : Value} {s : String} :
    v.string? = some s ↔ v = .string s := by
  cases v <;> simp [Value.string?]

theorem Json.Value.stringMember?_eq_some_iff {v : Value} {name s : String} :
    v.stringMember? name = some s ↔ ∃ ms, v = .object ms ∧ ms.lookup name = some (.string s) := by
  cases v <;> simp [Value.stringMember?, Value.member?, Option.bind_eq_some_iff,
    Value.string?_eq_some_iff]

namespace Comparison

theorem ofName?_eq_some_iff {name : String} {op : Comparison} :
    ofName? name = some op ↔ name = op.name := by
  constructor
  · intro h
    have := List.find?_some h
    exact (beq_iff_eq.1 this).symm
  · rintro rfl
    cases op <;> decide

theorem ofName?_name (op : Comparison) : ofName? op.name = some op := ofName?_eq_some_iff.2 rfl

theorem ofName?_eq_none_iff {name : String} :
    ofName? name = none ↔ ∀ op : Comparison, name ≠ op.name := by
  simp only [Option.eq_none_iff_forall_ne_some, ne_eq, ofName?_eq_some_iff]

/-- The name of a comparison is none of the other names of the grammar. -/
theorem name_ne (op : Comparison) :
    op.name ≠ "path" ∧ op.name ≠ "and" ∧ op.name ≠ "or" ∧ op.name ≠ "not" := by
  cases op <;> decide

end Comparison

namespace Condition

/-- A value mentions a path in a position of the grammar, whatever else is wrong with it. -/
inductive RawMentions : Value → String → Prop
  | path {ms p} : ("path", .string p) ∈ ms → RawMentions (.object ms) p
  | item {ms name items v p} : name = "and" ∨ name = "or" → (name, .array items) ∈ ms →
    v ∈ items → RawMentions v p → RawMentions (.object ms) p
  | not {ms v p} : ("not", v) ∈ ms → RawMentions v p → RawMentions (.object ms) p
  | operand {ms operands v p} (op : Comparison) : (op.name, .array operands) ∈ ms →
    v ∈ operands → v.stringMember? "path" = some p → RawMentions (.object ms) p

/-- A condition mentions a path itself, in a part, as an operand, or in an unknown value. -/
inductive Mentions : Condition → String → Prop
  | path {p} : Mentions (.path p) p
  | and {cs c p} : c ∈ cs → Mentions c p → Mentions (.and cs) p
  | or {cs c p} : c ∈ cs → Mentions c p → Mentions (.or cs) p
  | not {c p} : Mentions c p → Mentions (.not c) p
  | operand {op operands p} : .path p ∈ operands → Mentions (.compare op operands) p
  | unknown {v p} : RawMentions v p → Mentions (.unknown v) p

/-! ## Unknown conditions -/

/-- The paths of one member of an object. -/
def memberPaths (name : String) (v : Value) : List String := rawMemberPaths [(name, v)]

variable {name p : String} {v : Value} {ms ms' : List (String × Value)}

theorem rawMemberPaths_cons :
    rawMemberPaths ((name, v) :: ms) = memberPaths name v ++ rawMemberPaths ms := by
  cases v <;> simp [memberPaths, rawMemberPaths]

theorem mem_rawMemberPaths_of_mem (h : (name, v) ∈ ms) (hp : p ∈ memberPaths name v) :
    p ∈ rawMemberPaths ms := by
  induction ms with
  | nil => exact absurd h List.not_mem_nil
  | cons m ms ih =>
    rw [rawMemberPaths_cons, List.mem_append]
    rcases List.mem_cons.1 h with rfl | h
    · exact .inl hp
    · exact .inr (ih h)

theorem mem_rawItemPaths_of_mem {items : List Value} (h : v ∈ items) (hp : p ∈ rawPaths v) :
    p ∈ rawItemPaths items := by
  induction items with
  | nil => exact absurd h List.not_mem_nil
  | cons item items ih =>
    rw [rawItemPaths, List.mem_append]
    rcases List.mem_cons.1 h with rfl | h
    · exact .inl hp
    · exact .inr (ih h)

theorem memberPaths_items {items : List Value} (h : name = "and" ∨ name = "or") :
    memberPaths name (.array items) = rawItemPaths items := by
  rcases h with rfl | rfl <;> simp [memberPaths, rawMemberPaths]

theorem memberPaths_operands (op : Comparison) (operands : List Value) :
    memberPaths op.name (.array operands) = operandPaths operands := by
  obtain ⟨hpath, hand, hor, hnot⟩ := op.name_ne
  simp [memberPaths, rawMemberPaths, hpath, hand, hor, hnot, op.ofName?_name]

/-- What a member can contribute: the path that it binds, the paths of its conditions or those of
its operands. -/
theorem mem_memberPaths (h : p ∈ memberPaths name v) :
    (name = "path" ∧ v = .string p) ∨
    ((name = "and" ∨ name = "or") ∧ ∃ items, v = .array items ∧ p ∈ rawItemPaths items) ∨
    (name = "not" ∧ p ∈ rawPaths v) ∨
    ∃ op operands, name = Comparison.name op ∧ v = .array operands ∧
      p ∈ operandPaths operands := by
  by_cases hpath : name = "path"
  · subst hpath
    cases v <;> simp_all [memberPaths, rawMemberPaths, Value.string?]
  by_cases hlist : name = "and" ∨ name = "or"
  · have hlist' : (decide (name = "and") || decide (name = "or")) = true := by simpa using hlist
    cases v <;> simp_all [memberPaths, rawMemberPaths]
  have hlist' : (decide (name = "and") || decide (name = "or")) = false := by simpa using hlist
  by_cases hnot : name = "not"
  · subst hnot
    exact .inr (.inr (.inl ⟨rfl, by cases v <;> simpa [memberPaths, rawMemberPaths] using h⟩))
  cases hop : Comparison.ofName? name with
  | none => cases v <;> simp [memberPaths, rawMemberPaths, hpath, hlist', hnot, hop] at h
  | some op =>
    refine .inr (.inr (.inr ⟨op, ?_⟩))
    cases v <;> simp [memberPaths, rawMemberPaths, hpath, hlist', hnot, hop] at h
    exact ⟨_, Comparison.ofName?_eq_some_iff.1 hop, rfl, h⟩

theorem RawMentions.mem_rawPaths (h : RawMentions v p) : p ∈ rawPaths v := by
  induction h with
  | path hm =>
    refine mem_rawMemberPaths_of_mem hm ?_
    simp [memberPaths, rawMemberPaths, Value.string?]
  | item hname hm hv _ ih =>
    refine mem_rawMemberPaths_of_mem hm ?_
    rw [memberPaths_items hname]
    exact mem_rawItemPaths_of_mem hv ih
  | not hm _ ih =>
    refine mem_rawMemberPaths_of_mem hm ?_
    simpa [memberPaths, rawMemberPaths] using ih
  | operand op hm hv hpath =>
    refine mem_rawMemberPaths_of_mem hm ?_
    rw [memberPaths_operands]
    exact List.mem_filterMap.2 ⟨_, hv, hpath⟩

theorem RawMentions.mono (h : RawMentions (.object ms) p) (hsub : ms ⊆ ms') :
    RawMentions (.object ms') p := by
  cases h with
  | path hm => exact .path (hsub hm)
  | item hname hm hv hp => exact .item hname (hsub hm) hv hp
  | not hm hp => exact .not (hsub hm) hp
  | operand op hm hv hp => exact .operand op (hsub hm) hv hp

mutual
theorem rawMentions_of_mem_rawPaths : (v : Value) → p ∈ rawPaths v → RawMentions v p
  | .object ms, h => rawMentions_of_mem_rawMemberPaths ms h
  | .null, h | .bool _, h | .number _, h | .string _, h | .array _, h =>
    absurd h List.not_mem_nil

theorem rawMentions_of_mem_rawMemberPaths :
    (ms : List (String × Value)) → p ∈ rawMemberPaths ms → RawMentions (.object ms) p
  | [], h => absurd h List.not_mem_nil
  | (name, v) :: rest, h => by
    rw [rawMemberPaths_cons, List.mem_append] at h
    rcases h with h | h
    · rcases mem_memberPaths h with ⟨rfl, rfl⟩ | ⟨hname, items, rfl, hitems⟩ | ⟨rfl, hv⟩ |
        ⟨op, operands, rfl, rfl, hoperands⟩
      · exact .path List.mem_cons_self
      · obtain ⟨item, hitem, hp⟩ := rawMentions_of_mem_rawItemPaths items hitems
        exact .item hname List.mem_cons_self hitem hp
      · exact .not List.mem_cons_self (rawMentions_of_mem_rawPaths v hv)
      · obtain ⟨operand, hmem, hp⟩ := List.mem_filterMap.1 hoperands
        exact .operand op List.mem_cons_self hmem hp
    · exact (rawMentions_of_mem_rawMemberPaths rest h).mono (List.subset_cons_self _ _)

theorem rawMentions_of_mem_rawItemPaths :
    (items : List Value) → p ∈ rawItemPaths items → ∃ v ∈ items, RawMentions v p
  | [], h => absurd h List.not_mem_nil
  | v :: vs, h => by
    rw [rawItemPaths, List.mem_append] at h
    rcases h with h | h
    · exact ⟨v, List.mem_cons_self, rawMentions_of_mem_rawPaths v h⟩
    · obtain ⟨w, hw, hp⟩ := rawMentions_of_mem_rawItemPaths vs h
      exact ⟨w, List.mem_cons_of_mem v hw, hp⟩
end

theorem mem_rawPaths_iff : p ∈ rawPaths v ↔ RawMentions v p :=
  ⟨rawMentions_of_mem_rawPaths v, RawMentions.mem_rawPaths⟩

/-! ## Conditions -/

theorem mem_pathsOf_of_mem {cs : List Condition} {c : Condition} (h : c ∈ cs)
    (hp : p ∈ c.paths) : p ∈ pathsOf cs := by
  induction cs with
  | nil => exact absurd h List.not_mem_nil
  | cons d cs ih =>
    rw [pathsOf, List.mem_append]
    rcases List.mem_cons.1 h with rfl | h
    · exact .inl hp
    · exact .inr (ih h)

theorem Mentions.mem_paths {c : Condition} (h : c.Mentions p) : p ∈ c.paths := by
  induction h with
  | path => exact List.mem_singleton_self _
  | and hc _ ih => exact mem_pathsOf_of_mem hc ih
  | or hc _ ih => exact mem_pathsOf_of_mem hc ih
  | not _ ih => exact ih
  | operand hm => exact List.mem_filterMap.2 ⟨_, hm, rfl⟩
  | unknown hraw => exact mem_rawPaths_iff.2 hraw

mutual
theorem mentions_of_mem_paths : (c : Condition) → p ∈ c.paths → c.Mentions p
  | .literal _, h => absurd h List.not_mem_nil
  | .path q, h => by
    obtain rfl := List.mem_singleton.1 h
    exact .path
  | .and cs, h => by
    obtain ⟨c, hc, hp⟩ := mentions_of_mem_pathsOf cs h
    exact .and hc hp
  | .or cs, h => by
    obtain ⟨c, hc, hp⟩ := mentions_of_mem_pathsOf cs h
    exact .or hc hp
  | .not c, h => .not (mentions_of_mem_paths c h)
  | .compare _ operands, h => by
    obtain ⟨operand, hmem, hp⟩ := List.mem_filterMap.1 h
    cases operand with
    | path q =>
      obtain rfl : q = p := Option.some.inj hp
      exact .operand hmem
    | literal _ => cases hp
  | .unknown _, h => .unknown (mem_rawPaths_iff.1 h)

theorem mentions_of_mem_pathsOf :
    (cs : List Condition) → p ∈ pathsOf cs → ∃ c ∈ cs, c.Mentions p
  | [], h => absurd h List.not_mem_nil
  | c :: cs, h => by
    rw [pathsOf, List.mem_append] at h
    rcases h with h | h
    · exact ⟨c, List.mem_cons_self, mentions_of_mem_paths c h⟩
    · obtain ⟨d, hd, hp⟩ := mentions_of_mem_pathsOf cs h
      exact ⟨d, List.mem_cons_of_mem c hd, hp⟩
end

theorem mem_paths_iff {c : Condition} : p ∈ c.paths ↔ c.Mentions p :=
  ⟨mentions_of_mem_paths c, Mentions.mem_paths⟩

end Condition

end StreamedUi
