import Mathlib.Logic.Relation
import StreamedUi.Proofs.Condition.Grammar
import StreamedUi.Proofs.Condition.Support
import StreamedUi.Proofs.Json.Reordered

/-! Conditions in which the members of objects change their order or members outside the grammar
come and go. Such values are alike to the grammar: both are accepted or none, the same data meet
them, and they mention the same paths (`Rearranges.alike`). -/

namespace StreamedUi
open Json

/-! ## Comparisons -/

section
variable {v v' : Value}

theorem sameData_left (h : v.Reorders v') (x : Option Value) :
    sameData (some v) x = sameData (some v') x := by
  cases x with
  | none => cases h <;> rfl
  | some w =>
    have hsame := h.same_left w
    cases h <;> exact hsame

theorem sameData_right (h : v.Reorders v') (x : Option Value) :
    sameData x (some v) = sameData x (some v') := by
  cases x with
  | none => cases h <;> rfl
  | some w =>
    have hsame := h.same_right w
    cases h <;> cases w <;> exact hsame

theorem Json.Value.Reorders.toFloat?_eq (h : v.Reorders v') :
    v.toFloat? = none ∧ v'.toFloat? = none := by
  cases h <;> exact ⟨rfl, rfl⟩

theorem Json.Value.Reorders.unitsOf_eq (h : v.Reorders v') :
    Condition.unitsOf (some v) = Condition.unitsOf (some v') := by
  obtain ⟨hv, hv'⟩ := h.toFloat?_eq
  rw [Condition.unitsOf, Condition.unitsOf, Option.bind_some, Option.bind_some, hv, hv']

theorem Comparison.holds_left (op : Comparison) (h : v.Reorders v') (x : Option Value) :
    op.holds (some v) x = op.holds (some v') x :=
  Condition.holds_congr op (sameData_left h x) h.unitsOf_eq rfl

theorem Comparison.holds_right (op : Comparison) (h : v.Reorders v') (x : Option Value) :
    op.holds x (some v) = op.holds x (some v') :=
  Condition.holds_congr op (sameData_right h x) rfl h.unitsOf_eq

end

namespace Condition

variable {name p : String} {v v' data : Value} {ms ms' : List (String × Value)}

/-- Operands that no comparison tells apart. -/
structure SameOperand (v v' : Value) : Prop where
  path : v.stringMember? "path" = v'.stringMember? "path"
  left (op : Comparison) (data : Value) (x : Option Value) :
    op.holds (operandValue data v) x = op.holds (operandValue data v') x
  right (op : Comparison) (data : Value) (x : Option Value) :
    op.holds x (operandValue data v) = op.holds x (operandValue data v')

theorem sameOperand_of_bound (h : v.stringMember? "path" = some p)
    (h' : v'.stringMember? "path" = some p) : SameOperand v v' where
  path := h.trans h'.symm
  left _ _ _ := by rw [operandValue, operandValue, h, h']
  right _ _ _ := by rw [operandValue, operandValue, h, h']

theorem sameOperand_of_reorders (h : v.Reorders v') : SameOperand v v' := by
  have hpath := h.stringMember?_eq "path"
  refine ⟨hpath, fun op data x => ?_, fun op data x => ?_⟩ <;>
    rw [operandValue, operandValue, hpath] <;> cases v'.stringMember? "path"
  case refine_1.none => exact op.holds_left h x
  case refine_2.none => exact op.holds_right h x
  all_goals rfl

theorem SameOperand.holds_eq (h : SameOperand v v') (op : Comparison) (data : Value)
    (front back : List Value) :
    op.holds ((front ++ v :: back)[0]?.bind (operandValue data))
        ((front ++ v :: back)[1]?.bind (operandValue data)) =
      op.holds ((front ++ v' :: back)[0]?.bind (operandValue data))
        ((front ++ v' :: back)[1]?.bind (operandValue data)) := by
  -- A comparison reads the first two operands, so `v` is on one of its sides or not read at all.
  match front with
  | [] => exact h.left op data _
  | [_] => exact h.right op data _
  | _ :: _ :: _ => rfl

/-! ## Values that are alike -/

/-- The grammar, the meaning and the paths do not tell the two values apart. -/
structure Alike (v w : Value) : Prop where
  wellFormed : WellFormed v ↔ WellFormed w
  meets (data : Value) : Meets data v ↔ Meets data w
  paths (p : String) : p ∈ rawPaths v ↔ p ∈ rawPaths w

/-- So it is for the two values under one name. -/
structure AlikeMember (name : String) (v w : Value) : Prop where
  wellFormed : WellFormedMember name v ↔ WellFormedMember name w
  meets (data : Value) : MeetsMember data name v ↔ MeetsMember data name w
  paths (p : String) : p ∈ memberPaths name v ↔ p ∈ memberPaths name w

theorem alike_equivalence : Equivalence Alike where
  refl _ := ⟨.rfl, fun _ => .rfl, fun _ => .rfl⟩
  symm h := ⟨h.wellFormed.symm, fun data => (h.meets data).symm, fun p => (h.paths p).symm⟩
  trans h h' := ⟨h.wellFormed.trans h'.wellFormed, fun data => (h.meets data).trans (h'.meets data),
    fun p => (h.paths p).trans (h'.paths p)⟩

theorem mem_rawMemberPaths_iff : p ∈ rawMemberPaths ms ↔ ∃ m ∈ ms, p ∈ memberPaths m.1 m.2 := by
  induction ms with
  | nil => simp [rawMemberPaths]
  | cons m ms ih =>
    obtain ⟨k, w⟩ := m
    simp only [rawMemberPaths_cons, List.mem_append, ih, List.mem_cons, exists_eq_or_imp]

theorem mem_rawItemPaths_iff {items : List Value} :
    p ∈ rawItemPaths items ↔ ∃ v ∈ items, p ∈ rawPaths v := by
  induction items with
  | nil => simp [rawItemPaths]
  | cons v items ih =>
    simp only [rawItemPaths, List.mem_append, ih, List.mem_cons, exists_eq_or_imp]

theorem alike_of_perm (h : ms.Perm ms') : Alike (.object ms) (.object ms') where
  wellFormed := by simp only [wellFormed_object_iff, h.mem_iff]
  meets data := by simp only [meets_object_iff, h.mem_iff]
  paths p := by simp only [rawPaths, mem_rawMemberPaths_iff, h.mem_iff]

theorem AlikeMember.alike (h : AlikeMember name v v') (front back : List (String × Value)) :
    Alike (.object (front ++ (name, v) :: back)) (.object (front ++ (name, v') :: back)) where
  wellFormed := by
    simp only [wellFormed_object_iff, List.mem_append, List.mem_cons, or_imp, forall_and,
      forall_eq, or_and_right, exists_or, exists_eq_left, h.wellFormed]
  meets data := by
    simp only [meets_object_iff, List.mem_append, List.mem_cons, or_imp, forall_and, forall_eq,
      h.meets data]
  paths p := by
    simp only [rawPaths, mem_rawMemberPaths_iff, List.mem_append, List.mem_cons, or_and_right,
      exists_or, exists_eq_left, h.paths p]

/-- A member outside the grammar does not count. -/
theorem alike_of_unknown (h : name ∉ names) (v : Value) (front back : List (String × Value)) :
    Alike (.object (front ++ back)) (.object (front ++ (name, v) :: back)) where
  wellFormed := by
    simp only [wellFormed_object_iff, List.mem_append, List.mem_cons, or_imp, forall_and,
      forall_eq, or_and_right, exists_or, exists_eq_left, h, false_or, false_imp_iff, true_and]
  meets data := by
    simp only [meets_object_iff, List.mem_append, List.mem_cons, or_imp, forall_and, forall_eq,
      meetsMember_of_notMem h, true_and]
  paths p := by
    simp only [rawPaths, mem_rawMemberPaths_iff, List.mem_append, List.mem_cons, or_and_right,
      exists_or, exists_eq_left, memberPaths_of_notMem h, List.not_mem_nil, false_or]

theorem alikeMember_of_unknown (h : name ∉ names) (v v' : Value) : AlikeMember name v v' where
  wellFormed := ⟨fun hv => absurd hv.mem_names h, fun hv => absurd hv.mem_names h⟩
  meets _ := iff_of_true (meetsMember_of_notMem h) (meetsMember_of_notMem h)
  paths _ := by rw [memberPaths_of_notMem h, memberPaths_of_notMem h]

/-- A `path` that is no string is not well formed, whatever it is. -/
theorem alikeMember_path (h : v.string? = none) (h' : v'.string? = none) :
    AlikeMember "path" v v' where
  wellFormed := by
    simp only [wellFormedMember_path_iff]
    exact iff_of_false (by rintro ⟨p, rfl⟩; cases h) (by rintro ⟨p, rfl⟩; cases h')
  meets data := by
    simp only [meetsMember_path_iff]
    exact iff_of_true (by rintro p rfl; cases h) (by rintro p rfl; cases h')
  paths p := by rw [memberPaths_path, memberPaths_path, h, h']

theorem Alike.not (h : Alike v v') : AlikeMember "not" v v' where
  wellFormed := by simp only [wellFormedMember_not_iff, h.wellFormed]
  meets data := by simp only [meetsMember_not_iff, h.meets data]
  paths p := by rw [memberPaths_not, memberPaths_not, h.paths p]

theorem Alike.item (h : Alike v v') (hname : name = "and" ∨ name = "or")
    (front back : List Value) :
    AlikeMember name (.array (front ++ v :: back)) (.array (front ++ v' :: back)) where
  wellFormed := by
    simp only [wellFormedMember_array_iff hname, List.mem_append, List.mem_cons, or_imp,
      forall_and, forall_eq, h.wellFormed]
  meets data := by
    rcases hname with rfl | rfl
    · simp only [meetsMember_and_iff, List.mem_append, List.mem_cons, or_imp, forall_and,
        forall_eq, h.meets data]
    · simp only [meetsMember_or_iff, List.mem_append, List.mem_cons, or_and_right, exists_or,
        exists_eq_left, h.meets data]
  paths p := by
    simp only [memberPaths_items hname, mem_rawItemPaths_iff, List.mem_append, List.mem_cons,
      or_and_right, exists_or, exists_eq_left, h.paths p]

theorem SameOperand.alikeMember (h : SameOperand v v') (op : Comparison)
    (front back : List Value) :
    AlikeMember op.name (.array (front ++ v :: back)) (.array (front ++ v' :: back)) where
  wellFormed := iff_of_true (.compare op _) (.compare op _)
  meets data := by rw [meetsMember_compare_iff, meetsMember_compare_iff, h.holds_eq]
  paths p := by
    simp only [memberPaths_operands, operandPaths, List.filterMap_append, List.filterMap_cons,
      h.path]

/-- Objects under one name. -/
theorem Alike.objects (h : Alike (.object ms) (.object ms')) (name : String) :
    AlikeMember name (.object ms) (.object ms') := by
  by_cases hname : name = "not"
  · subst hname
    exact h.not
  · exact ⟨iff_of_false (not_wellFormedMember_object hname) (not_wellFormedMember_object hname),
      fun data => by rw [MeetsMember, MeetsMember]; simp [hname],
      fun p => by simp [memberPaths, rawMemberPaths, hname, Value.string?]⟩

theorem alike_arrays (xs ys : List Value) : Alike (.array xs) (.array ys) where
  wellFormed := iff_of_false nofun nofun
  meets data := by simp only [Meets]
  paths p := by simp only [rawPaths]

/-- Arrays under one name that differ in one item. -/
theorem Alike.arrays (h : Alike v v') (hoperand : SameOperand v v') (front back : List Value)
    (name : String) :
    AlikeMember name (.array (front ++ v :: back)) (.array (front ++ v' :: back)) := by
  by_cases hname : name ∈ names
  · rcases mem_names_iff.1 hname with rfl | hand | hor | rfl | ⟨op, rfl⟩
    · exact alikeMember_path rfl rfl
    · exact h.item (.inl hand) front back
    · exact h.item (.inr hor) front back
    · exact (alike_arrays _ _).not
    · exact hoperand.alikeMember op front back
  · exact alikeMember_of_unknown hname _ _

/-- The order of members does not count, neither in a value nor under any name. -/
theorem alike_of_reorders (h : v.Reorders v') : Alike v v' ∧ ∀ name, AlikeMember name v v' := by
  -- Both at once: a change below a member shows through the member's name only.
  induction h with
  | members _ hperm => exact ⟨alike_of_perm hperm, (alike_of_perm hperm).objects⟩
  | item front back h ih =>
    exact ⟨alike_arrays _ _, ih.1.arrays (sameOperand_of_reorders h) front back⟩
  | member front back k _ ih =>
    exact ⟨(ih.2 k).alike front back, ((ih.2 k).alike front back).objects⟩

/-! ## Rearrangement -/

/-- One change to a condition that leaves the grammar alone: members of an object change their
order anywhere in it, or a member outside the grammar, or beside the path of an operand, is new. -/
inductive Rearranges : Value → Value → Prop
  | reorder {v v' : Value} : v.Reorders v' → Rearranges v v'
  | unknown {name : String} (v : Value) (front back : List (String × Value)) : name ∉ names →
    Rearranges (.object (front ++ back)) (.object (front ++ (name, v) :: back))
  | item {v v' : Value} {name : String} (front back : List Value)
    (before after : List (String × Value)) : name = "and" ∨ name = "or" → Rearranges v v' →
    Rearranges (.object (before ++ (name, .array (front ++ v :: back)) :: after))
      (.object (before ++ (name, .array (front ++ v' :: back)) :: after))
  | not {v v' : Value} (before after : List (String × Value)) : Rearranges v v' →
    Rearranges (.object (before ++ ("not", v) :: after)) (.object (before ++ ("not", v') :: after))
  | operand {v v' : Value} {p : String} (op : Comparison) (front back : List Value)
    (before after : List (String × Value)) : v.stringMember? "path" = some p →
    v'.stringMember? "path" = some p →
    Rearranges (.object (before ++ (op.name, .array (front ++ v :: back)) :: after))
      (.object (before ++ (op.name, .array (front ++ v' :: back)) :: after))

theorem Rearranges.alike (h : Rearranges v v') : Alike v v' := by
  induction h with
  | reorder h => exact (alike_of_reorders h).1
  | unknown v front back hname => exact alike_of_unknown hname v front back
  | item front back before after hname _ ih => exact (ih.item hname front back).alike before after
  | not before after _ ih => exact ih.not.alike before after
  | operand op front back before after h h' =>
    exact ((sameOperand_of_bound h h').alikeMember op front back).alike before after

theorem alike_of_eqvGen (h : Relation.EqvGen Rearranges v v') : Alike v v' :=
  alike_equivalence.eqvGen_iff.1 (h.mono fun _ _ => Rearranges.alike)

theorem Alike.accepts_eq (h : Alike v v') : accepts v = accepts v' := by
  rw [Bool.eq_iff_iff, accepts_iff, accepts_iff, h.wellFormed]

theorem Alike.holds_eq (h : Alike v v') (data : Value) :
    (ofValue v).holds data = (ofValue v').holds data := by
  rw [Bool.eq_iff_iff, holds_ofValue_iff, holds_ofValue_iff, h.wellFormed, h.meets data]

theorem Alike.mem_paths_iff (h : Alike v v') (p : String) :
    p ∈ (ofValue v).paths ↔ p ∈ (ofValue v').paths := by
  rw [paths_ofValue, paths_ofValue, h.paths p]

/-- The parser accepts the grammar, evaluation is its meaning, and neither they nor the paths see
how a value is arranged. -/
theorem grammar_parse (v : Value) :
    ((∃ c, parse v = .ok c) ↔ WellFormed v) ∧
    (∀ c, parse v = .ok c → ∀ data, c.holds data = true ↔ Meets data v) ∧
    ∀ w, Relation.EqvGen Rearranges v w →
      accepts v = accepts w ∧
      (∀ data, (ofValue v).holds data = (ofValue w).holds data) ∧
      ∀ p, p ∈ (ofValue v).paths ↔ p ∈ (ofValue w).paths := by
  refine ⟨accepts_iff_exists.symm.trans accepts_iff, fun c hc data => holds_iff_of_parse hc,
    fun w hw => ?_⟩
  have halike := alike_of_eqvGen hw
  exact ⟨halike.accepts_eq, halike.holds_eq, halike.mem_paths_iff⟩

theorem grammar_parse_hint :
    (parse (tagged "not" (tagged "path" (.string "a"))) = .ok (.not (.path "a")) ∧
      ∀ data, (Condition.not (.path "a")).holds data = true ↔
        Meets data (tagged "not" (tagged "path" (.string "a")))) ∧
    Relation.EqvGen Rearranges (tagged "not" (tagged "path" (.string "a")))
        (.object [("hint", .null), ("not", tagged "path" (.string "a"))]) ∧
      accepts (tagged "not" (tagged "path" (.string "a"))) =
        accepts (.object [("hint", .null), ("not", tagged "path" (.string "a"))]) :=
  have hint : Relation.EqvGen Rearranges (tagged "not" (tagged "path" (.string "a")))
      (.object [("hint", .null), ("not", tagged "path" (.string "a"))]) :=
    .rel _ _ (.unknown .null [] [("not", tagged "path" (.string "a"))] (by decide))
  ⟨⟨rfl, (grammar_parse _).2.1 _ rfl⟩, hint, ((grammar_parse _).2.2 _ hint).1⟩

end Condition

end StreamedUi
