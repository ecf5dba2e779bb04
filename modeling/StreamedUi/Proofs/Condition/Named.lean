import StreamedUi.Proofs.Condition.Stored
import StreamedUi.Proofs.Json.Reordered

/-! The paths of a value found by name. `pathsByName` looks up the names of the grammar one after
the other, whatever the order of the members and whatever else there is. As the names of an object
are distinct it finds what stands in the positions of the grammar (`mem_pathsByName_iff`), and so
what the condition mentions that is read from the value, accepted or not (`paths_collected`). -/

namespace StreamedUi
open Json

namespace Json

variable {ms : Members} {name : String} {v : Value}

/-- The items of the array under a name. -/
def Members.itemsAt (ms : Members) (name : String) : List Value :=
  match ms.lookup name with
  | some (.array items) => items
  | _ => []

theorem Members.mem_itemsAt_iff :
    v ∈ ms.itemsAt name ↔ ∃ items, ms.lookup name = some (.array items) ∧ v ∈ items := by
  unfold itemsAt
  split <;> simp_all

theorem Value.sizeOf_lt_of_lookup (h : ms.lookup name = some v) :
    sizeOf v < sizeOf (Value.object ms) := by
  have hm := List.sizeOf_lt_of_mem (Members.mem_of_lookup h)
  simp only [Prod.mk.sizeOf_spec, Value.object.sizeOf_spec] at hm ⊢
  omega

theorem Value.sizeOf_lt_of_mem_itemsAt (h : v ∈ ms.itemsAt name) :
    sizeOf v < sizeOf (Value.object ms) := by
  obtain ⟨items, hitems, hv⟩ := Members.mem_itemsAt_iff.1 h
  have hlookup := Value.sizeOf_lt_of_lookup hitems
  have hitem := List.sizeOf_lt_of_mem hv
  rw [Value.array.sizeOf_spec] at hlookup
  omega

end Json

namespace Condition

/-- The paths under the names of the grammar: what is bound, then the conditions of `and`, of `or`
and of `not`, then the operands of each comparison. What does not fit is passed over. -/
def pathsByName : Value → List String
  | .object ms =>
    ((ms.lookup "path").bind Value.string?).toList ++
      ["and", "or"].flatMap (fun name =>
        (Members.itemsAt ms name).attach.flatMap fun item => pathsByName item.1) ++
      (ms.lookup "not").toList.attach.flatMap (fun inner => pathsByName inner.1) ++
      Comparison.all.flatMap fun op => operandPaths (Members.itemsAt ms op.name)
  | _ => []
termination_by v => sizeOf v
decreasing_by
  · exact Value.sizeOf_lt_of_mem_itemsAt item.2
  · exact Value.sizeOf_lt_of_lookup (Option.mem_toList.1 inner.2)

variable {ms : Members} {v : Value} {p : String}

theorem mem_pathsByName_object_iff :
    p ∈ pathsByName (.object ms) ↔
      ms.lookup "path" = some (.string p) ∨
      (∃ name, (name = "and" ∨ name = "or") ∧ ∃ v ∈ ms.itemsAt name, p ∈ pathsByName v) ∨
      (∃ v, ms.lookup "not" = some v ∧ p ∈ pathsByName v) ∨
      ∃ op, p ∈ operandPaths (ms.itemsAt (Comparison.name op)) := by
  have hop (op : Comparison) : op ∈ Comparison.all := by cases op <;> decide
  rw [pathsByName]
  simp only [List.mem_append, List.mem_flatMap, List.mem_attach, true_and, Subtype.exists,
    Option.mem_toList, Option.bind_eq_some_iff, Value.string?_eq_some_iff, exists_eq_right,
    List.mem_cons, List.not_mem_nil, or_false, exists_prop, hop, or_assoc]

theorem RawMentions.mem_pathsByName (h : RawMentions v p) (hv : v.Distinct) :
    p ∈ pathsByName v := by
  induction h with
  | path hm =>
    cases hv with
    | object names values =>
      exact mem_pathsByName_object_iff.2 (.inl ((Members.lookup_eq_some_iff names).2 hm))
  | @item ms name items v p hname hm hv' hp ih =>
    cases hv with
    | object names values =>
      cases values _ hm with
      | array hitems =>
        have hlookup := (Members.lookup_eq_some_iff names).2 hm
        have hitem := Members.mem_itemsAt_iff.2 ⟨items, hlookup, hv'⟩
        exact mem_pathsByName_object_iff.2
          (.inr (.inl ⟨name, hname, v, hitem, ih (hitems v hv')⟩))
  | @not ms v p hm hp ih =>
    cases hv with
    | object names values =>
      have hlookup := (Members.lookup_eq_some_iff names).2 hm
      exact mem_pathsByName_object_iff.2 (.inr (.inr (.inl ⟨v, hlookup, ih (values _ hm)⟩)))
  | @operand ms operands v p op hm hv' hpath =>
    cases hv with
    | object names values =>
      have hlookup := (Members.lookup_eq_some_iff names).2 hm
      have hoperand := Members.mem_itemsAt_iff.2 ⟨operands, hlookup, hv'⟩
      exact mem_pathsByName_object_iff.2
        (.inr (.inr (.inr ⟨op, List.mem_filterMap.2 ⟨v, hoperand, hpath⟩⟩)))

theorem rawMentions_of_mem_pathsByName : (v : Value) → p ∈ pathsByName v → RawMentions v p
  | .object ms, h => by
    rcases mem_pathsByName_object_iff.1 h with hpath | ⟨name, hname, v, hv, hp⟩ | ⟨v, hnot, hp⟩ |
      ⟨op, hp⟩
    · exact .path (Members.mem_of_lookup hpath)
    · obtain ⟨items, hitems, hmem⟩ := Members.mem_itemsAt_iff.1 hv
      exact .item hname (Members.mem_of_lookup hitems) hmem (rawMentions_of_mem_pathsByName v hp)
    · exact .not (Members.mem_of_lookup hnot) (rawMentions_of_mem_pathsByName v hp)
    · obtain ⟨v, hv, hpath⟩ := List.mem_filterMap.1 hp
      obtain ⟨operands, hoperands, hmem⟩ := Members.mem_itemsAt_iff.1 hv
      exact .operand op (Members.mem_of_lookup hoperands) hmem hpath
  | .null, h | .bool _, h | .number _, h | .string _, h | .array _, h => by
    rw [pathsByName] at h
    · exact absurd h List.not_mem_nil
    · nofun
termination_by v => sizeOf v
decreasing_by
  · exact Value.sizeOf_lt_of_mem_itemsAt hv
  · exact Value.sizeOf_lt_of_lookup hnot

/-- With distinct names, what is found by name is what stands in the positions of the grammar. -/
theorem mem_pathsByName_iff (hv : v.Distinct) : p ∈ pathsByName v ↔ RawMentions v p :=
  ⟨rawMentions_of_mem_pathsByName v, fun h => h.mem_pathsByName hv⟩

/-- The paths of a condition are those collected from the value that it is read from, member by
member or by name. Of a value that is accepted they are those of the parsed condition, and of one
that is not they are all that stand in a position of the grammar. -/
theorem paths_collected (v : Value) :
    (∀ p, p ∈ (ofValue v).paths ↔ p ∈ rawPaths v) ∧
      (v.Distinct → ∀ p, p ∈ (ofValue v).paths ↔ p ∈ pathsByName v) ∧
      (∀ c, parse v = .ok c → ofValue v = c ∧ ∀ p, p ∈ c.paths ↔ RawMentions v p) ∧
      ∀ e, parse v = .error e →
        ofValue v = .unknown v ∧ ∀ p, p ∈ (ofValue v).paths ↔ RawMentions v p := by
  have hpaths (p : String) : p ∈ (ofValue v).paths ↔ RawMentions v p := by
    rw [paths_ofValue, mem_rawPaths_iff]
  refine ⟨fun p => by rw [paths_ofValue], fun hv p => ?_, fun c hc => ?_, fun e he => ?_⟩
  · exact (hpaths p).trans (mem_pathsByName_iff hv).symm
  · have hread : ofValue v = c := by rw [ofValue, hc]
    exact ⟨hread, hread ▸ hpaths⟩
  · exact ⟨by rw [ofValue, he], hpaths⟩

/-- A conjunction with a part that is no condition, after a comparison. -/
def unfit : Value :=
  .object [("gt", .array [tagged "path" (.string "n"), .null]),
    ("and", .array [tagged "path" (.string "a"), .string "b"])]

theorem distinct_unfit : unfit.Distinct := by
  have hbound (p : String) : (tagged "path" (.string p)).Distinct := distinct_tagged _ (.string p)
  refine .object (by decide) (List.forall_mem_cons.2 ⟨?_, List.forall_mem_singleton.2 ?_⟩)
  · exact .array (List.forall_mem_cons.2 ⟨hbound "n", List.forall_mem_singleton.2 .null⟩)
  · exact .array (List.forall_mem_cons.2 ⟨hbound "a", List.forall_mem_singleton.2 (.string "b")⟩)

/-- The comparison's path is found, and so is the one beside what does not fit. -/
theorem paths_collected_unfit :
    (unfit.Distinct ∧ "n" ∈ pathsByName unfit) ∧
      (parse unfit = .error (.neitherBoolNorObject (.string "b")) ∧
        ofValue unfit = .unknown unfit ∧ "a" ∈ (ofValue unfit).paths) ∧
      parse (tagged "not" (tagged "path" (.string "a"))) = .ok (.not (.path "a")) ∧
        RawMentions (tagged "not" (tagged "path" (.string "a"))) "a" := by
  obtain ⟨hraw, hnamed, -, hunfit⟩ := paths_collected unfit
  have herror : parse unfit = .error (.neitherBoolNorObject (.string "b")) := rfl
  obtain ⟨hunknown, hpositions⟩ := hunfit _ herror
  have hn : "n" ∈ (ofValue unfit).paths := (hraw "n").2 (by decide)
  have ha : RawMentions unfit "a" :=
    .item (.inl rfl) (List.mem_cons_of_mem _ List.mem_cons_self) List.mem_cons_self
      (.path List.mem_cons_self)
  refine ⟨⟨distinct_unfit, (hnamed distinct_unfit "n").1 hn⟩,
    ⟨herror, hunknown, (hpositions "a").2 ha⟩, rfl, ?_⟩
  exact (((paths_collected _).2.2.1 _ rfl).2 "a").1 (List.mem_singleton_self _)

end Condition

end StreamedUi
