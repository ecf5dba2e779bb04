import StreamedUi.Condition.Eval
import StreamedUi.Condition.Paths
import StreamedUi.Proofs.Json.Equality

/-! What the evaluation of a condition depends on: the data at the paths that the condition
mentions, and of these only what no comparison tells apart (`holds_eq_of_indistinct`). Equal values
are such, in whatever order their members stand (`Agree.indistinct`). -/

namespace StreamedUi

open Json Numeric

namespace Condition

/-- The same data on both sides: nothing, one value, or two values that are equal. -/
def Agree (x y : Option Value) : Prop :=
  x = y ∨ ∃ v w, x = some v ∧ y = some w ∧ v.same w = true ∧ w.same v = true

/-- No condition tells the two apart, as data of its own or on a side of a comparison. -/
structure Indistinct (x y : Option Value) : Prop where
  truthy : x.any truthy = y.any truthy
  left (op : Comparison) (z : Option Value) : op.holds x z = op.holds y z
  right (op : Comparison) (z : Option Value) : op.holds z x = op.holds z y

theorem Indistinct.refl (x : Option Value) : Indistinct x x := ⟨rfl, fun _ _ => rfl, fun _ _ => rfl⟩

/-! ## Comparing numbers -/

/-- What the data are worth as a number. -/
def unitsOf (x : Option Value) : Option Int := (x.bind Value.toFloat?).map Binary.units

theorem sameData_numbers (m n : Number) :
    sameData (some (.number m)) (some (.number n)) =
      (m.toFloat?.map Binary.units == n.toFloat?.map Binary.units) := by
  rw [sameData]
  cases m.toFloat? <;> cases n.toFloat? <;> rfl

/-- A relation of values sees of its sides only what they are worth. -/
theorem ordered_congr (r : Int → Int → Bool) {x x' y y' : Option Value}
    (hx : unitsOf x = unitsOf x') (hy : unitsOf y = unitsOf y') :
    ordered (fun a b => r a.units b.units) x y = ordered (fun a b => r a.units b.units) x' y' := by
  have hunits (x y : Option Value) : ordered (fun a b => r a.units b.units) x y =
      ((unitsOf x).any fun a => (unitsOf y).any fun b => r a b) := by
    rw [ordered, unitsOf, unitsOf]
    cases x.bind Value.toFloat? <;> cases y.bind Value.toFloat? <;> rfl
  rw [hunits, hunits, hx, hy]

/-- A comparison sees of its sides whether they are the same and what they are worth. -/
theorem holds_congr (op : Comparison) {x x' y y' : Option Value}
    (hsame : sameData x y = sameData x' y') (hx : unitsOf x = unitsOf x')
    (hy : unitsOf y = unitsOf y') : op.holds x y = op.holds x' y' := by
  cases op with
  | eq => exact hsame
  | neq => exact congrArg Bool.not hsame
  | gt => exact ordered_congr (fun a b => b < a) hx hy
  | gte => exact ordered_congr (fun a b => b < a || a == b) hx hy
  | lt => exact ordered_congr (fun a b => a < b) hx hy
  | lte => exact ordered_congr (fun a b => a < b || a == b) hx hy

theorem isZero_eq (x : Binary binary64) : x.isZero = (x.units == 0) := by
  have hpos : Int.pow 2 (x.exponent - binary64.minExponent).toNat ≠ 0 :=
    Int.ne_of_gt (Int.pow_pos (by decide))
  have hunits : x.units = 0 ↔ x.significand = 0 := by
    simp only [Binary.units, apply_ite (· = (0 : Int))]
    split <;> simp only [Int.neg_eq_zero, Int.mul_eq_zero, hpos, or_false, Int.natCast_eq_zero]
  rw [Bool.eq_iff_iff, Binary.isZero, beq_iff_eq, beq_iff_eq, hunits]

theorem truthy_number (n : Number) :
    truthy (.number n) = (n.toFloat?.map Binary.units).any (· != 0) := by
  rw [truthy]
  cases n.toFloat? with
  | none => rfl
  | some x => exact congrArg Bool.not (isZero_eq x)

section Worth

variable {m n : Number} (h : m.toFloat?.map Binary.units = n.toFloat?.map Binary.units)
include h

theorem sameData_number_congr (z : Option Value) :
    sameData (some (.number m)) z = sameData (some (.number n)) z ∧
      sameData z (some (.number m)) = sameData z (some (.number n)) := by
  cases z with
  | none => exact ⟨rfl, rfl⟩
  | some z =>
    cases z with
    | number k => simp only [sameData_numbers, h, and_self]
    | _ => exact ⟨rfl, rfl⟩

/-- Numbers that are worth the same, in whatever form they are written. -/
theorem indistinct_numbers : Indistinct (some (.number m)) (some (.number n)) where
  truthy := by
    show StreamedUi.truthy (.number m) = StreamedUi.truthy (.number n)
    rw [truthy_number, truthy_number, h]
  left op z := holds_congr op (sameData_number_congr h z).1 h rfl
  right op z := holds_congr op (sameData_number_congr h z).2 rfl h

end Worth

/-! ## Equal values -/

section Same

variable {v w : Value}

theorem truthy_eq_of_same (h : v.same w = true) : truthy v = truthy w := by
  cases v <;> cases w <;> try cases h
  case number.number m n => rw [truthy_number, truthy_number, Number.units_eq_of_same h]
  case bool.bool a b => exact beq_iff_eq.1 h
  case string.string s t => rw [beq_iff_eq.1 h]
  all_goals rfl

theorem sameData_eq_of_same (h : v.same w = true) (h' : w.same v = true) (z : Option Value) :
    sameData (some v) z = sameData (some w) z ∧ sameData z (some v) = sameData z (some w) := by
  have hleft := Value.same_congr_left h h'
  have hright := Value.same_congr_right h h'
  cases z with
  | none => cases v <;> cases w <;> exact ⟨rfl, rfl⟩
  | some u =>
    cases v <;> cases w <;> try cases h
    case number.number m n => exact sameData_number_congr (Number.units_eq_of_same h) (some u)
    all_goals simp only [sameData, hleft, hright, and_self]

/-- Equal values compare alike. -/
theorem holds_eq_of_same (h : v.same w = true) (h' : w.same v = true) (op : Comparison)
    (z : Option Value) :
    op.holds (some v) z = op.holds (some w) z ∧ op.holds z (some v) = op.holds z (some w) := by
  obtain ⟨hleft, hright⟩ := sameData_eq_of_same h h' z
  have hunits : unitsOf (some v) = unitsOf (some w) := Value.units_eq_of_same h
  exact ⟨holds_congr op hleft hunits rfl, holds_congr op hright rfl hunits⟩

end Same

theorem Agree.indistinct {x y : Option Value} (h : Agree x y) : Indistinct x y := by
  rcases h with rfl | ⟨v, w, rfl, rfl, hvw, hwv⟩
  · exact .refl x
  · exact ⟨truthy_eq_of_same hvw, fun op z => (holds_eq_of_same hvw hwv op z).1,
      fun op z => (holds_eq_of_same hvw hwv op z).2⟩

/-! ## Conditions -/

variable {data data' : Value}

theorem indistinct_resolve {o : Operand}
    (h : ∀ p ∈ o.path?, Indistinct (data.at? p) (data'.at? p)) :
    Indistinct (o.resolve data) (o.resolve data') := by
  cases o with
  | path p => exact h p rfl
  | literal v => exact .refl (some v)

theorem indistinct_operand {operands : List Operand} (i : Nat)
    (h : ∀ p ∈ operands.filterMap Operand.path?, Indistinct (data.at? p) (data'.at? p)) :
    Indistinct (operands[i]?.bind (Operand.resolve data))
      (operands[i]?.bind (Operand.resolve data')) := by
  cases ho : operands[i]? with
  | none => exact .refl none
  | some o =>
    refine indistinct_resolve fun p hp => h p ?_
    exact List.mem_filterMap.2 ⟨o, List.mem_of_getElem? ho, hp⟩

mutual
theorem holds_eq_of_indistinct : (c : Condition) →
    (∀ p ∈ c.paths, Indistinct (data.at? p) (data'.at? p)) → c.holds data = c.holds data'
  | .literal _, _ | .unknown _, _ => rfl
  | .path p, h => (h p (List.mem_singleton_self p)).truthy
  | .and cs, h => holdAll_eq_of_indistinct cs h
  | .or cs, h => holdsAny_eq_of_indistinct cs h
  | .not c, h => congrArg Bool.not (holds_eq_of_indistinct c h)
  | .compare op _, h =>
    ((indistinct_operand 0 h).left op _).trans ((indistinct_operand 1 h).right op _)

theorem holdAll_eq_of_indistinct : (cs : List Condition) →
    (∀ p ∈ pathsOf cs, Indistinct (data.at? p) (data'.at? p)) →
      holdAll data cs = holdAll data' cs
  | [], _ => rfl
  | c :: cs, h => by
    obtain ⟨hc, hcs⟩ := List.forall_mem_append.1 h
    rw [holdAll, holdAll, holds_eq_of_indistinct c hc, holdAll_eq_of_indistinct cs hcs]

theorem holdsAny_eq_of_indistinct : (cs : List Condition) →
    (∀ p ∈ pathsOf cs, Indistinct (data.at? p) (data'.at? p)) →
      holdsAny data cs = holdsAny data' cs
  | [], _ => rfl
  | c :: cs, h => by
    obtain ⟨hc, hcs⟩ := List.forall_mem_append.1 h
    rw [holdsAny, holdsAny, holds_eq_of_indistinct c hc, holdsAny_eq_of_indistinct cs hcs]
end

end Condition

end StreamedUi
