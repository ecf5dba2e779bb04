import StreamedUi.Proofs.Condition.Members
import StreamedUi.Proofs.Condition.Support

/-! Equality of operands, and of arrays and objects with the operands inside of them. Two numbers
that are the operands are equal if they are worth the same, however they are written. Further inside
they have to be written alike as well (`comparing_eq_nested`). -/

namespace StreamedUi

open Json Numeric

namespace Condition

variable {op : Comparison} {data data₁ data₂ a b x y x' x₁ y₁ x₂ y₂ : Value} {m n : Number}

/-- The condition that two operands are in a relation, as it is read. -/
def comparing (op : Comparison) (x y : Value) : Condition :=
  ofValue (tagged op.name (.array [x, y]))

/-- An operand stands for the data at its path, or for itself. -/
def StandsFor (data x a : Value) : Prop := (Operand.ofValue x).resolve data = some a

/-- If the two are numbers, they are equal as written. -/
def WrittenAlike (a b : Value) : Prop :=
  ∀ m n, a = .number m → b = .number n → m.same n = true

theorem standsFor_self (h : a.stringMember? "path" = none) : StandsFor data a a := by
  rw [StandsFor, Operand.ofValue, h]
  rfl

theorem standsFor_array (items : List Value) : StandsFor data (.array items) (.array items) :=
  standsFor_self rfl

theorem holds_comparing (op : Comparison) (data x y : Value) :
    (comparing op x y).holds data =
      op.holds ((Operand.ofValue x).resolve data) ((Operand.ofValue y).resolve data) := by
  rw [comparing, ofValue, parse_tagged (.compare op [x, y]), holds]
  rfl

theorem holds_comparing_some (hx : StandsFor data x a) (hy : StandsFor data y b) :
    (comparing op x y).holds data = op.holds (some a) (some b) := by
  rw [holds_comparing, hx, hy]

/-! ## Numbers -/

/-- Values are equal operands if they are equal, and numbers also if they are worth the same. -/
theorem same_iff :
    a.same b = true ↔ sameData (some a) (some b) = true ∧ WrittenAlike a b := by
  constructor
  · intro h
    have halike : WrittenAlike a b := by
      rintro m n rfl rfl
      exact h
    refine ⟨?_, halike⟩
    cases a with
    | number m =>
      cases b with
      | number n => rw [sameData_numbers, Number.units_eq_of_same h, beq_self_eq_true]
      | _ => exact h
    | _ => exact h
  · intro h
    obtain ⟨hdata, halike⟩ := h
    cases a with
    | number m =>
      cases b with
      | number n => exact halike m n rfl rfl
      | _ => exact hdata
    | _ => exact hdata

/-! ## Operands inside of others -/

theorem sameData_array : sameData (some (.array [a])) (some (.array [b])) = a.same b := by
  show (a.same b && true) = a.same b
  rw [Bool.and_true]

theorem sameData_object (name : String) :
    sameData (some (.object [(name, a)])) (some (.object [(name, b)])) = a.same b := by
  have hmembers : Value.sameMembers [(name, a)] [(name, b)] = a.same b := by
    rw [Value.sameMembers, List.lookup_cons_self, Value.sameMembers, Bool.and_true]
  show (true && Value.sameMembers [(name, a)] [(name, b)]) = a.same b
  rw [hmembers, Bool.true_and]

/-- One operand in an array, or as the member of an object, equals another one there if and only if
the operands are equal and, being numbers, are written alike. Of an operand that is a number it does
not matter how it is written, in any comparison and on either side. -/
theorem comparing_eq_nested (hx : StandsFor data x a) (hy : StandsFor data y b)
    (hx₁ : StandsFor data₁ x₁ (.array [a])) (hy₁ : StandsFor data₁ y₁ (.array [b]))
    (hx₂ : StandsFor data₂ x₂ (.object [("v", a)]))
    (hy₂ : StandsFor data₂ y₂ (.object [("v", b)])) :
    ((comparing .eq x₁ y₁).holds data₁ = true ↔
      (comparing .eq x y).holds data = true ∧ WrittenAlike a b) ∧
    ((comparing .eq x₂ y₂).holds data₂ = true ↔
      (comparing .eq x y).holds data = true ∧ WrittenAlike a b) ∧
    ∀ m n, a = .number m → StandsFor data x' (.number n) →
      m.toFloat?.map Binary.units = n.toFloat?.map Binary.units →
      ∀ op z, (comparing op x' z).holds data = (comparing op x z).holds data ∧
        (comparing op z x').holds data = (comparing op z x).holds data := by
  rw [holds_comparing_some hx hy, holds_comparing_some hx₁ hy₁, holds_comparing_some hx₂ hy₂]
  refine ⟨?_, ?_, ?_⟩
  · rw [Comparison.holds, sameData_array]
    exact same_iff
  · rw [Comparison.holds, sameData_object]
    exact same_iff
  · rintro m n rfl hx' hworth op z
    have halike := indistinct_numbers hworth
    simp only [holds_comparing]
    rw [hx, hx']
    exact ⟨(halike.left op _).symm, (halike.right op _).symm⟩

/-- The number 1 without a point. -/
def wholeOne : Number := .integer ⟨1, by decide⟩

/-- The number 1.0. -/
def pointedOne : Number := .float ⟨false, 4503599627370496, -52, by decide⟩

theorem units_wholeOne :
    wholeOne.toFloat?.map Binary.units = pointedOne.toFloat?.map Binary.units := by
  decide +kernel

/-- Data that hold the number 1 by itself, in an array and in an object. -/
def oneData : Value :=
  .object [("n", .number wholeOne), ("items", .array [.number wholeOne]),
    ("row", .object [("v", .number wholeOne)])]

/-- The number of the data equals 1.0, but the array and the object that hold it equal none that
hold 1.0. -/
theorem comparing_eq_nested_oneData :
    let bound (p : String) := tagged "path" (.string p)
    let one := Value.number pointedOne
    (StandsFor oneData (bound "n") (.number wholeOne) ∧ StandsFor oneData one one ∧
      StandsFor oneData (bound "items") (.array [.number wholeOne]) ∧
      StandsFor oneData (.array [one]) (.array [one]) ∧
      StandsFor oneData (bound "row") (.object [("v", .number wholeOne)]) ∧
      StandsFor oneData (.object [("v", one)]) (.object [("v", one)]) ∧
      wholeOne.toFloat?.map Binary.units = pointedOne.toFloat?.map Binary.units) ∧
    (comparing .eq (bound "n") one).holds oneData = true ∧
    (comparing .eq (bound "items") (.array [one])).holds oneData = false ∧
    (comparing .eq (bound "row") (.object [("v", one)])).holds oneData = false ∧
    (comparing .lt one one).holds oneData = (comparing .lt (bound "n") one).holds oneData ∧
    (comparing .neq one one).holds oneData = (comparing .neq one (bound "n")).holds oneData := by
  intro bound one
  have hn : StandsFor oneData (bound "n") (.number wholeOne) := rfl
  have hitems : StandsFor oneData (bound "items") (.array [.number wholeOne]) := rfl
  have hrow : StandsFor oneData (bound "row") (.object [("v", .number wholeOne)]) := rfl
  have hone : StandsFor oneData one one := standsFor_self rfl
  have harray : StandsFor oneData (.array [one]) (.array [one]) := standsFor_array [one]
  have hobject : StandsFor oneData (.object [("v", one)]) (.object [("v", one)]) :=
    standsFor_self rfl
  obtain ⟨hlist, hmember, hswap⟩ := comparing_eq_nested hn hone hitems harray hrow hobject
  have hform : ¬WrittenAlike (.number wholeOne) one := fun h =>
    Bool.false_ne_true (h wholeOne pointedOne rfl rfl)
  refine ⟨⟨hn, hone, hitems, harray, hrow, hobject, units_wholeOne⟩, ?_, ?_, ?_, ?_, ?_⟩
  · rw [holds_comparing_some hn hone, Comparison.holds, sameData_numbers, units_wholeOne,
      beq_self_eq_true]
  · exact Bool.eq_false_iff.2 fun h => hform (hlist.1 h).2
  · exact Bool.eq_false_iff.2 fun h => hform (hmember.1 h).2
  · exact (hswap _ _ rfl hone units_wholeOne .lt one).1
  · exact (hswap _ _ rfl hone units_wholeOne .neq one).2

/-- The numbers 1 and 1.0 are equal, but the arrays of them are not, nor are the objects. -/
theorem comparing_eq_nested_otherForm :
    ¬∀ a b data : Value, a.stringMember? "path" = none → b.stringMember? "path" = none →
      (comparing .eq a b).holds data = true →
      (comparing .eq (.array [a]) (.array [b])).holds data = true ∧
        (comparing .eq (.object [("v", a)]) (.object [("v", b)])).holds data = true := by
  intro h
  have hone : StandsFor .null (.number wholeOne) (.number wholeOne) := standsFor_self rfl
  have hpointed : StandsFor .null (.number pointedOne) (.number pointedOne) := standsFor_self rfl
  have hequal : (comparing .eq (.number wholeOne) (.number pointedOne)).holds .null = true := by
    rw [holds_comparing_some hone hpointed, Comparison.holds, sameData_numbers, units_wholeOne,
      beq_self_eq_true]
  have harrays := (h _ _ .null rfl rfl hequal).1
  rw [holds_comparing_some (standsFor_array _) (standsFor_array _), Comparison.holds,
    sameData_array] at harrays
  cases harrays

end Condition

end StreamedUi
