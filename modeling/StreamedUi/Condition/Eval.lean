import StreamedUi.Condition.Basic
import StreamedUi.Json.Path

/-! Evaluating conditions on a data model. Data that is not there is false, and a condition outside
the grammar holds. -/

namespace StreamedUi
open Json Numeric

/-- Null, false, zero and the empty string are false, all else is true. -/
def truthy : Value → Bool
  | .null => false
  | .bool b => b
  | .number n => n.toFloat?.any (!·.isZero)
  | .string s => !s.isEmpty
  | .array _ => true
  | .object _ => true

/-- Two numbers are equal if they are so as floats; inside arrays and objects numbers are compared
as they are written. -/
def sameData : Option Value → Option Value → Bool
  | some (.number m), some (.number n) =>
    match m.toFloat?, n.toFloat? with
    | some x, some y => x.valueEq y
    | none, none => true
    | _, _ => false
  | some v, some w => v.same w
  | none, none => true
  | _, _ => false

/-- A relation between two numbers, which have to be there. -/
def ordered (r : Binary binary64 → Binary binary64 → Bool) (v w : Option Value) : Bool :=
  match v.bind Value.toFloat?, w.bind Value.toFloat? with
  | some x, some y => r x y
  | _, _ => false

namespace Comparison

/-- Whether two operands compare so. Only equality is defined of what is no number. -/
def holds (op : Comparison) (v w : Option Value) : Bool :=
  match op with
  | .eq => sameData v w
  | .neq => !sameData v w
  | .gt => ordered (fun x y => y.valueLt x) v w
  | .gte => ordered (fun x y => y.valueLt x || x.valueEq y) v w
  | .lt => ordered (fun x y => x.valueLt y) v w
  | .lte => ordered (fun x y => x.valueLt y || x.valueEq y) v w

end Comparison

/-- What an operand stands for; a path that leads nowhere stands for nothing. -/
def Operand.resolve (data : Value) : Operand → Option Value
  | .path p => data.at? p
  | .literal v => some v

namespace Condition

mutual
/-- Whether a condition holds of the data. Of a comparison the first two operands count. -/
def holds (data : Value) : Condition → Bool
  | .literal b => b
  | .path p => (data.at? p).any truthy
  | .and cs => holdAll data cs
  | .or cs => holdsAny data cs
  | .not c => !c.holds data
  | .compare op operands =>
    op.holds (operands[0]?.bind (Operand.resolve data)) (operands[1]?.bind (Operand.resolve data))
  | .unknown _ => true

/-- Of no conditions all hold. -/
def holdAll (data : Value) : List Condition → Bool
  | [] => true
  | c :: cs => c.holds data && holdAll data cs

/-- Of no conditions none holds. -/
def holdsAny (data : Value) : List Condition → Bool
  | [] => false
  | c :: cs => c.holds data || holdsAny data cs
end

end Condition

end StreamedUi
