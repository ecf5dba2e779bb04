import StreamedUi.Json.Value

/-! Visibility conditions: constants, truth of bound data, comparisons, and their combinations. A
condition outside this grammar is kept as the value that it was read from. -/

namespace StreamedUi
open Json

/-- The relations that two operands can be asked for. -/
inductive Comparison
  | eq
  | neq
  | gt
  | gte
  | lt
  | lte
  deriving DecidableEq, Repr

namespace Comparison

/-- In the order of their members in the grammar. -/
def all : List Comparison := [.eq, .neq, .gt, .gte, .lt, .lte]

/-- The member under which the operands stand. -/
def name : Comparison → String
  | .eq => "eq"
  | .neq => "neq"
  | .gt => "gt"
  | .gte => "gte"
  | .lt => "lt"
  | .lte => "lte"

/-- The comparison of a member, if its name is one. -/
def ofName? (s : String) : Option Comparison := all.find? (·.name == s)

end Comparison

/-- One side of a comparison: bound data or the value itself. -/
inductive Operand
  | path (p : String)
  | literal (v : Value)
  deriving Repr

/-- An object with one member. -/
def tagged (name : String) (v : Value) : Value := .object [(name, v)]

namespace Operand

/-- An object with a string under `path` is bound data, all else a literal. -/
def ofValue (v : Value) : Operand :=
  match v.stringMember? "path" with
  | some p => .path p
  | none => .literal v

/-- An operand as it is written. -/
def toValue : Operand → Value
  | .path p => tagged "path" (.string p)
  | .literal v => v

/-- The data path of an operand that is bound. -/
def path? : Operand → Option String
  | .path p => some p
  | .literal _ => none

end Operand

/-- When an element is shown. -/
inductive Condition
  | literal (b : Bool)
  | path (p : String)
  | and (cs : List Condition)
  | or (cs : List Condition)
  | not (c : Condition)
  | compare (op : Comparison) (operands : List Operand)
  /-- A value outside the grammar. -/
  | unknown (v : Value)
  deriving Repr

namespace Condition

/-- The name of the outermost form. -/
def kind : Condition → String
  | .literal _ => "literal"
  | .path _ => "path"
  | .and _ => "and"
  | .or _ => "or"
  | .not _ => "not"
  | .compare op _ => op.name
  | .unknown _ => "unknown"

mutual
/-- A condition as it is written; an unknown one is the value that it was read from. -/
def toValue : Condition → Value
  | .literal b => .bool b
  | .path p => tagged "path" (.string p)
  | .and cs => tagged "and" (.array (toValues cs))
  | .or cs => tagged "or" (.array (toValues cs))
  | .not c => tagged "not" c.toValue
  | .compare op operands => tagged op.name (.array (operands.map Operand.toValue))
  | .unknown v => v

def toValues : List Condition → List Value
  | [] => []
  | c :: cs => c.toValue :: toValues cs
end

end Condition

end StreamedUi
