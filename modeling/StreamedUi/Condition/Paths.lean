import StreamedUi.Condition.Basic

/-! The data paths that a condition mentions. Of an unknown condition they are those in the
positions of the grammar, whatever else is wrong with it. -/

namespace StreamedUi
open Json

namespace Condition

/-- The bound operands of a list that stands where operands stand. -/
def operandPaths (operands : List Value) : List String :=
  operands.filterMap (Value.stringMember? "path")

mutual
/-- The paths in the positions of the grammar. -/
def rawPaths : Value → List String
  | .object ms => rawMemberPaths ms
  | _ => []

/-- The paths in the members of an object, in the order of the members. -/
def rawMemberPaths : List (String × Value) → List String
  | [] => []
  | (name, v) :: rest =>
    (if name = "path" then v.string?.toList
    else if name = "and" || name = "or" then
      match v with
      | .array items => rawItemPaths items
      | _ => []
    else if name = "not" then rawPaths v
    else if (Comparison.ofName? name).isSome then
      match v with
      | .array operands => operandPaths operands
      | _ => []
    else []) ++ rawMemberPaths rest

def rawItemPaths : List Value → List String
  | [] => []
  | v :: vs => rawPaths v ++ rawItemPaths vs
end

mutual
/-- The paths of a condition, in the order in which they stand. -/
def paths : Condition → List String
  | .literal _ => []
  | .path p => [p]
  | .and cs => pathsOf cs
  | .or cs => pathsOf cs
  | .not c => c.paths
  | .compare _ operands => operands.filterMap Operand.path?
  | .unknown v => rawPaths v

def pathsOf : List Condition → List String
  | [] => []
  | c :: cs => c.paths ++ pathsOf cs
end

end Condition

end StreamedUi
