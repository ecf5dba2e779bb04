import StreamedUi.Condition.Basic
import StreamedUi.Json.Writer
import StreamedUi.Notice

/-! Reading conditions from JSON values. `Condition.parse` accepts the grammar and nothing else;
`Condition.ofValue` keeps what `parse` rejects as an unknown condition, so it never fails. -/

namespace StreamedUi
open Json

namespace Condition

/-- Why a value is no condition. -/
inductive Error
  | neitherBoolNorObject (v : Value)
  | pathNotString
  /-- The member of this name has to be a list of conditions. -/
  | notList (name : String)
  | notOperands (op : Comparison)
  /-- The object has no member of the grammar. -/
  | noMember
  deriving Repr

/-- What is wrong with a value. -/
def Error.detail : Error → String
  | .neitherBoolNorObject v => "expected a boolean or an object, got " ++ v.compact
  | .pathNotString => "'path' must be a string"
  | .notList name => "'" ++ name ++ "' expects a list"
  | .notOperands op => "'" ++ op.name ++ "' expects an operand list"
  | .noMember => "expected one of path, and, or, not, eq, neq, gt, gte, lt, lte"

/-- What an error says. -/
def Error.message (e : Error) : String := "Invalid condition: " ++ e.detail

/-- The condition that the members of one object form together. -/
def ofParts : List Condition → Except Error Condition
  | [] => .error .noMember
  | [c] => .ok c
  | cs => .ok (.and cs)

mutual
/-- A boolean, or an object of which each member of the grammar is well formed. -/
def parse : Value → Except Error Condition
  | .bool b => .ok (.literal b)
  | .object ms => parseMembers ms >>= ofParts
  | v => .error (.neitherBoolNorObject v)

/-- The conditions of an object's members; those outside the grammar are passed over. -/
def parseMembers : List (String × Value) → Except Error (List Condition)
  | [] => .ok []
  | (name, v) :: rest =>
    if name = "path" then
      match v with
      | .string p => (parseMembers rest).map (.path p :: ·)
      | _ => .error .pathNotString
    else if name = "and" then
      match v with
      | .array items => do
        let cs ← parseItems items
        (parseMembers rest).map (.and cs :: ·)
      | _ => .error (.notList name)
    else if name = "or" then
      match v with
      | .array items => do
        let cs ← parseItems items
        (parseMembers rest).map (.or cs :: ·)
      | _ => .error (.notList name)
    else if name = "not" then do
      let c ← parse v
      (parseMembers rest).map (.not c :: ·)
    else
      match Comparison.ofName? name with
      | none => parseMembers rest
      | some op =>
        match v with
        | .array operands =>
          (parseMembers rest).map (.compare op (operands.map Operand.ofValue) :: ·)
        | _ => .error (.notOperands op)

def parseItems : List Value → Except Error (List Condition)
  | [] => .ok []
  | v :: vs => do
    let c ← parse v
    (parseItems vs).map (c :: ·)
end

/-- The condition of any value. -/
def ofValue (v : Value) : Condition :=
  match parse v with
  | .ok c => c
  | .error _ => .unknown v

/-- Whether a value is a condition of the grammar. -/
def accepts (v : Value) : Bool :=
  match parse v with
  | .ok _ => true
  | .error _ => false

mutual
/-- What `parse` reports on its way: the members that it passes over, up to its first error. -/
def parseNotices : Value → List Notice
  | .object ms => memberNotices ms
  | _ => []

def memberNotices : List (String × Value) → List Notice
  | [] => []
  | (name, v) :: rest =>
    if name = "path" then
      match v with
      | .string _ => memberNotices rest
      | _ => []
    else if name = "and" || name = "or" then
      match v with
      | .array items =>
        itemNotices items ++ if items.all accepts then memberNotices rest else []
      | _ => []
    else if name = "not" then
      parseNotices v ++ if accepts v then memberNotices rest else []
    else if (Comparison.ofName? name).isSome then
      match v with
      | .array _ => memberNotices rest
      | _ => []
    else .debug ("Ignoring unknown condition key '" ++ name ++ "'") :: memberNotices rest

def itemNotices : List Value → List Notice
  | [] => []
  | v :: vs => parseNotices v ++ if accepts v then itemNotices vs else []
end

/-- What `ofValue` reports. -/
def notices (v : Value) : List Notice :=
  parseNotices v ++
    match parse v with
    | .ok _ => []
    | .error e => [.debug ("Keeping unrecognized condition " ++ v.compact ++ ": " ++ e.message)]

end Condition

end StreamedUi
