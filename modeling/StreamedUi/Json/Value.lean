import StreamedUi.Numeric.Decimal

/-! JSON values. Integers of a machine word keep their exact value, every other number is a
`binary64`. The members of an object have an order. -/

namespace StreamedUi.Json
open Numeric

/-- The integers that a signed or an unsigned word of 64 bits holds. -/
abbrev WordInt := { n : Int // -(Int.pow 2 63) ≤ n ∧ n < Int.pow 2 64 }

/-- A number by the way it is kept. -/
inductive Number
  | integer (n : WordInt)
  | float (x : Binary binary64)
  deriving DecidableEq, Repr

/-- The nearest `binary64`. -/
def Number.toFloat? : Number → Option (Binary binary64)
  | .integer n => Binary.ofInt? binary64 n
  | .float x => some x

/-- Equal as written: an integer never equals a float, and the two zero floats are equal. -/
def Number.same : Number → Number → Bool
  | .integer m, .integer n => m == n
  | .float x, .float y => x.valueEq y
  | _, _ => false

/-- A JSON value. -/
inductive Value
  | null
  | bool (b : Bool)
  | number (n : Number)
  | string (s : String)
  | array (items : List Value)
  | object (members : List (String × Value))
  deriving Repr

instance : Inhabited Value := ⟨.null⟩

/-- The members of an object in the order in which their names first came. -/
abbrev Members := List (String × Value)

/-- Sets a member: in its place if there is one of that name, else at the end. -/
def Members.set : Members → String → Value → Members
  | [], name, v => [(name, v)]
  | (k, w) :: rest, name, v =>
    if k = name then (k, v) :: rest else (k, w) :: Members.set rest name v

/-- Of members with one name the last value counts, at the first one's place. -/
def Members.ofList (ms : List (String × Value)) : Members :=
  ms.foldl (fun members (name, v) => Members.set members name v) []

namespace Value

/-- The member of a name; what is no object has none. -/
def member? (name : String) : Value → Option Value
  | .object ms => ms.lookup name
  | _ => none

/-- The string, if the value is one. -/
def string? : Value → Option String
  | .string s => some s
  | _ => none

/-- The string under a name of an object. -/
def stringMember? (name : String) (v : Value) : Option String :=
  (v.member? name).bind string?

/-- The nearest `binary64`, if the value is a number. -/
def toFloat? : Value → Option (Binary binary64)
  | .number n => n.toFloat?
  | _ => none

/-- The fields of a record that has the given names: the members of an object, or the items of an
array in order. -/
def fields? (names : List String) : Value → Option Members
  | .object ms => some ms
  | .array items => if items.length ≤ names.length then some (names.zip items) else none
  | _ => none

mutual
/-- Equality of values, in which the order of an object's members does not count. -/
def same : Value → Value → Bool
  | .null, .null => true
  | .bool a, .bool b => a == b
  | .number m, .number n => m.same n
  | .string s, .string t => s == t
  | .array xs, .array ys => sameItems xs ys
  | .object ms, .object ns => ms.length == ns.length && sameMembers ms ns
  | _, _ => false

def sameItems : List Value → List Value → Bool
  | [], [] => true
  | x :: xs, y :: ys => x.same y && sameItems xs ys
  | _, _ => false

def sameMembers : List (String × Value) → List (String × Value) → Bool
  | [], _ => true
  | (name, v) :: rest, ns =>
    (match ns.lookup name with
      | some w => v.same w
      | none => false) && sameMembers rest ns
end

end Value

end StreamedUi.Json
