import StreamedUi.Json.Value
import StreamedUi.Markup.Quoted
import StreamedUi.Numeric.Layout

/-! Property values as attributes of a tag. A string is quoted, `true` is a bare name, null is left
out, and every other value is an expression in braces. -/

namespace StreamedUi.Markup
open Json Numeric

/-- How markup is printed. -/
structure Options where
  quotes : Quotes := .double
  /-- Spaces for each level of nesting, as many as a machine word counts. -/
  indent : Nat := 2
  deriving DecidableEq, Repr

/-- Numbers in expressions: whole ones have no point up to `10 ^ 20`, and zero has no sign. -/
def numberLayout : Layout where
  tie := .up
  positional e := -6 ≤ e && e ≤ 20
  wholeMark := false
  plusSign := true
  signedZero := false

/-- A number as it stands in an expression; an integer has all its digits. -/
def numberChars : Number → List Char
  | .integer n => if n.val < 0 then '-' :: digitChars n.val.natAbs else digitChars n.val.natAbs
  | .float x => numberLayout.chars x

/-- Parts with a comma and a space between them. -/
def commaSeparated (parts : List (List Char)) : List Char := [',', ' '].intercalate parts

mutual
/-- The expression that a value is written as. An object with a string under `path` is written
with that member alone. -/
def expression (q : Quotes) : Value → List Char
  | .null => "null".toList
  | .bool true => "true".toList
  | .bool false => "false".toList
  | .number n => numberChars n
  | .string s => quoted q s
  | .array items => '[' :: (commaSeparated (expressions q items) ++ [']'])
  | .object ms =>
    match ms.lookup "path" with
    | some (.string p) => "\x7b path: ".toList ++ quoted q p ++ [' ', '}']
    | _ => '{' :: ' ' :: (commaSeparated (memberExpressions q ms) ++ [' ', '}'])

def expressions (q : Quotes) : List Value → List (List Char)
  | [] => []
  | v :: vs => expression q v :: expressions q vs

/-- The members of an object, each with its name and a colon before it. -/
def memberExpressions (q : Quotes) : List (String × Value) → List (List Char)
  | [] => []
  | (name, v) :: ms => (name.toList ++ ':' :: ' ' :: expression q v) :: memberExpressions q ms
end

/-- Whether a value has to stand in braces when it is given to an attribute. -/
def needsBraces : Value → Bool
  | .string _ => false
  | .bool b => !b
  | _ => true

/-- An absent value is written as `undefined`. -/
def optionalExpression (q : Quotes) : Option Value → List Char
  | some v => expression q v
  | none => "undefined".toList

/-- An absent value has to stand in braces as well. -/
def optionalNeedsBraces (v : Option Value) : Bool := v.all needsBraces

/-- The attribute that a property becomes, unless it is null. -/
def attribute? (q : Quotes) (name : String) : Value → Option (List Char)
  | .null => none
  | .bool true => some name.toList
  | v =>
    let text := expression q v
    some (name.toList ++ '=' :: if needsBraces v then '{' :: (text ++ ['}']) else text)

/-- The attributes of properties, with a space between them. -/
def attributes (q : Quotes) (props : Members) : List Char :=
  [' '].intercalate (props.filterMap fun (name, v) => attribute? q name v)

end StreamedUi.Markup
