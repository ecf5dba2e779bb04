import StreamedUi.Json.Value
import StreamedUi.Numeric.Layout

/-! Writing JSON values, on one line or indented. -/

namespace StreamedUi.Json
open Numeric

/-- Floats are positional while the leading digit is worth `10 ^ -5` up to `10 ^ 15`, and always
have a point or a power of ten. -/
def floatLayout : Layout where
  tie := .even
  positional e := -5 ≤ e && e ≤ 15
  wholeMark := true
  plusSign := true
  signedZero := true

/-- The digits of an integer, after its sign. -/
def intChars (n : Int) : List Char :=
  if n < 0 then '-' :: digitChars n.natAbs else digitChars n.natAbs

/-- The text of a number. -/
def Number.chars : Number → List Char
  | .integer n => intChars n
  | .float x => floatLayout.chars x

/-- A hexadecimal digit, of lower case. -/
def hexDigit (n : Nat) : Char := Char.ofNat (if n < 10 then '0'.toNat + n else 'a'.toNat + (n - 10))

/-- A character inside a string. -/
def escapeChar (c : Char) : List Char :=
  match c with
  | '"' => ['\\', '"']
  | '\\' => ['\\', '\\']
  | '\x08' => ['\\', 'b']
  | '\x0c' => ['\\', 'f']
  | '\n' => ['\\', 'n']
  | '\r' => ['\\', 'r']
  | '\t' => ['\\', 't']
  | c => if c < ' ' then ['\\', 'u', '0', '0', hexDigit (c.toNat / 16), hexDigit (c.toNat % 16)]
    else [c]

/-- A string between its quotes. -/
def stringChars (s : String) : List Char := '"' :: (s.toList.flatMap escapeChar ++ ['"'])

/-- What stands around the items of an array or object: a line break at their depth, and after the
colon of a member. -/
structure Spacing where
  lineBreak : Nat → List Char
  afterColon : List Char

/-- No space at all. -/
def Spacing.compact : Spacing := ⟨fun _ => [], []⟩

/-- Two spaces for each level. -/
def Spacing.pretty : Spacing := ⟨fun depth => '\n' :: List.replicate (2 * depth) ' ', [' ']⟩

namespace Value

mutual
/-- The text of a value that stands at a depth. -/
def chars (sp : Spacing) (depth : Nat) : Value → List Char
  | .null => ['n', 'u', 'l', 'l']
  | .bool true => ['t', 'r', 'u', 'e']
  | .bool false => ['f', 'a', 'l', 's', 'e']
  | .number n => n.chars
  | .string s => stringChars s
  | .array [] => ['[', ']']
  | .array (v :: vs) =>
    '[' :: (sp.lineBreak (depth + 1) ++ v.chars sp (depth + 1) ++ itemChars sp depth vs)
  | .object [] => ['{', '}']
  | .object ((name, v) :: ms) =>
    '{' :: (sp.lineBreak (depth + 1) ++ stringChars name ++ ':' :: (sp.afterColon ++
      v.chars sp (depth + 1) ++ memberChars sp depth ms))

/-- The items after the first, and the end of the array. -/
def itemChars (sp : Spacing) (depth : Nat) : List Value → List Char
  | [] => sp.lineBreak depth ++ [']']
  | v :: vs =>
    ',' :: (sp.lineBreak (depth + 1) ++ v.chars sp (depth + 1) ++ itemChars sp depth vs)

/-- The members after the first, and the end of the object. -/
def memberChars (sp : Spacing) (depth : Nat) : List (String × Value) → List Char
  | [] => sp.lineBreak depth ++ ['}']
  | (name, v) :: ms =>
    ',' :: (sp.lineBreak (depth + 1) ++ stringChars name ++ ':' :: (sp.afterColon ++
      v.chars sp (depth + 1) ++ memberChars sp depth ms))
end

/-- The text without any spacing. -/
def compact (v : Value) : String := String.ofList (v.chars .compact 0)

/-- The indented text. -/
def pretty (v : Value) : String := String.ofList (v.chars .pretty 0)

end Value

end StreamedUi.Json
