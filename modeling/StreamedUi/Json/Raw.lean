import StreamedUi.Json.Value
import StreamedUi.Numeric.Scale

/-! JSON texts as they are written: numbers keep their digits, strings their escapes, and objects
all their members. What a text means is decided afterwards: `Raw.value?` gives the value of a text
that nests no deeper than it may, whose numbers are in range and whose escapes form characters. -/

namespace StreamedUi.Json
open Numeric

/-- A number as written: `± coefficient / 10 ^ places * 10 ^ power`. -/
structure Numeral where
  negative : Bool := false
  coefficient : Nat := 0
  /-- How many digits follow the point. -/
  places : Nat := 0
  /-- The written power of ten, with its sign. -/
  power : Option (Bool × Nat) := none
  deriving DecidableEq, Repr

namespace Numeral

/-- Whether the number has neither a point nor a power of ten. -/
def isWhole (n : Numeral) : Bool := n.places == 0 && n.power.isNone

/-- The integer, if the number is a whole one of a machine word; zero with a sign is a float. -/
def wordInt? (n : Numeral) : Option WordInt :=
  if n.isWhole && !(n.negative && n.coefficient == 0) then
    let i : Int := if n.negative then -n.coefficient else n.coefficient
    if h : -(Int.pow 2 63) ≤ i ∧ i < Int.pow 2 64 then some ⟨i, h⟩ else none
  else none

/-- The digits before the point. -/
def wholeDigits (n : Numeral) : List Char := digitChars (n.coefficient / Nat.pow 10 n.places)

/-- The digits after the point. -/
def placeDigits (n : Numeral) : List Char :=
  let digits := digitChars (n.coefficient % Nat.pow 10 n.places)
  (List.replicate n.places '0' ++ digits).drop digits.length

/-- The significand with more digits behind it, as many as an unsigned word of 64 bits takes, and
how many these are. -/
def takeDigits (significand : Nat) : List Char → Nat × Nat
  | [] => (significand, 0)
  | c :: cs =>
    let next := 10 * significand + (c.toNat - '0'.toNat)
    if next < Nat.pow 2 64 then
      let (taken, count) := takeDigits next cs
      (taken, count + 1)
    else (significand, 0)

/-- The leading digits that a word holds, and the power of ten that they are worth without the
written one. -/
def significand (n : Numeral) : Nat × Int :=
  let (whole, wholeCount) := takeDigits 0 n.wholeDigits
  let (all, placeCount) := takeDigits whole n.placeDigits
  (all, (n.wholeDigits.length - wholeCount : Nat) - (placeCount : Int))

/-- The float of a number: its leading digits, scaled. A power of ten that no signed word of 32 bits
holds makes any number but zero too large or zero. None for a number beyond the largest float. -/
def float? (n : Numeral) : Option (Binary binary64) :=
  let (significand, shift) := n.significand
  let scaled? (e : Int) := (Binary.round? binary64 n.negative significand 1).bind (·.scale? e)
  match n.power with
  | none => scaled? shift
  | some (negative, e) =>
    if e < Nat.pow 2 31 then scaled? (if negative then shift - e else shift + e)
    else if negative || significand == 0 then Binary.round? binary64 n.negative 0 1
    else none

/-- None for a number beyond the largest float. -/
def number? (n : Numeral) : Option Number :=
  match n.wordInt? with
  | some i => some (.integer i)
  | none => n.float?.map .float

end Numeral

/-- What a string is written with: characters, and code units of UTF-16 written as escapes. -/
inductive Piece
  | char (c : Char)
  | unit (n : Nat)
  deriving DecidableEq, Repr

/-- Whether a code unit is the first of a surrogate pair. -/
def Piece.isHigh (n : Nat) : Bool := 0xD800 ≤ n && n < 0xDC00

/-- Whether a code unit is the second of a surrogate pair. -/
def Piece.isLow (n : Nat) : Bool := 0xDC00 ≤ n && n < 0xE000

/-- The characters of a written string: surrogates have to come in pairs. -/
def Piece.chars? : List Piece → Option (List Char)
  | [] => some []
  | .char c :: rest => (chars? rest).map (c :: ·)
  | .unit high :: .unit low :: rest =>
    if isHigh high && isLow low then
      (chars? rest).map (Char.ofNat (0x10000 + (high - 0xD800) * 0x400 + (low - 0xDC00)) :: ·)
    else if isHigh high || isLow high then none
    else (chars? (.unit low :: rest)).map (Char.ofNat high :: ·)
  | .unit n :: rest =>
    if isHigh n || isLow n then none else (chars? rest).map (Char.ofNat n :: ·)

/-- The text of a written string, if it has one. -/
def Piece.text? (pieces : List Piece) : Option String := (chars? pieces).map String.ofList

/-- A text as written, before numbers are read, strings decoded and members merged. -/
inductive Raw
  | null
  | bool (b : Bool)
  | numeral (n : Numeral)
  | string (pieces : List Piece)
  | array (items : List Raw)
  | object (members : List (List Piece × Raw))
  deriving Repr

namespace Raw

mutual
/-- The value of a text that may nest `levels` arrays and objects. -/
def value? (levels : Nat) : Raw → Option Value
  | .null => some .null
  | .bool b => some (.bool b)
  | .numeral n => n.number?.map .number
  | .string pieces => (Piece.text? pieces).map .string
  | .array items =>
    match levels with
    | 0 => none
    | levels + 1 => (values? levels items).map .array
  | .object members =>
    match levels with
    | 0 => none
    | levels + 1 => (members? levels members).map fun ms => .object (Members.ofList ms)

def values? (levels : Nat) : List Raw → Option (List Value)
  | [] => some []
  | r :: rest => do
    let v ← r.value? levels
    let vs ← values? levels rest
    return v :: vs

/-- The members in the order of the text, a name as often as it comes. -/
def members? (levels : Nat) : List (List Piece × Raw) → Option (List (String × Value))
  | [] => some []
  | (name, r) :: rest => do
    let name ← Piece.text? name
    let v ← r.value? levels
    let ms ← members? levels rest
    return (name, v) :: ms
end

/-- How deep arrays and objects may nest in one text. -/
def maxLevels : Nat := 127

/-- The names of an object's members as texts. -/
def names? : List (List Piece × Raw) → Option (List (String × Raw))
  | [] => some []
  | (name, r) :: rest => do
    let name ← Piece.text? name
    let rest ← names? rest
    return (name, r) :: rest

/-- The fields of a record that has the given names. In an object other members are passed over
unread and no field may come twice; in an array the fields stand in order, and trailing ones may be
missing. -/
def fields? (names : List String) : Raw → Option (List (String × Raw))
  | .object members => do
    let members ← names? members
    let known := members.filter (names.contains ·.1)
    if (known.map Prod.fst).Nodup then some known else none
  | .array items => if items.length ≤ names.length then some (names.zip items) else none
  | _ => none

/-- The values of fields, each of which may nest `levels` arrays and objects. -/
def fieldValues? (levels : Nat) (fields : List (String × Raw)) : Option Members :=
  fields.mapM fun (name, r) => (r.value? levels).map (name, ·)

end Raw

end StreamedUi.Json
