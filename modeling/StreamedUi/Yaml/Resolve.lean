import StreamedUi.Numeric.Extended

/-! What plain scalars read as besides text: null, booleans, integers of four bases, and numbers. -/

namespace StreamedUi.Yaml
open Numeric

/-- Whether a plain scalar reads as null. -/
def isNull (s : String) : Bool := ["null", "Null", "NULL", "~"].contains s

/-- Whether a plain scalar reads as a boolean. -/
def isBool (s : String) : Bool := ["true", "True", "TRUE", "false", "False", "FALSE"].contains s

/-- The value of a digit in a base up to sixteen. -/
def digit? (base : Nat) (c : Char) : Option Nat :=
  let value? := if '0' ≤ c && c ≤ '9' then some (c.toNat - '0'.toNat)
    else if 'a' ≤ c && c ≤ 'f' then some (c.toNat - 'a'.toNat + 10)
    else if 'A' ≤ c && c ≤ 'F' then some (c.toNat - 'A'.toNat + 10)
    else none
  value?.filter (· < base)

/-- The number that digits denote; at least one digit is needed. -/
def digits? (base : Nat) (cs : List Char) : Option Nat :=
  if cs.isEmpty then none
  else cs.foldlM (fun n c => (digit? base c).map (base * n + ·)) 0

/-- Digits after a zero, which are no number. -/
def isZeroPadded (cs : List Char) : Bool :=
  let digits := match cs with
    | '-' :: cs | '+' :: cs => cs
    | cs => cs
  match digits with
  | '0' :: c :: cs => (c :: cs).all Char.isDigit
  | _ => false

/-- Digits of the base that is marked before them. -/
def based? : List Char → Option Nat
  | '0' :: 'x' :: cs => digits? 16 cs
  | '0' :: 'o' :: cs => digits? 8 cs
  | '0' :: 'b' :: cs => digits? 2 cs
  | _ => none

/-- A natural number, which a plus sign may stand before. -/
def natural? (s : String) : Option Nat :=
  let cs := match s.toList with
    | '+' :: cs => cs
    | cs => cs
  (based? cs).or (if isZeroPadded s.toList then none else digits? 10 cs)

/-- The absolute value of a number with a minus sign. -/
def negated? (s : String) : Option Nat :=
  match s.toList with
  | '-' :: cs => (based? cs).or (if isZeroPadded cs then none else digits? 10 cs)
  | _ => none

/-- The power of ten after a mark. -/
def power? : List Char → Option Int
  | '+' :: cs => (digits? 10 cs).map fun e => e
  | '-' :: cs => (digits? 10 cs).map fun e => -e
  | cs => (digits? 10 cs).map fun e => e

/-- Decimal digits with a point among or beside them, and a power of ten. -/
def decimal? (cs : List Char) : Option Decimal := do
  let whole := cs.takeWhile Char.isDigit
  let (places, rest) := match cs.dropWhile Char.isDigit with
    | '.' :: cs => (cs.takeWhile Char.isDigit, cs.dropWhile Char.isDigit)
    | cs => ([], cs)
  let coefficient ← digits? 10 (whole ++ places)
  let power ← match rest with
    | [] => some 0
    | c :: cs => if c == 'e' || c == 'E' then power? cs else none
  return ⟨coefficient, power - places.length⟩

/-- A finite number, which one sign may stand before. -/
def finite? (s : String) : Option (Binary binary64) :=
  match s.toList with
  | '+' :: cs => (decimal? cs).bind (·.toBinary? binary64 false)
  | '-' :: cs => (decimal? cs).bind (·.toBinary? binary64 true)
  | cs => (decimal? cs).bind (·.toBinary? binary64 false)

/-- A number, an infinity or the value that is no number. -/
def number? (s : String) : Option (Extended binary64) :=
  if [".inf", ".Inf", ".INF", "+.inf", "+.Inf", "+.INF"].contains s then some (.infinity false)
  else if ["-.inf", "-.Inf", "-.INF"].contains s then some (.infinity true)
  else if [".nan", ".NaN", ".NAN"].contains s then some .nan
  else (finite? s).map .number

/-- Whether a text, written plainly, would not read as text. -/
def isAmbiguous (s : String) : Bool :=
  s.isEmpty || isNull s || isBool s || (natural? s).any (· < Nat.pow 2 128) ||
    (negated? s).any (· ≤ Nat.pow 2 127) || isZeroPadded s.toList || (number? s).isSome

end StreamedUi.Yaml
