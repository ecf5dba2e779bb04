import StreamedUi.Numeric.Layout

/-! Binary numbers with infinities and a value that is no number. -/

namespace StreamedUi.Numeric

/-- A number of the format, an infinity, or no number. -/
inductive Extended (F : Format)
  | number (x : Binary F)
  | infinity (negative : Bool)
  | nan
  deriving DecidableEq, Repr

namespace Extended

variable {F : Format}

/-- What is beyond the largest number becomes infinite. -/
def ofOption (negative : Bool) : Option (Binary F) → Extended F
  | some x => .number x
  | none => .infinity negative

/-- The nearest value to a decimal. -/
def ofDecimal (F : Format) (negative : Bool) (d : Decimal) : Extended F :=
  ofOption negative (d.toBinary? F negative)

/-- The nearest value of another format. -/
def convert (G : Format) : Extended F → Extended G
  | .number x => ofOption x.negative (Binary.round? G x.negative x.numerator x.denominator)
  | .infinity negative => .infinity negative
  | .nan => .nan

/-- Equality in value: what is no number equals nothing. -/
def valueEq : Extended F → Extended F → Bool
  | .number x, .number y => x.valueEq y
  | .infinity a, .infinity b => a == b
  | _, _ => false

end Extended

/-- All digits, never a power of ten. -/
def plainLayout : Layout where
  tie := .up
  positional _ := true
  wholeMark := false
  plusSign := false
  signedZero := true

/-- The value as it is shown. -/
def Extended.text {F : Format} : Extended F → String
  | .number x => plainLayout.text x
  | .infinity false => "inf"
  | .infinity true => "-inf"
  | .nan => "NaN"

end StreamedUi.Numeric
