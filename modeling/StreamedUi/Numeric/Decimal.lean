import StreamedUi.Numeric.Binary

/-! Decimal numbers `coefficient * 10 ^ exponent`, their digits, and the nearest binary number. -/

namespace StreamedUi.Numeric

/-- The digit characters of a number, at least one. -/
def digitChars (n : Nat) : List Char := Nat.toDigits 10 n

/-- How many digits a number has; zero has one. -/
def digitCount (n : Nat) : Nat := (digitChars n).length

/-- The number that digit characters of base ten denote. -/
def ofDigitChars (cs : List Char) : Nat := cs.foldl (fun n c => 10 * n + (c.toNat - '0'.toNat)) 0

/-- A number without its trailing zeros, and how many they were. Zero keeps its one digit. -/
def stripZeros (n : Nat) : Nat × Nat :=
  if _h : n ≠ 0 ∧ n % 10 = 0 then
    let (m, k) := stripZeros (n / 10)
    (m, k + 1)
  else (n, 0)
  termination_by n
  decreasing_by omega

/-- The number `coefficient * 10 ^ exponent`. -/
structure Decimal where
  coefficient : Nat
  exponent : Int
  deriving DecidableEq, Repr

namespace Decimal

/-- The position of the point: the value is `0.d₁d₂…dₖ * 10 ^ point`. -/
def point (d : Decimal) : Int := d.exponent + digitCount d.coefficient

/-- The same value with no trailing zero in the coefficient. -/
def normalize (d : Decimal) : Decimal :=
  let (c, k) := stripZeros d.coefficient
  ⟨c, d.exponent + k⟩

/-- The value as a quotient of natural numbers. -/
def numerator (d : Decimal) : Nat := d.coefficient * Nat.pow 10 d.exponent.toNat

/-- The other part of the quotient, a power of ten. -/
def denominator (d : Decimal) : Nat := Nat.pow 10 (-d.exponent).toNat

/-- The nearest binary number. A value with its point beyond the largest exponent is too large
and one with its point before the least exponent rounds to zero, whatever the digits. -/
def toBinary? (F : Format) (negative : Bool) (d : Decimal) : Option (Binary F) :=
  if d.coefficient = 0 ∨ d.point < F.minExponent - 1 then Binary.round? F negative 0 1
  else if F.maxExponent + F.precision < d.point - 1 then none
  else Binary.round? F negative d.numerator d.denominator

end Decimal

end StreamedUi.Numeric
