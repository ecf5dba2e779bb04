/-! Finite binary floating-point numbers, exactly: a sign, a significand of bounded width and a
power of two. A quotient of natural numbers is rounded to the nearest of them, half a unit to the
even neighbour. -/

namespace StreamedUi.Numeric

/-- The width of the significand and the range of the power of two it is scaled by. -/
structure Format where
  precision : Nat
  minExponent : Int
  maxExponent : Int
  deriving DecidableEq, Repr

/-- Double precision. -/
def binary64 : Format := ⟨53, -1074, 971⟩

/-- Single precision. -/
def binary32 : Format := ⟨24, -149, 104⟩

/-- Each number has one canonical form: only at the least exponent is a significand short. -/
def Format.Canonical (F : Format) (significand : Nat) (exponent : Int) : Prop :=
  significand < Nat.pow 2 F.precision ∧ F.minExponent ≤ exponent ∧ exponent ≤ F.maxExponent ∧
    (significand < Nat.pow 2 (F.precision - 1) → exponent = F.minExponent)

instance (F : Format) (m : Nat) (e : Int) : Decidable (F.Canonical m e) :=
  inferInstanceAs (Decidable (_ ∧ _ ∧ _ ∧ (_ → _)))

/-- The number `± significand * 2 ^ exponent`. -/
structure Binary (F : Format) where
  negative : Bool
  significand : Nat
  exponent : Int
  canonical : F.Canonical significand exponent
  deriving DecidableEq, Repr

namespace Binary

variable {F : Format}

/-- The number without its sign. -/
def abs (x : Binary F) : Binary F := { x with negative := false }

/-- Whether this is one of the two zeros. -/
def isZero (x : Binary F) : Bool := x.significand == 0

/-- The signed value in units of the least exponent's power of two; both zeros have the value 0. -/
def units (x : Binary F) : Int :=
  let n : Int := x.significand * Int.pow 2 (x.exponent - F.minExponent).toNat
  if x.negative then -n else n

/-- The two zeros are equal in value. -/
def valueEq (x y : Binary F) : Bool := x.units == y.units

/-- The order of the values, so that neither zero is less than the other. -/
def valueLt (x y : Binary F) : Bool := x.units < y.units

/-- The absolute value as a quotient of natural numbers. -/
def numerator (x : Binary F) : Nat := x.significand * Nat.pow 2 x.exponent.toNat

/-- The other part of the quotient, a power of two. -/
def denominator (x : Binary F) : Nat := Nat.pow 2 (-x.exponent).toNat

/-- The canonical form of `significand * 2 ^ exponent`, if the format has it. -/
def ofParts? (F : Format) (negative : Bool) (significand : Nat) (exponent : Int) :
    Option (Binary F) :=
  if h : F.Canonical significand exponent then some ⟨negative, significand, exponent, h⟩ else none

end Binary

/-- The quotient to the nearest natural number, half a unit to the even one. -/
def divNearestEven (num den : Nat) : Nat :=
  let q := num / den
  let r := num % den
  if 2 * r < den then q
  else if den < 2 * r then q + 1
  else if q % 2 = 0 then q else q + 1

/-- `num / (den * 2 ^ e)` as a quotient of natural numbers. -/
def scaled (num den : Nat) (e : Int) : Nat × Nat :=
  (num * Nat.pow 2 (-e).toNat, den * Nat.pow 2 e.toNat)

/-- The exponent at which the quotient has a significand of full width, or the least one. -/
def fitExponent (F : Format) (num den : Nat) : Int :=
  let e := max F.minExponent ((num.log2 : Int) - den.log2 - F.precision)
  let (n, d) := scaled num den e
  if Nat.pow 2 F.precision ≤ n / d then e + 1 else e

/-- The nearest number of the format to `± num / den`; none beyond the largest one. -/
def Binary.round? (F : Format) (negative : Bool) (num den : Nat) : Option (Binary F) :=
  let e := if num = 0 then F.minExponent else fitExponent F num den
  let (n, d) := scaled num den e
  let m := divNearestEven n d
  if m = Nat.pow 2 F.precision then Binary.ofParts? F negative (m / 2) (e + 1)
  else Binary.ofParts? F negative m e

/-- The nearest number to an integer. -/
def Binary.ofInt? (F : Format) (n : Int) : Option (Binary F) := Binary.round? F (n < 0) n.natAbs 1

end StreamedUi.Numeric
