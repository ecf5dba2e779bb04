import StreamedUi.Numeric.Binary

/-! Binary numbers times powers of ten. The power is rounded and so is the product or quotient,
which is quicker than to round an exact decimal once but does not always give the nearest number. -/

namespace StreamedUi.Numeric.Binary

variable {F : Format}

/-- The product, rounded; none beyond the largest number. -/
def mul? (x y : Binary F) : Option (Binary F) :=
  round? F (x.negative != y.negative) (x.numerator * y.numerator) (x.denominator * y.denominator)

/-- The quotient by a number that is not zero, rounded. -/
def div? (x y : Binary F) : Option (Binary F) :=
  round? F (x.negative != y.negative) (x.numerator * y.denominator) (x.denominator * y.numerator)

/-- The nearest number to `10 ^ n`. -/
def tenPow? (F : Format) (n : Nat) : Option (Binary F) := round? F false (Nat.pow 10 n) 1

/-- The largest power of ten that is a `binary64`. -/
def maxTenPow : Nat := 308

/-- Divides by `10 ^ n`. What is beyond the largest power takes several steps, as long as anything
is left of the number. -/
def lower? (x : Binary binary64) (n : Nat) : Option (Binary binary64) :=
  if _h : n ≤ maxTenPow then (tenPow? binary64 n).bind x.div?
  else if x.isZero then some x
  else ((tenPow? binary64 maxTenPow).bind x.div?).bind (·.lower? (n - maxTenPow))
  termination_by n
  decreasing_by
    simp only [maxTenPow] at _h ⊢
    omega

/-- The number times `10 ^ e`. -/
def scale? (x : Binary binary64) (e : Int) : Option (Binary binary64) :=
  if e < 0 then x.lower? (-e).toNat
  else if e ≤ maxTenPow then (tenPow? binary64 e.toNat).bind x.mul?
  else if x.isZero then some x
  else none

end StreamedUi.Numeric.Binary
