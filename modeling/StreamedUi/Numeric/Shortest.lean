import StreamedUi.Numeric.Decimal

/-! The shortest decimal that reads back as a given binary number. For each count of digits the two
neighbours of the number on that decimal grid are read back; the first grid with one that reads back
as the number wins, of two the nearer. -/

namespace StreamedUi.Numeric

/-- Which of two equally near decimals is taken. -/
inductive Tie
  | even
  | up
  deriving DecidableEq, Repr

/-- The position of the leading digit: `10 ^ (k - 1) ≤ num / den < 10 ^ k`. -/
def leadingPoint (num den : Nat) : Int :=
  if den ≤ num then digitCount (num / den)
  else 1 - (digitCount ((den - 1) / num) : Int)

namespace Binary

variable {F : Format}

/-- The decimals of `count` digits next to the absolute value, the lower one and the upper one,
and how the value lies between them. -/
def neighbours (x : Binary F) (count : Nat) : Decimal × Decimal × Ordering :=
  let e := leadingPoint x.numerator x.denominator - count
  let n := x.numerator * Nat.pow 10 (-e).toNat
  let d := x.denominator * Nat.pow 10 e.toNat
  (⟨n / d, e⟩, ⟨n / d + 1, e⟩, compare (2 * (n % d)) d)

/-- Whether a decimal reads back as the absolute value. -/
def readsBack (x : Binary F) (d : Decimal) : Bool := d.toBinary? F false = some x.abs

/-- The nearest decimal of `count` digits that reads back as the absolute value. -/
def decimalOf? (tie : Tie) (x : Binary F) (count : Nat) : Option Decimal :=
  let (lower, upper, side) := x.neighbours count
  match x.readsBack lower, x.readsBack upper with
  | false, false => none
  | true, false => some lower
  | false, true => some upper
  | true, true =>
    match side, tie with
    | .lt, _ => some lower
    | .gt, _ => some upper
    | .eq, .even => some (if lower.coefficient % 2 = 0 then lower else upper)
    | .eq, .up => some upper

/-- Every digit of the absolute value. -/
def exactDecimal (x : Binary F) : Decimal :=
  if 0 ≤ x.exponent then ⟨x.significand * Nat.pow 2 x.exponent.toNat, 0⟩
  else ⟨x.significand * Nat.pow 5 (-x.exponent).toNat, x.exponent⟩

/-- The shortest decimal of the absolute value, without trailing zeros. Seventeen digits are enough
for every number of the widest format. -/
def shortest (tie : Tie) (x : Binary F) : Decimal :=
  if x.isZero then ⟨0, 0⟩
  else (((List.range' 1 17).findSome? (x.decimalOf? tie)).getD x.exactDecimal).normalize

end Binary

end StreamedUi.Numeric
