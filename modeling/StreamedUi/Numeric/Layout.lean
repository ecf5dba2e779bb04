import StreamedUi.Numeric.Shortest

/-! How the digits of a number are laid out as text: with the point among or beside them, or as one
digit before the point and a power of ten. -/

namespace StreamedUi.Numeric

/-- The decisions that a number format leaves open. -/
structure Layout where
  tie : Tie
  /-- Whether a leading digit worth `10 ^ e` is written without a power of ten. -/
  positional : Int → Bool
  /-- Whether a whole number ends in `.0`. -/
  wholeMark : Bool
  /-- Whether a power of ten with a positive exponent has a plus sign. -/
  plusSign : Bool
  /-- Whether a negative zero keeps its sign. -/
  signedZero : Bool

namespace Layout

def zeros (n : Nat) : List Char := List.replicate n '0'

/-- Digits with the point `point` places after their start. -/
def positionalText (l : Layout) (digits : List Char) (point : Int) : List Char :=
  if (digits.length : Int) ≤ point then
    digits ++ zeros (point - digits.length).toNat ++ if l.wholeMark then ['.', '0'] else []
  else if 0 < point then digits.take point.toNat ++ '.' :: digits.drop point.toNat
  else '0' :: '.' :: zeros (-point).toNat ++ digits

/-- One digit before the point, then the power of ten. -/
def exponentText (l : Layout) (digits : List Char) (point : Int) : List Char :=
  let e := point - 1
  let sign := if e < 0 then ['-'] else if l.plusSign then ['+'] else []
  let mantissa := match digits with
    | [] => []
    | [d] => [d]
    | d :: rest => d :: '.' :: rest
  mantissa ++ 'e' :: sign ++ digitChars e.natAbs

/-- The text of a positive decimal. -/
def decimalText (l : Layout) (d : Decimal) : List Char :=
  let digits := digitChars d.coefficient
  if l.positional (d.point - 1) then l.positionalText digits d.point
  else l.exponentText digits d.point

/-- The text of a number: its shortest digits, laid out. -/
def chars {F : Format} (l : Layout) (x : Binary F) : List Char :=
  let body := l.decimalText (x.shortest l.tie)
  if x.negative && (!x.isZero || l.signedZero) then '-' :: body else body

/-- The same as a string. -/
def text {F : Format} (l : Layout) (x : Binary F) : String := String.ofList (l.chars x)

end Layout

end StreamedUi.Numeric
