/-! White space in the sense of Unicode's `White_Space` property, and trimming by it. -/

namespace StreamedUi.Text

/-- The characters with the Unicode property `White_Space`. -/
def isBlank (c : Char) : Bool :=
  let n := c.toNat
  (9 ≤ n && n ≤ 13) || n == 0x20 || n == 0x85 || n == 0xA0 || n == 0x1680 ||
    (0x2000 ≤ n && n ≤ 0x200A) || n == 0x2028 || n == 0x2029 || n == 0x202F || n == 0x205F ||
    n == 0x3000

/-- What follows the white space at the start. -/
def trimStart (cs : List Char) : List Char := cs.dropWhile isBlank

/-- What comes before the white space at the end. -/
def trimEnd (cs : List Char) : List Char := (cs.reverse.dropWhile isBlank).reverse

/-- What stands between the white space at the two ends. -/
def trimChars (cs : List Char) : List Char := trimEnd (trimStart cs)

/-- The text without the white space at its two ends. -/
def trim (s : String) : String := String.ofList (trimChars s.toList)

/-- Nothing but white space, so nothing is left after trimming. -/
def isBlankText (s : String) : Bool := s.toList.all isBlank

end StreamedUi.Text
