import StreamedUi.Json.Value
import StreamedUi.Text.Search

/-! Slash-separated paths into a JSON value. Empty segments count for nothing, a segment names a
member of an object or, as a decimal number, an item of an array. -/

namespace StreamedUi.Json
open Numeric

/-- The non-empty segments of a path. -/
def segments (path : String) : List String :=
  ((Text.splitOn '/' path.toList).filter (· ≠ [])).map String.ofList

/-- The index that a segment denotes: decimal digits, possibly after a plus sign. -/
def index? (segment : String) : Option Nat :=
  let digits := match segment.toList with
    | '+' :: cs => cs
    | cs => cs
  if !digits.isEmpty && digits.all Char.isDigit then some (ofDigitChars digits) else none

namespace Value

/-- One step from a value. -/
def step? (v : Value) (segment : String) : Option Value :=
  match v with
  | .object ms => ms.lookup segment
  | .array items => (index? segment).bind (items[·]?)
  | _ => none

/-- The value at a path. -/
def at? (v : Value) (path : String) : Option Value := (segments path).foldlM step? v

end Value

end StreamedUi.Json
