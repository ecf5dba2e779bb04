/-! Lines of a text. A newline ends a line, a carriage return right before it belongs to the ending,
and a text that ends in a newline has no empty line after it. -/

namespace StreamedUi.Text

/-- The lines of a text, without their endings. -/
def lineChars : List Char → List (List Char)
  | [] => []
  | '\r' :: '\n' :: cs => [] :: lineChars cs
  | c :: cs =>
    if c = '\n' then [] :: lineChars cs
    else match lineChars cs with
      | [] => [[c]]
      | l :: ls => (c :: l) :: ls

/-- The same as strings. -/
def lines (s : String) : List String := (lineChars s.toList).map String.ofList

/-- The text up to and with its last newline, and what follows it. -/
def splitAtLastNewline : List Char → List Char × List Char
  | [] => ([], [])
  | c :: cs =>
    match splitAtLastNewline cs with
    | ([], rest) => if c = '\n' then ([c], rest) else ([], c :: rest)
    | (done, rest) => (c :: done, rest)

end StreamedUi.Text
