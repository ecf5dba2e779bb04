/-! Cutting a text at the first or the last place where a given piece occurs. -/

namespace StreamedUi.Text

/-- What stands before the first occurrence of `piece`, and what follows its end. -/
def splitFirst? (piece : List Char) : List Char → Option (List Char × List Char)
  | [] => (piece.isPrefixOf? []).map fun rest => ([], rest)
  | c :: cs =>
    match piece.isPrefixOf? (c :: cs) with
    | some rest => some ([], rest)
    | none => (splitFirst? piece cs).map fun (before, rest) => (c :: before, rest)

/-- What stands between an `opening` and the first `closing` after it, for the first `opening` with
one after it. -/
def firstBetween? (opening closing : List Char) : List Char → Option (List Char)
  | [] => ((opening.isPrefixOf? []).bind (splitFirst? closing)).map Prod.fst
  | c :: cs =>
    match (opening.isPrefixOf? (c :: cs)).bind (splitFirst? closing) with
    | some (inner, _) => some inner
    | none => firstBetween? opening closing cs

/-- The text without the first occurrence of `piece`. -/
def eraseFirst (piece cs : List Char) : List Char :=
  match splitFirst? piece cs with
  | some (before, rest) => before ++ rest
  | none => cs

/-- What stands before the last occurrence of `piece`, and the text from there on. -/
def splitLast? (piece : List Char) : List Char → Option (List Char × List Char)
  | [] => if piece.isEmpty then some ([], []) else none
  | c :: cs =>
    match splitLast? piece cs with
    | some (before, rest) => some (c :: before, rest)
    | none => if piece.isPrefixOf (c :: cs) then some ([], c :: cs) else none

/-- The text through the first `stop`, which has to occur. -/
def takeThrough? (stop : Char) : List Char → Option (List Char)
  | [] => none
  | c :: cs => if c = stop then some [c] else (takeThrough? stop cs).map (c :: ·)

/-- The parts between separators; there is always one part more than separators. -/
def splitOn (separator : Char) : List Char → List (List Char)
  | [] => [[]]
  | c :: cs =>
    if c = separator then [] :: splitOn separator cs
    else match splitOn separator cs with
      | [] => [[c]]
      | part :: parts => (c :: part) :: parts

end StreamedUi.Text
