/-! Tokens of a YAML text, its character classes, and positions in it. -/

namespace StreamedUi.Yaml

/-- A token. Where block collections begin and end is told by the columns alone. -/
inductive Token
  | documentStart
  | documentEnd
  | blockSequenceStart
  | blockMappingStart
  | blockEnd
  | flowSequenceStart
  | flowSequenceEnd
  | flowMappingStart
  | flowMappingEnd
  | blockEntry
  | flowEntry
  | key
  | value
  /-- A scalar, and whether it is a plain one. -/
  | scalar (plain : Bool) (text : String)
  deriving DecidableEq, Repr

/-- Characters that a text may hold. -/
def isAllowed (c : Char) : Bool :=
  let n := c.toNat
  n == 0x09 || n == 0x0A || n == 0x0D || (0x20 ≤ n && n ≤ 0x7E) || n == 0x85 ||
    (0xA0 ≤ n && n ≤ 0xD7FF) || (0xE000 ≤ n && n ≤ 0xFFFD) || 0x10000 ≤ n

/-- The characters that end a line. -/
def isBreak (c : Char) : Bool :=
  c == '\n' || c == '\r' || c == '\u0085' || c == '\u2028' || c == '\u2029'

def isSpaceOrTab (c : Char) : Bool := c == ' ' || c == '\t'

/-- The characters that flow collections are written with. -/
def isFlowIndicator (c : Char) : Bool :=
  c == ',' || c == '[' || c == ']' || c == '{' || c == '}'

/-- Characters that mean something else at the start of a plain scalar. -/
def isIndicator (c : Char) : Bool :=
  isFlowIndicator c || ['#', '&', '*', '!', '|', '>', '\'', '"', '%', '@', '\x60'].contains c

/-- Whether a text is at its end, or goes on with white space. -/
def endsWord : List Char → Bool
  | [] => true
  | c :: _ => isSpaceOrTab c || isBreak c

/-- What a line break is read as. -/
def breakChar (c : Char) : Char := if c == '\u2028' || c == '\u2029' then c else '\n'

/-- Whether a line begins with the mark of a document's start or end. -/
def atDocumentMark (column : Nat) : List Char → Bool
  | '-' :: '-' :: '-' :: cs => column == 0 && endsWord cs
  | '.' :: '.' :: '.' :: cs => column == 0 && endsWord cs
  | _ => false

/-- A position in a text. -/
structure Position where
  /-- How many bytes come before. -/
  index : Nat := 0
  line : Nat := 0
  column : Nat := 0
  deriving DecidableEq, Repr

namespace Position

/-- The position after a character that ends no line. -/
def next (p : Position) (c : Char) : Position :=
  { p with index := p.index + c.utf8Size, column := p.column + 1 }

/-- The position after characters of one byte each. -/
def skip (p : Position) (n : Nat) : Position :=
  { p with index := p.index + n, column := p.column + n }

/-- The start of the next line. -/
def nextLine (p : Position) : Position := ⟨p.index + 1, p.line + 1, 0⟩

end Position

/-- White space inside a scalar that has been passed but not yet taken into its text. -/
structure Gap where
  /-- White space on the scalar's line, last first. -/
  spaces : List Char := []
  /-- The first line break, if it counts, and the further ones, last first. -/
  breaks : Option (List Char × List Char) := none
  deriving DecidableEq, Repr

namespace Gap

/-- Whether no white space has been passed. -/
def isEmpty (g : Gap) : Bool := g.spaces.isEmpty && g.breaks.isNone

/-- Whether a line has ended in the gap. -/
def hasBreak (g : Gap) : Bool := g.breaks.isSome

/-- White space counts only while no line has ended. -/
def addSpace (g : Gap) (c : Char) : Gap :=
  if g.hasBreak then g else { g with spaces := c :: g.spaces }

/-- A line ends: white space before the break no longer counts. -/
def addBreak (g : Gap) (c : Char) : Gap :=
  match g.breaks with
  | none => ⟨[], some ([breakChar c], [])⟩
  | some (first, further) => ⟨[], some (first, breakChar c :: further)⟩

/-- What the gap adds to the text, last first: a single newline becomes a space, and of several the
first counts for nothing. -/
def text (g : Gap) : List Char :=
  match g.breaks with
  | none => g.spaces
  | some (['\n'], []) => [' ']
  | some (['\n'], further) => further
  | some (first, further) => further ++ first

end Gap

/-- A scalar that has been read: its text, what follows it, and whether a line has ended after
it. -/
structure ScalarResult where
  text : List Char
  rest : List Char
  position : Position
  afterBreak : Bool := false

end StreamedUi.Yaml
