import StreamedUi.Yaml.Token

/-! Block scalars: indented lines after a header. In literal ones line breaks stay, in folded ones a
break between two lines of text becomes a space. -/

namespace StreamedUi.Yaml

/-- What becomes of the line breaks at the end. -/
inductive Chomping
  | strip
  | clip
  | keep
  deriving DecidableEq, Repr

/-- What stands behind the indicator of a block scalar. -/
structure BlockHeader where
  chomping : Chomping := .clip
  /-- How much deeper than its parent the text stands, if that is said. -/
  increment : Option Nat := none
  deriving DecidableEq, Repr

/-- The mark of a chomping. -/
def chomping? : Char → Option Chomping
  | '-' => some .strip
  | '+' => some .keep
  | _ => none

/-- The mark of an increment, a digit other than zero. -/
def increment? (c : Char) : Option Nat :=
  if '1' ≤ c && c ≤ '9' then some (c.toNat - '0'.toNat) else none

/-- Chomping and increment, in either order, and what follows them. -/
def readHeader : List Char → BlockHeader × List Char
  | c :: d :: cs =>
    match chomping? c, increment? d, increment? c, chomping? d with
    | some chomping, some n, _, _ => (⟨chomping, some n⟩, cs)
    | some chomping, none, _, _ => (⟨chomping, none⟩, d :: cs)
    | _, _, some n, some chomping => (⟨chomping, some n⟩, cs)
    | _, _, some n, none => (⟨.clip, some n⟩, d :: cs)
    | _, _, _, _ => ({}, c :: d :: cs)
  | [c] =>
    match chomping? c, increment? c with
    | some chomping, _ => (⟨chomping, none⟩, [])
    | _, some n => (⟨.clip, some n⟩, [])
    | _, _ => ({}, [c])
  | [] => ({}, [])

/-- The lines of a block scalar that have been read. -/
structure BlockReader where
  folded : Bool
  /-- The column of the text, once it is known. -/
  indent : Option Nat
  /-- The least column that the text may have. -/
  leastIndent : Nat
  text : List Char := []
  firstBreak : List Char := []
  furtherBreaks : List Char := []
  deepest : Nat := 0
  afterBlank : Bool := false
  inLine : Bool := false

namespace BlockReader

/-- The breaks before a new line of text. -/
def startLine (b : BlockReader) (c : Char) : BlockReader :=
  let blank := isSpaceOrTab c
  let fold := b.folded && b.firstBreak == ['\n'] && !b.afterBlank && !blank
  let first := if fold then (if b.furtherBreaks.isEmpty then [' '] else []) else b.firstBreak
  { b with
    text := b.furtherBreaks ++ first ++ b.text
    firstBreak := []
    furtherBreaks := []
    afterBlank := blank
    inLine := true }

/-- The text once it is known that no further line comes. -/
def finish (b : BlockReader) (chomping : Chomping) : List Char :=
  let text := if chomping = .strip then b.text else b.firstBreak ++ b.text
  let text := if chomping = .keep then b.furtherBreaks ++ text else text
  text.reverse

/-- Reads the lines of the scalar, through the first that is not indented enough. -/
def read (b : BlockReader) (chomping : Chomping) (p : Position) : List Char → Option ScalarResult
  | [] => some ⟨b.finish chomping, [], p, true⟩
  | c :: cs =>
    if c == '\r' && cs.head? == some '\n' then b.read chomping (p.next c) cs
    else if b.inLine then
      if isBreak c then
        { b with firstBreak := [breakChar c], inLine := false }.read chomping p.nextLine cs
      else { b with text := c :: b.text }.read chomping (p.next c) cs
    else
      let indenting := b.indent.all (p.column < ·)
      if c == ' ' && indenting then b.read chomping (p.next c) cs
      else if c == '\t' && indenting then none
      else
        let b := { b with deepest := max b.deepest p.column }
        if isBreak c then
          { b with furtherBreaks := breakChar c :: b.furtherBreaks }.read chomping p.nextLine cs
        else
          let indent := b.indent.getD (max b.deepest b.leastIndent)
          let b := { b with indent := some indent }
          if p.column == indent then
            { b.startLine c with text := c :: (b.startLine c).text }.read chomping (p.next c) cs
          else some ⟨b.finish chomping, c :: cs, p, true⟩

end BlockReader

/-- Whether only white space and a comment are left on the line, and what follows its break. -/
def restOfLine (comment : Bool) (p : Position) : List Char → Option (Position × List Char)
  | [] => some (p, [])
  | c :: cs =>
    if c == '\r' && cs.head? == some '\n' then restOfLine comment (p.next c) cs
    else if isBreak c then some (p.nextLine, cs)
    else if comment || isSpaceOrTab c then restOfLine comment (p.next c) cs
    else if c == '#' then restOfLine true (p.next c) cs
    else none

/-- Reads a block scalar after its indicator, inside a collection at column `parent`. -/
def readBlock (folded : Bool) (parent : Int) (p : Position) (cs : List Char) :
    Option ScalarResult :=
  let (header, rest) := readHeader cs
  (restOfLine false (p.skip (cs.length - rest.length)) rest).bind fun (p, rest) =>
    let indent := header.increment.map fun n => if 0 ≤ parent then parent.toNat + n else n
    let least := max (parent + 1).toNat 1
    BlockReader.read { folded, indent, leastIndent := least } header.chomping p rest

end StreamedUi.Yaml
