import StreamedUi.Yaml.Block
import StreamedUi.Yaml.Plain
import StreamedUi.Yaml.Quoted

/-! The tokens of a YAML text. Block collections begin and end by indentation. A key is known only
when the colon after it comes, so the place where a key may have begun is remembered, one for each
level of flow style, and the key's token is put in there. -/

namespace StreamedUi.Yaml

/-- A place where a key may have begun. -/
structure KeyPlace where
  /-- Whether nothing but a key may stand there. -/
  required : Bool
  /-- How many tokens come before it. -/
  token : Nat
  position : Position
  deriving DecidableEq, Repr

/-- The tokens so far, and where in the document their reader is. -/
structure Lexer where
  tokens : Array Token := #[]
  /-- The columns of the block collections that are open, innermost first. -/
  indents : List Nat := []
  /-- The place of a key on the current level. -/
  place : Option KeyPlace := none
  /-- The places on the levels of flow style around it. -/
  outer : List (Option KeyPlace) := []
  /-- Whether a key may begin here. -/
  keyAllowed : Bool := true
  deriving Repr

namespace Lexer

/-- Whether some bracket or brace is open. -/
def inFlow (l : Lexer) : Bool := !l.outer.isEmpty

/-- One token more. -/
def push (l : Lexer) (t : Token) : Lexer := { l with tokens := l.tokens.push t }

/-- Puts tokens in behind the first `place` ones. -/
def insertAt (l : Lexer) (place : Nat) (ts : List Token) : Lexer :=
  { l with tokens := (l.tokens.toList.take place ++ ts ++ l.tokens.toList.drop place).toArray }

/-- The column of the innermost block collection, or -1. -/
def indent (l : Lexer) : Int :=
  match l.indents with
  | [] => -1
  | n :: _ => n

/-- Gives up the place of a key; a required key must not be given up. -/
def dropPlace? (l : Lexer) : Option Lexer :=
  if l.place.any (·.required) then none else some { l with place := none }

/-- A key is written on one line and takes no more than 1024 bytes. -/
def isStale (p : Position) (k : KeyPlace) : Bool :=
  k.position.line < p.line || k.position.index + 1024 < p.index

/-- Gives up the places, on any level, at which a key would have come too late. -/
def dropStale? (l : Lexer) (p : Position) : Option Lexer :=
  let stale := (l.place :: l.outer).filterMap (·.filter (isStale p))
  if stale.any (·.required) then none
  else
    let keep (k : Option KeyPlace) := k.filter (!isStale p ·)
    some { l with place := keep l.place, outer := l.outer.map keep }

/-- Remembers that a key may begin here. -/
def markPlace? (l : Lexer) (p : Position) : Option Lexer :=
  let required := !l.inFlow && l.indent == p.column
  if l.keyAllowed then
    l.dropPlace?.map fun l => { l with place := some ⟨required, l.tokens.size, p⟩ }
  else some l

/-- Ends the block collections that stand deeper than a column. -/
def closeTo (l : Lexer) (column : Int) : Lexer :=
  if l.inFlow then l
  else
    let ended := l.indents.takeWhile fun n : Nat => column < (n : Int)
    { l with
      indents := l.indents.drop ended.length
      tokens := l.tokens ++ (List.replicate ended.length Token.blockEnd).toArray }

/-- Whether a collection at a column is one more block collection. -/
def opens (l : Lexer) (column : Nat) : Bool := !l.inFlow && l.indent < column

/-- Begins a block collection at a column that is deeper than those of the open ones. -/
def openBlock (l : Lexer) (column : Nat) (t : Token) : Lexer :=
  if l.opens column then { l.push t with indents := column :: l.indents } else l

/-- A key has begun at a place that was remembered. -/
def placeKey (l : Lexer) (k : KeyPlace) : Lexer :=
  let column := k.position.column
  if l.opens column then
    { l.insertAt k.token [.blockMappingStart, .key] with indents := column :: l.indents }
  else l.insertAt k.token [.key]

/-- An opening bracket or brace, at which a key may begin. -/
def enterFlow? (l : Lexer) (p : Position) (t : Token) : Option Lexer :=
  (l.markPlace? p).map fun l =>
    { l.push t with outer := l.place :: l.outer, place := none, keyAllowed := true }

/-- A closing bracket or brace, which uncovers the key place of the level outside. -/
def leaveFlow? (l : Lexer) (t : Token) : Option Lexer :=
  l.dropPlace?.map fun l =>
    match l.outer with
    | [] => { l.push t with keyAllowed := false }
    | k :: outer => { l.push t with place := k, outer, keyAllowed := false }

/-- The mark of the start or end of a document, which ends every block. -/
def documentMark? (l : Lexer) (t : Token) : Option Lexer :=
  (l.closeTo (-1)).dropPlace?.map fun l => { l.push t with keyAllowed := false }

/-- A comma. -/
def flowEntry? (l : Lexer) : Option Lexer :=
  l.dropPlace?.map fun l => { l.push .flowEntry with keyAllowed := true }

/-- A dash that begins an item. -/
def blockEntry? (l : Lexer) (p : Position) : Option Lexer :=
  if !l.inFlow && !l.keyAllowed then none
  else (l.openBlock p.column .blockSequenceStart).dropPlace?.map fun l =>
    { l.push .blockEntry with keyAllowed := true }

/-- A question mark that begins a key. -/
def explicitKey? (l : Lexer) (p : Position) : Option Lexer :=
  if !l.inFlow && !l.keyAllowed then none
  else (l.openBlock p.column .blockMappingStart).dropPlace?.map fun l =>
    { l.push .key with keyAllowed := !l.inFlow }

/-- A colon that begins a value; the key before it may turn out to have begun a mapping. -/
def value? (l : Lexer) (p : Position) : Option Lexer :=
  match l.place with
  | some k =>
    let l := { l with place := none }
    some { (l.placeKey k).push .value with keyAllowed := false }
  | none =>
    if !l.inFlow && !l.keyAllowed then none
    else some { (l.openBlock p.column .blockMappingStart).push .value with keyAllowed := !l.inFlow }

/-- The end of the text. -/
def finish? (l : Lexer) : Option (List Token) :=
  (l.closeTo (-1)).dropPlace?.map (·.tokens.toList)

end Lexer

/-- Skips white space and comments. A line break allows a key in block style, where a tab is no
white space if a key may begin. A line may begin with a byte order mark. -/
def skipBlanks (flow keyAllowed comment : Bool) (p : Position) :
    List Char → List Char × Position × Bool
  | [] => ([], p, keyAllowed)
  | c :: cs =>
    if c == '\r' && cs.head? == some '\n' then skipBlanks flow keyAllowed comment (p.next c) cs
    else if isBreak c then skipBlanks flow (keyAllowed || !flow) false p.nextLine cs
    else if comment || c == ' ' || (c == '\t' && (flow || !keyAllowed)) ||
        (c == '\uFEFF' && p.column == 0) then
      skipBlanks flow keyAllowed comment (p.next c) cs
    else if c == '#' then skipBlanks flow keyAllowed true (p.next c) cs
    else (c :: cs, p, keyAllowed)

/-- Whether a plain scalar may begin with a character before the given text. -/
def startsPlain (flow : Bool) (c : Char) (cs : List Char) : Bool :=
  if c == '-' then !(cs.head?.any isSpaceOrTab)
  else if c == '?' || c == ':' then !flow && !endsWord cs
  else c != '\t' && !isIndicator c

namespace Lexer

/-- A scalar, and whether it is a plain one. -/
def scalar (l : Lexer) (plain : Bool) (keyAllowed : Bool) (r : ScalarResult) :
    Lexer × List Char × Position :=
  ({ l.push (.scalar plain (String.ofList r.text)) with keyAllowed }, r.rest, r.position)

/-- The token that begins with a character. -/
def next? (l : Lexer) (p : Position) (c : Char) (cs : List Char) :
    Option (Lexer × List Char × Position) := do
  let l ← l.dropStale? p
  let l := l.closeTo p.column
  if p.column == 0 && c == '%' then none
  else if atDocumentMark p.column (c :: cs) then
    let l ← l.documentMark? (if c == '-' then .documentStart else .documentEnd)
    return (l, cs.drop 2, p.skip 3)
  else
    let one (l : Lexer) : Lexer × List Char × Position := (l, cs, p.next c)
    if c == '[' then return one (← l.enterFlow? p .flowSequenceStart)
    else if c == '{' then return one (← l.enterFlow? p .flowMappingStart)
    else if c == ']' then return one (← l.leaveFlow? .flowSequenceEnd)
    else if c == '}' then return one (← l.leaveFlow? .flowMappingEnd)
    else if c == ',' then return one (← l.flowEntry?)
    else if c == '-' && endsWord cs then return one (← l.blockEntry? p)
    else if c == '?' && (l.inFlow || endsWord cs) then return one (← l.explicitKey? p)
    else if c == ':' && (l.inFlow || endsWord cs) then return one (← l.value? p)
    else if (c == '|' || c == '>') && !l.inFlow then
      let l ← l.dropPlace?
      return l.scalar false true (← readBlock (c == '>') l.indent (p.next c) cs)
    else if c == '\'' || c == '"' then
      let l ← l.markPlace? p
      return l.scalar false false (← readQuoted (c == '\'') .plain [] {} (p.next c) cs)
    else if startsPlain l.inFlow c cs then
      let l ← l.markPlace? p
      let r ← readPlain l.inFlow (l.indent + 1).toNat [] {} p (c :: cs)
      return l.scalar true r.afterBreak r
    else none

/-- The tokens of the rest of a text. Each token takes some of the text, so the text comes to its
end. -/
def run? (l : Lexer) (p : Position) (cs : List Char) : Option (List Token) :=
  match skipBlanks l.inFlow l.keyAllowed false p cs with
  | ([], p, keyAllowed) => ({ l with keyAllowed }.dropStale? p).bind finish?
  | (c :: rest, p, keyAllowed) =>
    match { l with keyAllowed }.next? p c rest with
    | none => none
    | some (l, rest, p) => if _h : rest.length < cs.length then l.run? p rest else none
  termination_by cs.length

end Lexer

/-- The tokens of a text. -/
def tokens? (s : String) : Option (List Token) :=
  if s.toList.all isAllowed then Lexer.run? {} {} s.toList else none

end StreamedUi.Yaml
