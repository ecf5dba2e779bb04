import StreamedUi.Json.Raw

/-! Reading JSON text, one character at a time. A reader knows the arrays and objects that it is
inside of and what may come next, so reading a text is a fold over its characters and a reader that
has stopped in the middle of a text has no answer yet. -/

namespace StreamedUi.Json

/-- White space between the parts of a text. -/
def isSpace (c : Char) : Bool := c == ' ' || c == '\t' || c == '\n' || c == '\r'

def isDigit (c : Char) : Bool := '0' ≤ c && c ≤ '9'

/-- The value of a decimal digit. -/
def digitValue (c : Char) : Nat := c.toNat - '0'.toNat

/-- The value of a hexadecimal digit of either case. -/
def hexValue? (c : Char) : Option Nat :=
  if isDigit c then some (digitValue c)
  else if 'a' ≤ c && c ≤ 'f' then some (c.toNat - 'a'.toNat + 10)
  else if 'A' ≤ c && c ≤ 'F' then some (c.toNat - 'A'.toNat + 10)
  else none

/-! ## Strings -/

/-- How far an escape inside a string has come. -/
inductive Escape
  | none
  | opened
  | hex (count value : Nat)
  deriving DecidableEq, Repr

/-- The inside of a string, its pieces last first. -/
structure StringReader where
  pieces : List Piece := []
  escape : Escape := .none
  deriving DecidableEq, Repr

/-- What a character of a string leads to: the string goes on, or its closing quote has come. -/
inductive StringStep
  | more (r : StringReader)
  | closed (pieces : List Piece)

namespace StringReader

/-- Takes one piece, after which no escape is open. -/
def add (r : StringReader) (p : Piece) : StringStep := .more ⟨p :: r.pieces, .none⟩

/-- One character. Control characters may only be written as escapes. -/
def step (r : StringReader) (c : Char) : Option StringStep :=
  match r.escape with
  | .none =>
    if c = '"' then some (.closed r.pieces.reverse)
    else if c = '\\' then some (.more { r with escape := .opened })
    else if c < ' ' then none
    else some (r.add (.char c))
  | .opened =>
    match c with
    | '"' | '\\' | '/' => some (r.add (.char c))
    | 'b' => some (r.add (.char '\x08'))
    | 'f' => some (r.add (.char '\x0c'))
    | 'n' => some (r.add (.char '\n'))
    | 'r' => some (r.add (.char '\r'))
    | 't' => some (r.add (.char '\t'))
    | 'u' => some (.more { r with escape := .hex 0 0 })
    | _ => none
  | .hex count value =>
    (hexValue? c).map fun d =>
      if count = 3 then r.add (.unit (16 * value + d))
      else .more { r with escape := .hex (count + 1) (16 * value + d) }

end StringReader

/-! ## Numbers -/

/-- The part of a number that was read last. -/
inductive NumeralPart
  | sign
  | zero
  | whole
  | point
  | places
  | powerMark
  | powerSign
  | power
  deriving DecidableEq, Repr

/-- The number so far, and the part that it has come to. -/
structure NumeralReader where
  numeral : Numeral
  part : NumeralPart
  deriving DecidableEq, Repr

namespace NumeralReader

/-- Whether the number may end here. -/
def isComplete (r : NumeralReader) : Bool :=
  match r.part with
  | .zero | .whole | .places | .power => true
  | _ => false

/-- The first character of a number. -/
def start? (c : Char) : Option NumeralReader :=
  if c = '-' then some ⟨{ negative := true }, .sign⟩
  else if c = '0' then some ⟨{}, .zero⟩
  else if isDigit c then some ⟨{ coefficient := digitValue c }, .whole⟩
  else none

/-- One digit more before the point. -/
def addDigit (n : Numeral) (c : Char) : Numeral :=
  { n with coefficient := 10 * n.coefficient + digitValue c }

/-- One digit more behind the point. -/
def addPlace (n : Numeral) (c : Char) : Numeral := { addDigit n c with places := n.places + 1 }

/-- One digit more of the power of ten. -/
def addPower (n : Numeral) (c : Char) : Numeral :=
  match n.power with
  | none => { n with power := some (false, digitValue c) }
  | some (negative, e) => { n with power := some (negative, 10 * e + digitValue c) }

/-- One character more, if the number goes on with it. -/
def step (r : NumeralReader) (c : Char) : Option NumeralReader :=
  let n := r.numeral
  let mark := c = 'e' || c = 'E'
  match r.part with
  | .sign =>
    if c = '0' then some ⟨n, .zero⟩ else if isDigit c then some ⟨addDigit n c, .whole⟩ else none
  | .zero => if c = '.' then some ⟨n, .point⟩ else if mark then some ⟨n, .powerMark⟩ else none
  | .whole =>
    if isDigit c then some ⟨addDigit n c, .whole⟩
    else if c = '.' then some ⟨n, .point⟩
    else if mark then some ⟨n, .powerMark⟩
    else none
  | .point => if isDigit c then some ⟨addPlace n c, .places⟩ else none
  | .places =>
    if isDigit c then some ⟨addPlace n c, .places⟩
    else if mark then some ⟨n, .powerMark⟩
    else none
  | .powerMark =>
    if c = '+' then some ⟨{ n with power := some (false, 0) }, .powerSign⟩
    else if c = '-' then some ⟨{ n with power := some (true, 0) }, .powerSign⟩
    else if isDigit c then some ⟨addPower n c, .power⟩
    else none
  | .powerSign | .power => if isDigit c then some ⟨addPower n c, .power⟩ else none

end NumeralReader

/-! ## Texts -/

/-- An array or object around the value that is being read, what came before it last first. -/
inductive Frame
  | array (items : List Raw)
  | object (members : List (List Piece × Raw)) (name : List Piece)
  deriving Repr

/-- What has just been read, and so what may come next. -/
inductive Mode
  /-- A value has to come. -/
  | value
  /-- An array has been opened. -/
  | firstItem
  /-- An object has been opened. -/
  | firstName
  /-- A name has to come. -/
  | name (members : List (List Piece × Raw))
  | inName (members : List (List Piece × Raw)) (r : StringReader)
  /-- A colon has to come. -/
  | colon (members : List (List Piece × Raw)) (name : List Piece)
  | inString (r : StringReader)
  | inNumeral (r : NumeralReader)
  /-- The rest of a keyword has to come. -/
  | inKeyword (rest : List Char) (r : Raw)
  | item (items : List Raw)
  | member (members : List (List Piece × Raw))
  | done (r : Raw)
  deriving Repr

/-- A reader of JSON text: the frames that it is inside of, the innermost first. -/
structure Reader where
  frames : List Frame := []
  mode : Mode := .value
  deriving Repr

namespace Reader

/-- Before the first character. -/
def start : Reader := {}

/-- A value has been read in full. -/
def settle (frames : List Frame) (r : Raw) : Reader :=
  match frames with
  | [] => ⟨[], .done r⟩
  | .array items :: frames => ⟨frames, .item (r :: items)⟩
  | .object members name :: frames => ⟨frames, .member ((name, r) :: members)⟩

/-- The first character of a value. -/
def stepValue (frames : List Frame) (c : Char) : Option Reader :=
  if isSpace c then some ⟨frames, .value⟩
  else match c with
    | '"' => some ⟨frames, .inString {}⟩
    | '[' => some ⟨frames, .firstItem⟩
    | '{' => some ⟨frames, .firstName⟩
    | 't' => some ⟨frames, .inKeyword ['r', 'u', 'e'] (.bool true)⟩
    | 'f' => some ⟨frames, .inKeyword ['a', 'l', 's', 'e'] (.bool false)⟩
    | 'n' => some ⟨frames, .inKeyword ['u', 'l', 'l'] .null⟩
    | _ => (NumeralReader.start? c).map fun r => ⟨frames, .inNumeral r⟩

/-- One character anywhere but inside a number. -/
def stepOutside (r : Reader) (c : Char) : Option Reader :=
  let keep : Option Reader := if isSpace c then some r else none
  match r.mode with
  | .value => stepValue r.frames c
  | .firstItem =>
    if isSpace c then some r
    else if c = ']' then some (settle r.frames (.array []))
    else stepValue (.array [] :: r.frames) c
  | .firstName =>
    if c = '}' then some (settle r.frames (.object []))
    else if c = '"' then some ⟨r.frames, .inName [] {}⟩
    else keep
  | .name members => if c = '"' then some ⟨r.frames, .inName members {}⟩ else keep
  | .inName members s =>
    (s.step c).map fun
      | .more s => ⟨r.frames, .inName members s⟩
      | .closed pieces => ⟨r.frames, .colon members pieces⟩
  | .colon members name =>
    if c = ':' then some ⟨.object members name :: r.frames, .value⟩ else keep
  | .inString s =>
    (s.step c).map fun
      | .more s => ⟨r.frames, .inString s⟩
      | .closed pieces => settle r.frames (.string pieces)
  | .inKeyword rest v =>
    match rest with
    | [] => none
    | [d] => if c = d then some (settle r.frames v) else none
    | d :: rest => if c = d then some ⟨r.frames, .inKeyword rest v⟩ else none
  | .item items =>
    if c = ',' then some ⟨.array items :: r.frames, .value⟩
    else if c = ']' then some (settle r.frames (.array items.reverse))
    else keep
  | .member members =>
    if c = ',' then some ⟨r.frames, .name members⟩
    else if c = '}' then some (settle r.frames (.object members.reverse))
    else keep
  | .done _ => keep
  | .inNumeral _ => none

/-- One character. A number ends before the first character that it cannot go on with. -/
def step (r : Reader) (c : Char) : Option Reader :=
  match r.mode with
  | .inNumeral n =>
    match n.step c with
    | some n => some ⟨r.frames, .inNumeral n⟩
    | none => if n.isComplete then (settle r.frames (.numeral n.numeral)).stepOutside c else none
  | _ => r.stepOutside c

/-- The characters one after another, up to the first that cannot stand where it does. -/
def run (r : Reader) (cs : List Char) : Option Reader := cs.foldlM step r

/-- What has been read if the text ends here. -/
def result? (r : Reader) : Option Raw :=
  match r.frames, r.mode with
  | [], .done v => some v
  | [], .inNumeral n => if n.isComplete then some (.numeral n.numeral) else none
  | _, _ => none

end Reader

namespace Raw

/-- What a whole text says, if it is one value. -/
def read? (cs : List Char) : Option Raw := (Reader.start.run cs).bind Reader.result?

/-- The same of a string. -/
def ofText? (s : String) : Option Raw := read? s.toList

end Raw

/-- The value of a text. -/
def Value.ofText? (s : String) : Option Value := (Raw.ofText? s).bind (Raw.value? Raw.maxLevels)

end StreamedUi.Json
