import StreamedUi.Text.Blank
import StreamedUi.Tree.Basic

/-! Patch records. A line holds one JSON record: `set` of `/root` names the root, `add` under
`/elements/` puts an element. Every other line is rejected for one of five causes. -/

namespace StreamedUi
open Json

/-- What a record does to a tree. -/
inductive Operation
  | setRoot (key : String)
  | put (key : String) (element : Element)
  deriving Repr

/-- A record as it comes, whatever it asks for. -/
structure Record where
  op : String
  path : String
  value : Value
  deriving Repr

namespace Record

/-- The record of a text. Its operation and its path have to be there, the value may be missing. -/
def ofRaw? (r : Raw) : Option Record := do
  let fields ← r.fields? ["op", "path", "value"]
  let fields ← Raw.fieldValues? (Raw.maxLevels - 1) fields
  let op ← (fields.lookup "op").bind Value.string?
  let path ← (fields.lookup "path").bind Value.string?
  return ⟨op, path, (fields.lookup "value").getD .null⟩

/-- The record of a line, around which there may be white space. -/
def ofLine? (line : String) : Option Record :=
  (Raw.read? (Text.trimChars line.toList)).bind ofRaw?

end Record

/-! ## Keys in paths -/

/-- Replaces each pair of characters `a`, `b` by `c`, from left to right. -/
def replacePair (a b c : Char) : List Char → List Char
  | x :: y :: rest =>
    if x = a ∧ y = b then c :: replacePair a b c rest else x :: replacePair a b c (y :: rest)
  | cs => cs

/-- The key that a path segment stands for: `~1` is a slash and `~0` a tilde. -/
def decodeSegment (segment : List Char) : List Char :=
  replacePair '~' '0' '~' (replacePair '~' '1' '/' segment)

/-- A segment names a key if it is not empty and no further path. -/
def keyOfSegment? (segment : List Char) : Option String :=
  if segment.isEmpty || segment.contains '/' then none
  else some (String.ofList (decodeSegment segment))

namespace Operation

/-- Why a line is no operation. -/
inductive Rejection
  | unreadable
  | rootNotString (v : Value)
  | noKey (segment : String)
  | notElement (key : String) (v : Value)
  | unsupported (op path : String)
  deriving Repr

/-- What comes before the key in the path of an element. -/
def elementsPath : List Char := "/elements/".toList

/-- Puts an element under a key, which takes the place of its own. -/
def put? (key : String) (v : Value) : Except Rejection Operation :=
  match Element.ofValue? v with
  | some e => .ok (.put key { e with key := key })
  | none => .error (.notElement key v)

/-- The operation that a record asks for. -/
def ofRecord (r : Record) : Except Rejection Operation :=
  if r.op = "set" ∧ r.path = "/root" then
    match r.value with
    | .string key => .ok (.setRoot key)
    | v => .error (.rootNotString v)
  else
    match r.op, elementsPath.isPrefixOf? r.path.toList with
    | "add", some segment =>
      match keyOfSegment? segment with
      | some key => put? key r.value
      | none => .error (.noKey (String.ofList segment))
    | _, _ => .error (.unsupported r.op r.path)

/-- The operation of a line. -/
def parse (line : String) : Except Rejection Operation :=
  match Record.ofLine? line with
  | some r => ofRecord r
  | none => .error .unreadable

/-- The operation of a line, without the cause of a rejection. -/
def ofLine? (line : String) : Option Operation := (parse line).toOption

/-- What is reported of a rejected line. -/
def Rejection.notice : Rejection → Notice
  | .unreadable => .debug "Discarding unparsable patch line"
  | .rootNotString v => .debug ("Discarding set /root with non-string value " ++ v.compact)
  | .noKey segment => .debug ("Discarding element path segment '" ++ segment ++ "'")
  | .notElement key _ => .debug ("Discarding malformed element '" ++ key ++ "'")
  | .unsupported op path => .debug ("Discarding unsupported operation " ++ op ++ " " ++ path)

/-- What reading the element of a record reports. -/
def elementNotices (r : Record) : List Notice :=
  match ofRecord r with
  | .ok (.put _ _) | .error (.notElement _ _) => Element.notices r.value
  | _ => []

/-- What reading a line reports. -/
def notices (line : String) : List Notice :=
  (match Record.ofLine? line with
    | some r => elementNotices r
    | none => []) ++
  match parse line with
  | .ok _ => []
  | .error e => [e.notice]

end Operation

end StreamedUi
