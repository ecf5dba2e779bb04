import StreamedUi.Condition.Parser
import StreamedUi.Json.Reader

/-! Elements of a UI tree: a kind, properties, the keys of the children and a visibility condition.
An element can be read from a JSON value or straight from a text; a text may not repeat a field. -/

namespace StreamedUi
open Json

/-- One element of a tree; `kind` is written as the field `type`. -/
structure Element where
  key : String
  kind : String
  props : Members := []
  /-- The keys of the children; no list and an empty list are told apart. -/
  children : Option (List String) := none
  visible : Option Condition := none
  deriving Repr

namespace Element

/-- The child entries, in order and as often as they come. -/
def childKeys (e : Element) : List String := e.children.getD []

/-- Whether there are child entries, be there elements under them or not. -/
def hasChildren (e : Element) : Bool := !e.childKeys.isEmpty

/-- The element with one property set. -/
def withProp (e : Element) (name : String) (v : Value) : Element :=
  { e with props := e.props.set name v }

/-- The element with these child entries. -/
def withChildren (e : Element) (keys : List String) : Element := { e with children := some keys }

/-- The element with this condition. -/
def withVisible (e : Element) (c : Condition) : Element := { e with visible := some c }

/-- The element as a record. Children and condition are left out if they are not given. -/
def toValue (e : Element) : Value :=
  .object <|
    [("key", .string e.key), ("type", .string e.kind), ("props", .object e.props)] ++
    (match e.children with
      | some keys => [("children", .array (keys.map .string))]
      | none => []) ++
    (match e.visible with
      | some c => [("visible", c.toValue)]
      | none => [])

/-- The fields of an element, in the order that an array gives them in. -/
def fieldNames : List String := ["key", "type", "props", "children", "visible"]

/-! ## Fields -/

/-- The key, which may be missing. -/
def keyField? : Option Value → Option String
  | none => some ""
  | some v => v.string?

/-- The properties: an object, or missing. -/
def propsField? : Option Value → Option Members
  | none => some []
  | some (.object ms) => some ms
  | some _ => none

/-- The child entries: a list of strings, null, or missing. -/
def childrenField? : Option Value → Option (Option (List String))
  | none => some none
  | some .null => some none
  | some (.array items) => (items.mapM Value.string?).map some
  | some _ => none

/-- The condition, as which every value but null is taken. -/
def visibleField : Option Value → Option Condition
  | none => none
  | some .null => none
  | some v => some (Condition.ofValue v)

/-- The element of a record's fields. Only the type is required. -/
def ofFields? (fields : Members) : Option Element := do
  let key ← keyField? (fields.lookup "key")
  let kind ← (fields.lookup "type").bind Value.string?
  let props ← propsField? (fields.lookup "props")
  let children ← childrenField? (fields.lookup "children")
  return ⟨key, kind, props, children, visibleField (fields.lookup "visible")⟩

/-- The element of a value. -/
def ofValue? (v : Value) : Option Element := (v.fields? fieldNames).bind ofFields?

/-- The element of a text that may nest `levels` arrays and objects, itself included. -/
def ofRaw? (levels : Nat) (r : Raw) : Option Element := do
  let fields ← r.fields? fieldNames
  let fields ← Raw.fieldValues? (levels - 1) fields
  ofFields? fields

/-- The element of a text that holds nothing else. -/
def ofText? (s : String) : Option Element := (Raw.ofText? s).bind (ofRaw? Raw.maxLevels)

/-! ## Notices -/

/-- Whether a field by itself is in order. -/
def acceptsField (name : String) (v : Value) : Bool :=
  if name = "key" || name = "type" then v.string?.isSome
  else if name = "props" then (propsField? (some v)).isSome
  else if name = "children" then (childrenField? (some v)).isSome
  else true

/-- What reading the condition reports. -/
def visibleNotices : Value → List Notice
  | .null => []
  | v => Condition.notices v

/-- What reading the fields one after another reports, up to the first that is not in order. -/
def fieldNotices : Members → List Notice
  | [] => []
  | (name, v) :: rest =>
    if acceptsField name v then
      (if name = "visible" then visibleNotices v else []) ++ fieldNotices rest
    else []

/-- What reading an element from a value reports. Items of an array beyond the last field are
noticed only after the fields. -/
def notices : Value → List Notice
  | .object ms => fieldNotices ms
  | .array items => fieldNotices (fieldNames.zip items)
  | _ => []

end Element

end StreamedUi
