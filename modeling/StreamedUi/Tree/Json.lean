import StreamedUi.Tree.Basic

/-! Trees as JSON: `{"root": …, "elements": {…}}`. Reading a tree gives every element the key that
it stands under. -/

namespace StreamedUi
open Json

namespace Tree

/-- A tree as an object; its version is not kept, and a missing root is left out. -/
def toValue (t : Tree) : Value :=
  .object <|
    (match t.root with
      | some key => [("root", .string key)]
      | none => []) ++
    [("elements", .object (t.elements.toList.map fun (key, e) => (key, e.toValue)))]

/-- A tree on one line. -/
def toJson (t : Tree) : String := t.toValue.compact

/-- A tree over several lines. -/
def toPrettyJson (t : Tree) : String := t.toValue.pretty

/-- The key of the root: a string, null, or missing. -/
def rootField? : Option Raw → Option (Option String)
  | none => some none
  | some .null => some none
  | some (.string pieces) => (Piece.text? pieces).map some
  | some _ => none

/-- The elements under their keys, each of which may nest `levels` arrays and objects. -/
def entries? (levels : Nat) : Option Raw → Option (List (String × Element))
  | none => some []
  | some (.object members) => do
    let members ← Raw.names? members
    members.mapM fun (key, r) => (Element.ofRaw? levels r).map fun e => (key, { e with key := key })
  | some _ => none

/-- The tree of a text. Of elements with one key the last counts, and the version is 0. -/
def ofRaw? (r : Raw) : Option Tree := do
  let fields ← r.fields? ["root", "elements"]
  let root ← rootField? (fields.lookup "root")
  let entries ← entries? (Raw.maxLevels - 2) (fields.lookup "elements")
  return { root, elements := OrderedMap.ofList entries }

/-- The tree of a string. -/
def ofJson? (s : String) : Option Tree := (Raw.ofText? s).bind ofRaw?

/-- What reading a tree that can be read reports. -/
def jsonNotices (s : String) : List Notice :=
  let notices? : Option (List Notice) := do
    let r ← Raw.ofText? s
    let fields ← r.fields? ["root", "elements"]
    let .object members ← fields.lookup "elements" | none
    return members.flatMap fun (_, r) =>
      (do
        let fields ← r.fields? Element.fieldNames
        let v ← (← fields.lookup "visible").value? Raw.maxLevels
        return Element.visibleNotices v : Option (List Notice)).getD []
  notices?.getD []

end Tree

end StreamedUi
