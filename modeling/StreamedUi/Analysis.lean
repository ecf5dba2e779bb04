import Std.Data.TreeSet
import StreamedUi.Condition.Paths
import StreamedUi.Json.Writer
import StreamedUi.Walk

/-! What a tree uses, as far as the walk from its root meets it: the kinds of its elements, the data
paths that they are bound to or shown by, and the actions that they trigger. -/

namespace StreamedUi
open Json

/-- Strings without repetition, in the order of their code points. -/
abbrev Names := Std.TreeSet String

namespace Element

/-- The data paths of one property: its text, if its name ends in `Path`, or its `path` member. -/
def propPaths (name : String) (v : Value) : List String :=
  (if "Path".toList.isSuffixOf name.toList then v.string?.toList else []) ++
    (v.stringMember? "path").toList

/-- What the properties are bound to, then what the visibility condition mentions. -/
def dataPaths (e : Element) : List String :=
  e.props.flatMap (fun (name, v) => propPaths name v) ++ (e.visible.map Condition.paths).getD []

/-- The actions of one property: what follows `action:` in its text, or its `name` member. -/
def propActions (v : Value) : List String :=
  ((v.string?.bind fun s => "action:".toList.isPrefixOf? s.toList).map String.ofList).toList ++
    (v.stringMember? "name").toList

/-- The actions that the properties trigger. The text of a property named `action` is one whatever
it begins with. -/
def actions (e : Element) : List String :=
  e.props.flatMap (fun (_, v) => propActions v) ++
    ((e.props.lookup "action").bind Value.string?).toList

end Element

/-- What a tree uses. -/
structure Analysis where
  components : Names
  dataPaths : Names
  actions : Names

namespace Tree

/-- The elements that the walk from the root meets. -/
def shown (t : Tree) : List Element := (t.walk none).visits.map Visit.element

/-- The kinds of the elements that are shown, whether or not the catalog has them. -/
def components (t : Tree) : Names := .ofList (t.shown.map Element.kind)

/-- The data paths of the elements that are shown. -/
def dataPaths (t : Tree) : Names := .ofList (t.shown.flatMap Element.dataPaths)

/-- The actions of the elements that are shown. -/
def actions (t : Tree) : Names := .ofList (t.shown.flatMap Element.actions)

/-- The analysis of a tree; a tree without a root element uses nothing. -/
def analyze (t : Tree) : Analysis := ⟨t.components, t.dataPaths, t.actions⟩

end Tree

namespace Analysis

def namesValue (names : Names) : Value := .array (names.toList.map .string)

/-- An analysis as an object of three lists, each in the order of its names. -/
def toValue (a : Analysis) : Value :=
  .object [("components", namesValue a.components), ("data_paths", namesValue a.dataPaths),
    ("actions", namesValue a.actions)]

end Analysis

end StreamedUi
