import StreamedUi.OrderedMap
import StreamedUi.Tree.Element

/-! UI trees: elements under their keys, of which one is the root. Elements refer to their children
by key, so a child may be missing and the elements may form any graph. -/

namespace StreamedUi

/-- Elements under their keys, and the key of the root. -/
structure Tree where
  root : Option String := none
  elements : OrderedMap Element := ∅
  /-- How many patches have been applied since the tree was made. -/
  version : Nat := 0

namespace Tree

/-- No root and no elements. -/
def empty : Tree := {}

/-- Whether there is neither a root nor an element. -/
def isEmpty (t : Tree) : Bool := t.root.isNone && t.elements.isEmpty

/-- The element under a key. -/
def get? (t : Tree) (key : String) : Option Element := t.elements.get? key

/-- The element that the root names, if it is there. -/
def rootElement? (t : Tree) : Option Element := t.root.bind t.get?

/-- Puts an element under its own key. -/
def insert (t : Tree) (e : Element) : Tree := { t with elements := t.elements.insert e.key e }

/-- A copy that starts counting patches anew. -/
def fork (t : Tree) : Tree := { t with version := 0 }

end Tree

end StreamedUi
