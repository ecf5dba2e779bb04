import StreamedUi.Markup.Attribute
import StreamedUi.Walk

/-! The markup of a tree, one tag to a line. An element without child entries is one self-closing
tag; any other stands around its children, even if none of them is there. The printer goes through
the visits of the walk and closes open tags when a visit is no deeper than they are. -/

namespace StreamedUi.Markup

/-- The depth of the root element inside the page. -/
def baseDepth : Nat := 3

/-- The spaces before a tag. Their count is a product of machine words, of which the low 64 bits are
kept. -/
def padding (o : Options) (depth : Nat) : String :=
  String.ofList (List.replicate (o.indent * (depth + baseDepth) % Nat.pow 2 64) ' ')

/-- The name of an element's tag, and its attributes. -/
def tag (o : Options) (e : Element) : String :=
  let attrs := attributes o.quotes e.props
  e.kind ++ String.ofList (if attrs.isEmpty then [] else ' ' :: attrs)

/-- The line that begins an element with child entries. -/
def openingLine (o : Options) (depth : Nat) (e : Element) : String :=
  padding o depth ++ "<" ++ tag o e ++ ">"

/-- The only line of an element without child entries. -/
def selfClosingLine (o : Options) (depth : Nat) (e : Element) : String :=
  padding o depth ++ "<" ++ tag o e ++ " />"

/-- A tag that is open. -/
structure OpenTag where
  depth : Nat
  kind : String
  deriving DecidableEq, Repr

/-- The line that ends an element, at the depth where it began. -/
def OpenTag.closingLine (o : Options) (t : OpenTag) : String :=
  padding o t.depth ++ "</" ++ t.kind ++ ">"

/-- The tags that are open, innermost first, and the lines so far, last first. -/
structure Printer where
  openTags : List OpenTag := []
  lines : List String := []

namespace Printer

/-- The lines once the given tags are closed, in their order. -/
def close (o : Options) (p : Printer) (tags : List OpenTag) : List String :=
  tags.foldl (fun lines t => t.closingLine o :: lines) p.lines

/-- Closes the tags that the visit is no deeper than, and prints the visit. -/
def visit (o : Options) (p : Printer) (v : Visit) : Printer :=
  let lines := p.close o (p.openTags.takeWhile (v.depth ≤ ·.depth))
  let openTags := p.openTags.dropWhile (v.depth ≤ ·.depth)
  if v.element.hasChildren then
    ⟨⟨v.depth, v.element.kind⟩ :: openTags, openingLine o v.depth v.element :: lines⟩
  else ⟨openTags, selfClosingLine o v.depth v.element :: lines⟩

/-- All lines, with every open tag closed. -/
def finish (o : Options) (p : Printer) : List String := (p.close o p.openTags).reverse

end Printer

/-- The lines of the elements that the walk from the root meets. -/
def bodyLines (o : Options) (t : Tree) : List String :=
  ((t.walk none).visits.foldl (Printer.visit o) {}).finish o

/-- The markup of the elements alone. -/
def body (o : Options) (t : Tree) : String := "\n".intercalate (bodyLines o t)

end StreamedUi.Markup
