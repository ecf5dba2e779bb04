import StreamedUi.Catalog.Source

/-! The components whose source the project generator has. Elements name their kind by any string;
only one that is exactly a component's name gets a source. -/

namespace StreamedUi

/-- A kind of element whose source is at hand. -/
inductive Component
  | badge
  | button
  | card
  | checkbox
  | divider
  | form
  | grid
  | heading
  | input
  | radio
  | rating
  | select
  | stack
  | switch
  | text
  | textarea
  deriving DecidableEq, Repr

namespace Component

/-- By name. -/
def all : List Component :=
  [.badge, .button, .card, .checkbox, .divider, .form, .grid, .heading, .input, .radio, .rating,
    .select, .stack, .switch, .text, .textarea]

/-- The name that elements give as their kind and that the source exports. -/
def name : Component → String
  | .badge => "Badge"
  | .button => "Button"
  | .card => "Card"
  | .checkbox => "Checkbox"
  | .divider => "Divider"
  | .form => "Form"
  | .grid => "Grid"
  | .heading => "Heading"
  | .input => "Input"
  | .radio => "Radio"
  | .rating => "Rating"
  | .select => "Select"
  | .stack => "Stack"
  | .switch => "Switch"
  | .text => "Text"
  | .textarea => "Textarea"

/-- The component that a kind names, letter for letter. -/
def ofName? (s : String) : Option Component := all.find? (·.name == s)

/-- The file name without its extension. -/
def fileStem (c : Component) : String := String.ofList (c.name.toList.map Char.toLower)

/-- The path of the component's file from the project's root. -/
def sourcePath (c : Component) : String := "components/ui/" ++ c.fileStem ++ ".tsx"

def sourceLines : Component → List String
  | .badge => Catalog.Source.badge
  | .button => Catalog.Source.button
  | .card => Catalog.Source.card
  | .checkbox => Catalog.Source.checkbox
  | .divider => Catalog.Source.divider
  | .form => Catalog.Source.form
  | .grid => Catalog.Source.grid
  | .heading => Catalog.Source.heading
  | .input => Catalog.Source.input
  | .radio => Catalog.Source.radio
  | .rating => Catalog.Source.rating
  | .select => Catalog.Source.select
  | .stack => Catalog.Source.stack
  | .switch => Catalog.Source.switch
  | .text => Catalog.Source.text
  | .textarea => Catalog.Source.textarea

/-- The text of the file. -/
def source (c : Component) : String := "\n".intercalate c.sourceLines

end Component

end StreamedUi
