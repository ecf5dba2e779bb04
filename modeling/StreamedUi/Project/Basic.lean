import StreamedUi.Analysis
import StreamedUi.Catalog.Basic
import StreamedUi.Markup.Page
import StreamedUi.Project.Source

/-! The project generated from a tree: files that are the same for every tree, the source of each
used component that the catalog has, an index of them and the page. A tree without a root has no
project. -/

namespace StreamedUi
open Json

/-- A file, under its path from the project's root. -/
structure ProjectFile where
  path : String
  content : String
  deriving DecidableEq, Repr

namespace Project

/-- An object whose members are strings. -/
def strings (members : List (String × String)) : Value :=
  .object (members.map fun (name, s) => (name, .string s))

/-- The package of a project: its scripts and what it depends on. -/
def manifest : Value :=
  .object [
    ("name", .string "generated-app"),
    ("version", .string "0.1.0"),
    ("private", .bool true),
    ("scripts", strings [("dev", "next dev"), ("build", "next build"), ("start", "next start")]),
    ("dependencies",
      strings [("next", "^16.1.3"), ("react", "^19.2.3"), ("react-dom", "^19.2.3")]),
    ("devDependencies",
      strings [("@types/node", "^25.0.9"), ("@types/react", "^19.2.8"), ("typescript", "^5.9.3")])]

/-- How the sources of a project are compiled. -/
def compilerOptions : Value :=
  .object [
    ("target", .string "ES2017"),
    ("lib", .array [.string "dom", .string "dom.iterable", .string "esnext"]),
    ("allowJs", .bool true),
    ("skipLibCheck", .bool true),
    ("strict", .bool true),
    ("noEmit", .bool true),
    ("esModuleInterop", .bool true),
    ("module", .string "esnext"),
    ("moduleResolution", .string "bundler"),
    ("resolveJsonModule", .bool true),
    ("isolatedModules", .bool true),
    ("jsx", .string "preserve"),
    ("incremental", .bool true),
    ("plugins", .array [strings [("name", "next")]]),
    ("paths", .object [("@/*", .array [.string "./*"])])]

/-- The settings of the compiler, and the files that they are for. -/
def compilerConfig : Value :=
  .object [
    ("compilerOptions", compilerOptions),
    ("include", .array [.string "next-env.d.ts", .string "**/*.ts", .string "**/*.tsx"]),
    ("exclude", .array [.string "node_modules"])]

/-- Lines as one text, without a newline after the last. -/
def joinLines (lines : List String) : String := "\n".intercalate lines

/-- The files before the components. -/
def leadingFiles : List ProjectFile :=
  [⟨"package.json", manifest.pretty⟩,
    ⟨"tsconfig.json", compilerConfig.pretty⟩,
    ⟨"next.config.js", joinLines Source.nextConfig⟩,
    ⟨"app/globals.css", joinLines Source.globalStyles⟩,
    ⟨"tailwind.config.js", joinLines Source.tailwindConfig⟩,
    ⟨"app/layout.tsx", joinLines Source.rootLayout⟩]

/-- The files after the page. -/
def trailingFiles : List ProjectFile := [⟨"README.md", joinLines Source.readme⟩]

/-- Where the index of the components stands. -/
def indexPath : String := "components/ui/index.ts"

/-- Where the page stands. -/
def pagePath : String := "app/page.tsx"

/-- The used components of the catalog, by name. -/
def used (t : Tree) : List Component := t.components.toList.filterMap Component.ofName?

/-- The file of a component. -/
def componentFile (c : Component) : ProjectFile := ⟨c.sourcePath, c.source⟩

/-- The line of the index that hands on a component. -/
def exportLine (c : Component) : String :=
  "export \x7b " ++ c.name ++ " \x7d from \"./" ++ c.fileStem ++ "\";"

/-- The index of the components that a project has files for. -/
def index (components : List Component) : String :=
  joinLines (components.map exportLine) ++ "\n"

/-- The import of the components at the head of the page. -/
def importLines (components : List Component) : List String :=
  if components.isEmpty then []
  else ["import \x7b " ++ ", ".intercalate (components.map Component.name) ++
    " \x7d from \"@/components/ui\";", ""]

/-- The page: the import, and a component that returns the markup of the tree. -/
def page (o : Markup.Options) (t : Tree) (components : List Component) : String :=
  let unit := String.ofList (List.replicate o.indent ' ')
  let body := Markup.body o t
  joinLines <|
    ["\"use client\";", ""] ++ importLines components ++
    ["export default function Page() \x7b",
      unit ++ "return (",
      unit ++ unit ++ "<div className=\"min-h-screen p-8 flex items-center justify-center\">"] ++
    (if body.isEmpty then [] else [body]) ++
    [unit ++ unit ++ "</div>", unit ++ ");", "\x7d", ""]

/-- The files in the order in which they are written. -/
def files (o : Markup.Options) (t : Tree) : List ProjectFile :=
  if t.root.isNone then []
  else
    let components := used t
    leadingFiles ++ components.map componentFile ++
      [⟨indexPath, index components⟩, ⟨pagePath, page o t components⟩] ++ trailingFiles

/-- What generating the files reports: the walk for the components, the kinds that the catalog does
not have, and the walk for the page. -/
def notices (t : Tree) : List Notice :=
  if t.root.isNone then []
  else
    let walk := (t.walk none).notices
    let unknown := t.components.toList.filter fun name => (Component.ofName? name).isNone
    let omitted name : Notice := .debug ("No template for component '" ++ name ++ "', omitting")
    walk ++ unknown.map omitted ++ walk

end Project

end StreamedUi
