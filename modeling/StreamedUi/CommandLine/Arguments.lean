import StreamedUi.Json.Path
import StreamedUi.Markup.Attribute
import StreamedUi.Text.Search

/-! The arguments of the program: a command with its input and options, or a request for help or for
the version. Arguments are read in order, and the first one that is out of order, or that asks for
help, decides. -/

namespace StreamedUi.CommandLine

/-- What the program is to do. -/
inductive Command
  /-- Writes the project of a tree into a directory. -/
  | generate (input out : String) (options : Markup.Options)
  /-- Prints what a tree uses. -/
  | analyze (input : String)
  deriving DecidableEq, Repr

/-- What there is help on. -/
inductive Topic
  | program
  | generate
  | analyze
  | help
  deriving DecidableEq, Repr

/-- What the arguments ask for. -/
inductive Request
  | command (c : Command)
  | help (topic : Topic)
  | version
  | misuse
  deriving DecidableEq, Repr

/-! ## Words -/

/-- An argument by its form. -/
inductive Word
  /-- A single dash or none: an input, a value or a name. -/
  | plain (s : String)
  | long (name : String) (value : Option String)
  | short (letter : Char) (rest : List Char)
  /-- Two dashes alone, after which every argument is plain. -/
  | separator
  deriving DecidableEq, Repr

/-- The form of an argument. Only a long name is cut at an equals sign. -/
def Word.ofArgument (s : String) : Word :=
  match s.toList with
  | ['-', '-'] => .separator
  | '-' :: '-' :: cs =>
    match Text.splitFirst? ['='] cs with
    | some (name, value) => .long (String.ofList name) (some (String.ofList value))
    | none => .long (String.ofList cs) none
  | '-' :: c :: cs => .short c cs
  | _ => .plain s

/-! ## Options -/

/-- The options of the commands, however they are spelled. -/
inductive Switch
  | help
  | out
  | singleQuotes
  | indent
  deriving DecidableEq, Repr

/-- The commands, as far as their options differ. -/
inductive Mode
  | generate
  | analyze
  deriving DecidableEq, Repr

/-- The help that a command gives on itself. -/
def Mode.topic : Mode → Topic
  | .generate => .generate
  | .analyze => .analyze

/-- The option that a command has under a long name. -/
def longSwitch? : Mode → String → Option Switch
  | _, "help" => some .help
  | .generate, "out" => some .out
  | .generate, "single-quotes" => some .singleQuotes
  | .generate, "indent" => some .indent
  | _, _ => none

/-- The option that a command has under a letter. -/
def shortSwitch? : Mode → Char → Option Switch
  | _, 'h' => some .help
  | .generate, 'o' => some .out
  | _, _ => none

/-- The value right behind a letter, which an equals sign may set off. -/
def attached? : List Char → Option String
  | [] => none
  | '=' :: cs => some (String.ofList cs)
  | cs => some (String.ofList cs)

/-- The option of a word, and a value in the same word. -/
def switch? (mode : Mode) : Word → Option (Switch × Option String)
  | .long name value => (longSwitch? mode name).map (·, value)
  | .short letter rest => (shortSwitch? mode letter).map fun
    | .out => (.out, attached? rest)
    | s => (s, none)
  | _ => none

/-- What has been given so far. -/
structure Draft where
  input : Option String := none
  out : Option String := none
  singleQuotes : Bool := false
  indent : Option Nat := none
  deriving DecidableEq, Repr

namespace Draft

/-- Takes the input, of which there is one. -/
def setInput? (d : Draft) (s : String) : Option Draft :=
  if d.input.isSome then none else some { d with input := some s }

/-- Takes the output directory, which is given at most once and not empty. -/
def setOut? (d : Draft) (s : String) : Option Draft :=
  if d.out.isSome || s.isEmpty then none else some { d with out := some s }

/-- Takes the choice of single quotes, which is made at most once. -/
def setSingleQuotes? (d : Draft) : Option Draft :=
  if d.singleQuotes then none else some { d with singleQuotes := true }

/-- Takes the indentation, a number of spaces that a machine word counts. -/
def setIndent? (d : Draft) (s : String) : Option Draft :=
  if d.indent.isSome then none
  else ((Json.index? s).filter (· < Nat.pow 2 64)).map fun n => { d with indent := some n }

/-- Gives an option the value that it takes. -/
def setValue? (d : Draft) : Switch → String → Option Draft
  | .out, s => d.setOut? s
  | .indent, s => d.setIndent? s
  | _, _ => none

/-- Takes every argument as the input, whatever it looks like. -/
def inputs? (d : Draft) (arguments : List String) : Option Draft := arguments.foldlM setInput? d

/-- How the page is to be printed; what is not given has its default. -/
def options (d : Draft) : Markup.Options where
  quotes := if d.singleQuotes then .single else .double
  indent := d.indent.getD 2

/-- The command, if its input has been given. -/
def command? (d : Draft) : Mode → Option Command
  | .generate => d.input.map fun input => .generate input (d.out.getD "generated-app") d.options
  | .analyze => d.input.map .analyze

/-- The request that the arguments of a command make. -/
def request (mode : Mode) (d : Draft) : List String → Request
  | [] => finish d
  | argument :: rest =>
    match Word.ofArgument argument with
    | .separator => ((d.inputs? rest).map finish).getD .misuse
    | .plain s =>
      match d.setInput? s with
      | some d => request mode d rest
      | none => .misuse
    | word =>
      match switch? mode word with
      | none => .misuse
      | some (.help, none) => .help mode.topic
      | some (.singleQuotes, none) =>
        match d.setSingleQuotes? with
        | some d => request mode d rest
        | none => .misuse
      | some (s, some value) =>
        match d.setValue? s value with
        | some d => request mode d rest
        | none => .misuse
      | some (s, none) =>
        match rest with
        | [] => .misuse
        | next :: rest =>
          match Word.ofArgument next with
          | .plain value =>
            match d.setValue? s value with
            | some d => request mode d rest
            | none => .misuse
          | _ => .misuse
where
  finish (d : Draft) : Request := ((d.command? mode).map .command).getD .misuse

end Draft

/-- What the words behind `help` ask for: help on one command, or on the program. -/
def helpRequest : List String → Request
  | [] => .help .program
  | ["export"] => .help .generate
  | ["analyze"] => .help .analyze
  | ["help"] => .help .help
  | _ => .misuse

/-- The request that the arguments of the program make. -/
def Request.ofArguments : List String → Request
  | [] => .misuse
  | argument :: rest =>
    match Word.ofArgument argument with
    | .plain "export" => Draft.request .generate {} rest
    | .plain "analyze" => Draft.request .analyze {} rest
    | .plain "help" => helpRequest rest
    | .long "help" none => .help .program
    | .long "version" none => .version
    | .short 'h' _ => .help .program
    | .short 'V' _ => .version
    | _ => .misuse

end StreamedUi.CommandLine
