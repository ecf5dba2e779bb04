import StreamedUi.CommandLine.Arguments

/-! What the program says of itself. -/

namespace StreamedUi.CommandLine

/-- The name that the program is called by. -/
def programName : String := "genui-export"

/-- What the program says of its version. -/
def versionText : String := programName ++ " 0.1.0\n"

/-- The help on the input, which both commands take. -/
def inputHelp : List String :=
  ["Arguments:",
    "  <INPUT>  JSONL patch stream (\"-\" for stdin)",
    ""]

/-- The lines of the help on a topic. -/
def helpLines : Topic → List String
  | .program =>
    ["Build a UI tree from a JSONL patch stream and export or inspect it",
      "",
      "Usage: " ++ programName ++ " <COMMAND>",
      "",
      "Commands:",
      "  export   Write a Next.js project generated from the tree",
      "  analyze  Print used components, data paths and actions as JSON",
      "  help     Print this message or the help of the given subcommand(s)",
      "",
      "Options:",
      "  -h, --help     Print help",
      "  -V, --version  Print version"]
  | .generate =>
    ["Write a Next.js project generated from the tree",
      "",
      "Usage: " ++ programName ++ " export [OPTIONS] <INPUT>",
      ""] ++ inputHelp ++
    ["Options:",
      "  -o, --out <OUT>        Output directory [default: generated-app]",
      "      --single-quotes    Quote string props with single quotes",
      "      --indent <INDENT>  Spaces per nesting level in the generated page [default: 2]",
      "  -h, --help             Print help"]
  | .analyze =>
    ["Print used components, data paths and actions as JSON",
      "",
      "Usage: " ++ programName ++ " analyze <INPUT>",
      ""] ++ inputHelp ++
    ["Options:",
      "  -h, --help  Print help"]
  | .help =>
    ["Print this message or the help of the given subcommand(s)",
      "",
      "Usage: " ++ programName ++ " help [COMMAND]...",
      "",
      "Arguments:",
      "  [COMMAND]...  Print help for the subcommand(s)"]

/-- The help on a topic as it is printed. -/
def helpText (topic : Topic) : String := String.join ((helpLines topic).map (· ++ "\n"))

end StreamedUi.CommandLine
