/-! Quoted strings of markup: a backslash stands before a backslash and before the quote in use, and
newline, carriage return and tab are written as letters. -/

namespace StreamedUi.Markup

/-- The quotes that strings stand in. -/
inductive Quotes
  | double
  | single
  deriving DecidableEq, Repr

/-- The character itself. -/
def Quotes.char : Quotes → Char
  | .double => '"'
  | .single => '\''

/-- A character inside quotes. -/
def escapeChar (q : Quotes) (c : Char) : List Char :=
  match c with
  | '\\' => ['\\', '\\']
  | '\n' => ['\\', 'n']
  | '\r' => ['\\', 'r']
  | '\t' => ['\\', 't']
  | c => if c = q.char then ['\\', c] else [c]

/-- The characters of a text inside quotes. -/
def escape (q : Quotes) (cs : List Char) : List Char := cs.flatMap (escapeChar q)

/-- The text inside quotes, without the quotes. -/
def escapeText (q : Quotes) (s : String) : String := String.ofList (escape q s.toList)

/-- The text between quotes. -/
def quoted (q : Quotes) (s : String) : List Char := q.char :: (escape q s.toList ++ [q.char])

end StreamedUi.Markup
