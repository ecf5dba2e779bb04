import StreamedUi.Yaml.Resolve
import StreamedUi.Yaml.Token

/-! Writing text as a YAML scalar in a block mapping: plainly if it reads as the same text then,
else between single quotes, and with escapes if it has characters that need them. Text with newlines
is written as a literal block. -/

namespace StreamedUi.Yaml

/-- Characters that are written as they are. -/
def isPrintable (c : Char) : Bool :=
  let n := c.toNat
  n == 0x0A || (0x20 ≤ n && n ≤ 0x7E) || (0xA0 ≤ n && n ≤ 0xD7FF) ||
    (0xE000 ≤ n && n ≤ 0xFFFD && n != 0xFEFF) || 0x10000 ≤ n

/-- Whether a text would begin with something that means more than text. -/
def startsWithIndicator : List Char → Bool
  | '-' :: '-' :: '-' :: _ => true
  | '.' :: '.' :: '.' :: _ => true
  | c :: cs => isIndicator c || ((c == '?' || c == ':' || c == '-') && endsWord cs)
  | [] => false

/-- Whether a colon that marks a value or a number sign that begins a comment stands inside. -/
def hasInnerIndicator : List Char → Bool
  | [] => false
  | [_] => false
  | a :: b :: cs =>
    (b == ':' && endsWord cs) || (b == '#' && endsWord [a]) || hasInnerIndicator (b :: cs)

/-- Whether two kinds of characters follow each other somewhere. -/
def hasPair (p q : Char → Bool) : List Char → Bool
  | a :: b :: cs => (p a && q b) || hasPair p q (b :: cs)
  | _ => false

def isSpace (c : Char) : Bool := c == ' '

/-- Whether the first or the last character is of a kind. -/
def edgesAre (p : Char → Bool) (cs : List Char) : Bool := cs.head?.any p || cs.getLast?.any p

/-- Whether only escapes can write a text. -/
def needsEscapes (cs : List Char) : Bool :=
  !cs.all isPrintable || hasPair isSpace isBreak cs

/-- Whether a text may be written as it is. -/
def allowsPlain (cs : List Char) : Bool :=
  !needsEscapes cs && !cs.any isBreak && !edgesAre isSpace cs && !startsWithIndicator cs &&
    !hasInnerIndicator cs

/-- Whether a text may be written between single quotes. -/
def allowsSingle (cs : List Char) : Bool := !needsEscapes cs && !hasPair isBreak isSpace cs

/-- Whether a text may be written as a literal block. -/
def allowsBlock (cs : List Char) : Bool := !needsEscapes cs && !cs.getLast?.any isSpace

/-- A hexadecimal digit, of upper case. -/
def upperHexDigit (n : Nat) : Char :=
  Char.ofNat (if n < 10 then '0'.toNat + n else 'A'.toNat + (n - 10))

/-- The last hexadecimal digits of a number. -/
def hexChars (n : Nat) : Nat → List Char
  | 0 => []
  | width + 1 => hexChars (n / 16) width ++ [upperHexDigit (n % 16)]

/-- A character between double quotes. -/
def escapeChar (c : Char) : List Char :=
  match c with
  | '\x00' => ['\\', '0']
  | '\x07' => ['\\', 'a']
  | '\x08' => ['\\', 'b']
  | '\t' => ['\\', 't']
  | '\n' => ['\\', 'n']
  | '\x0b' => ['\\', 'v']
  | '\x0c' => ['\\', 'f']
  | '\r' => ['\\', 'r']
  | '\x1b' => ['\\', 'e']
  | '"' => ['\\', '"']
  | '\\' => ['\\', '\\']
  | '\u0085' => ['\\', 'N']
  | '\u2028' => ['\\', 'L']
  | '\u2029' => ['\\', 'P']
  | c =>
    if isPrintable c then [c]
    else if c.toNat ≤ 0xFF then '\\' :: 'x' :: hexChars c.toNat 2
    else if c.toNat ≤ 0xFFFF then '\\' :: 'u' :: hexChars c.toNat 4
    else '\\' :: 'U' :: hexChars c.toNat 8

/-- A text between double quotes. -/
def doubleQuoted (cs : List Char) : List Char := '"' :: (cs.flatMap escapeChar ++ ['"'])

/-- Text between single quotes; a line after a break is indented. -/
def singleQuotedInner (indent : Nat) (afterBreak : Bool) : List Char → List Char
  | [] => if afterBreak then List.replicate indent ' ' else []
  | c :: cs =>
    if isBreak c then c :: singleQuotedInner indent true cs
    else (if afterBreak then List.replicate indent ' ' else []) ++
      (if c == '\'' then ['\'', '\''] else [c]) ++ singleQuotedInner indent false cs

/-- A text between single quotes, each of which is doubled inside. -/
def singleQuoted (indent : Nat) (cs : List Char) : List Char :=
  '\'' :: (singleQuotedInner indent false cs ++ ['\''])

/-- The marks after the indicator of a block: the indentation, if the text begins with white space,
and what becomes of its last line breaks. -/
def blockHints (cs : List Char) : List Char :=
  (if cs.head?.any (fun c => isSpace c || isBreak c) then ['2'] else []) ++
    match cs.reverse with
    | [] => ['-']
    | [c] => if isBreak c then ['+'] else ['-']
    | c :: d :: _ => if !isBreak c then ['-'] else if isBreak d then ['+'] else []

/-- The lines of a literal block, through a line break. -/
def blockLines (indent : Nat) (afterBreak : Bool) : List Char → List Char
  | [] => if afterBreak then [] else ['\n']
  | c :: cs =>
    if isBreak c then c :: blockLines indent true cs
    else (if afterBreak then List.replicate indent ' ' else []) ++ c :: blockLines indent false cs

/-- A text as the value of a member, through the end of its line. Its further lines have `indent`
spaces before them. -/
def scalarLine (indent : Nat) (s : String) : List Char :=
  let cs := s.toList
  if cs.contains '\n' then
    if allowsBlock cs then '|' :: (blockHints cs ++ '\n' :: blockLines indent true cs)
    else doubleQuoted cs ++ ['\n']
  else if allowsPlain cs && !isAmbiguous s then cs ++ ['\n']
  else if allowsSingle cs then singleQuoted indent cs ++ ['\n']
  else doubleQuoted cs ++ ['\n']

end StreamedUi.Yaml
