import StreamedUi.Yaml.Token

/-! Quoted scalars. Between single quotes a quote is written twice; between double quotes a
backslash escapes. Line breaks are folded as in plain scalars. -/

namespace StreamedUi.Yaml

/-- The character that a letter after a backslash stands for. -/
def escaped? (c : Char) : Option Char :=
  match c with
  | '0' => some '\x00'
  | 'a' => some '\x07'
  | 'b' => some '\x08'
  | 't' | '\t' => some '\t'
  | 'n' => some '\n'
  | 'v' => some '\x0b'
  | 'f' => some '\x0c'
  | 'r' => some '\r'
  | 'e' => some '\x1b'
  | ' ' | '"' | '/' | '\\' => some c
  | 'N' => some '\u0085'
  | '_' => some '\u00A0'
  | 'L' => some '\u2028'
  | 'P' => some '\u2029'
  | _ => none

/-- How many hexadecimal digits follow a letter after a backslash. -/
def escapeWidth? (c : Char) : Option Nat :=
  match c with
  | 'x' => some 2
  | 'u' => some 4
  | 'U' => some 8
  | _ => none

/-- The value of a hexadecimal digit of either case. -/
def hexDigit? (c : Char) : Option Nat :=
  if '0' ≤ c && c ≤ '9' then some (c.toNat - '0'.toNat)
  else if 'a' ≤ c && c ≤ 'f' then some (c.toNat - 'a'.toNat + 10)
  else if 'A' ≤ c && c ≤ 'F' then some (c.toNat - 'A'.toNat + 10)
  else none

/-- The character of a code point, which no surrogate is. -/
def scalarChar? (n : Nat) : Option Char :=
  if n < 0xD800 || (0xE000 ≤ n && n ≤ 0x10FFFF) then some (Char.ofNat n) else none

/-- How far an escape or a doubled quote has come. -/
inductive QuotedMode
  | plain
  /-- A single quote has come: the end, or the first of two. -/
  | quote
  | backslash
  | hex (left value : Nat)
  deriving DecidableEq, Repr

/-- Reads a quoted scalar after its opening quote. -/
def readQuoted (single : Bool) (mode : QuotedMode) (text : List Char) (gap : Gap) (p : Position) :
    List Char → Option ScalarResult
  | [] =>
    match mode with
    | .quote => some ⟨text.reverse, [], p, false⟩
    | _ => none
  | c :: cs =>
    match mode with
    | .quote =>
      if c == '\'' then readQuoted single .plain (c :: text) {} (p.next c) cs
      else some ⟨text.reverse, c :: cs, p, false⟩
    | .backslash =>
      if isBreak c then
        if c == '\r' && cs.head? == some '\n' then
          readQuoted single .backslash text gap (p.next c) cs
        else readQuoted single .plain text ⟨[], some ([], [])⟩ p.nextLine cs
      else match escapeWidth? c with
        | some width => readQuoted single (.hex width 0) text {} (p.next c) cs
        | none => (escaped? c).bind fun d => readQuoted single .plain (d :: text) {} (p.next c) cs
    | .hex left value =>
      (hexDigit? c).bind fun d =>
        let value := 16 * value + d
        if left ≤ 1 then
          (scalarChar? value).bind fun e => readQuoted single .plain (e :: text) {} (p.next c) cs
        else readQuoted single (.hex (left - 1) value) text {} (p.next c) cs
    | .plain =>
      if gap.hasBreak && atDocumentMark p.column (c :: cs) then none
      else if isSpaceOrTab c then readQuoted single .plain text (gap.addSpace c) (p.next c) cs
      else if c == '\r' && cs.head? == some '\n' then
        readQuoted single .plain text gap (p.next c) cs
      else if isBreak c then readQuoted single .plain text (gap.addBreak c) p.nextLine cs
      else
        let text := gap.text ++ text
        if single then
          if c == '\'' then readQuoted single .quote text {} (p.next c) cs
          else readQuoted single .plain (c :: text) {} (p.next c) cs
        else if c == '"' then some ⟨text.reverse, cs, p.next c, false⟩
        else if c == '\\' then readQuoted single .backslash text {} (p.next c) cs
        else readQuoted single .plain (c :: text) {} (p.next c) cs

end StreamedUi.Yaml
