import StreamedUi.Yaml.Token

/-! Plain scalars: they end before a comment, a colon that marks a value, less indentation, or an
indicator of flow style. Line breaks inside them are folded. -/

namespace StreamedUi.Yaml

/-- Whether a plain scalar ends before this text, which is not white space. -/
def endsPlain (flow : Bool) (c : Char) (cs : List Char) : Bool :=
  (c == ':' && endsWord cs) || (flow && isFlowIndicator c)

/-- A colon right before an indicator of flow style is refused. -/
def refusesPlain (flow : Bool) (c : Char) (cs : List Char) : Bool :=
  flow && c == ':' && (match cs with
    | d :: _ => isFlowIndicator d || d == '?'
    | [] => false)

/-- Reads a plain scalar whose further lines have to stand at column `indent` or beyond. -/
def readPlain (flow : Bool) (indent : Nat) (text : List Char) (gap : Gap) (p : Position) :
    List Char → Option ScalarResult
  | [] => some ⟨text.reverse, [], p, gap.hasBreak⟩
  | c :: cs =>
    if isSpaceOrTab c then
      if c == '\t' && gap.hasBreak && p.column < indent then none
      else readPlain flow indent text (gap.addSpace c) (p.next c) cs
    else if c == '\r' && cs.head? == some '\n' then readPlain flow indent text gap (p.next c) cs
    else if isBreak c then readPlain flow indent text (gap.addBreak c) p.nextLine cs
    else if !gap.isEmpty && ((!flow && p.column < indent) || c == '#' ||
        atDocumentMark p.column (c :: cs)) then
      some ⟨text.reverse, c :: cs, p, gap.hasBreak⟩
    else if refusesPlain flow c cs then none
    else if endsPlain flow c cs then some ⟨text.reverse, c :: cs, p, gap.hasBreak⟩
    else readPlain flow indent (c :: (gap.text ++ text)) {} (p.next c) cs

end StreamedUi.Yaml
