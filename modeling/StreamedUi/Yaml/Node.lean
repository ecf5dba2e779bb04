import StreamedUi.Yaml.Lexer

/-! YAML documents as trees of scalars, sequences and mappings. What is left out, such as the value
of a key with nothing behind it, is an empty plain scalar. -/

namespace StreamedUi.Yaml

/-- A document or a part of one. -/
inductive Node
  | scalar (plain : Bool) (text : String)
  | sequence (items : List Node)
  | mapping (members : List (Node × Node))
  deriving Repr

namespace Node

/-- What stands for a node that is left out. -/
def missing : Node := .scalar true ""

/-- Whether nothing is written. -/
def isMissing : Node → Bool
  | .scalar plain text => plain && text.isEmpty
  | _ => false

/-- Where a node stands, which decides what it may be. -/
inductive Place
  | flow
  | block
  /-- The key or value of a block mapping, where a sequence needs no indentation. -/
  | member
  deriving DecidableEq, Repr

/-- Whether a key or value of a block mapping has nothing before these tokens. -/
def endsMember : List Token → Bool
  | .key :: _ | .value :: _ | .blockEnd :: _ => true
  | _ => false

/-- Whether an item of a block sequence has nothing before these tokens. -/
def endsItem : List Token → Bool
  | .blockEntry :: _ | .blockEnd :: _ => true
  | _ => false

/-- The same of a sequence without indentation, which members may follow. -/
def endsLooseItem (ts : List Token) : Bool := endsItem ts || endsMember ts

/-- Whether a value in flow style has nothing before these tokens, where `last` ends the
collection. -/
def endsFlowValue (last : Token) (ts : List Token) : Bool :=
  ts.head? = some .flowEntry || ts.head? = some last

/-- The same of a key. -/
def endsFlowKey (last : Token) (ts : List Token) : Bool :=
  ts.head? = some .value || endsFlowValue last ts

mutual
/-- The node at the head. The first argument bounds the work; each step of it takes a token or
stands between two that do. -/
def node? : Nat → Place → List Token → Option (Node × List Token)
  | 0, _, _ => none
  | n + 1, place, ts =>
    match ts with
    | .scalar plain text :: rest => some (.scalar plain text, rest)
    | .flowSequenceStart :: rest => (flowItems? n true rest).map fun (xs, ts) => (.sequence xs, ts)
    | .flowMappingStart :: rest => (flowMembers? n true rest).map fun (ms, ts) => (.mapping ms, ts)
    | .blockSequenceStart :: rest =>
      if place = .flow then none
      else (blockItems? n rest).map fun (xs, ts) => (.sequence xs, ts)
    | .blockMappingStart :: rest =>
      if place = .flow then none
      else (blockMembers? n rest).map fun (ms, ts) => (.mapping ms, ts)
    | .blockEntry :: _ =>
      if place = .member then (looseItems? n ts).map fun (xs, ts) => (.sequence xs, ts)
      else none
    | _ => none

/-- The items of a block sequence, through its end. -/
def blockItems? : Nat → List Token → Option (List Node × List Token)
  | n + 1, .blockEntry :: ts => do
    let (x, ts) ← if endsItem ts then some (missing, ts) else node? n .block ts
    let (xs, ts) ← blockItems? n ts
    return (x :: xs, ts)
  | _, .blockEnd :: ts => some ([], ts)
  | _, _ => none

/-- The items of a sequence without indentation. -/
def looseItems? : Nat → List Token → Option (List Node × List Token)
  | n + 1, .blockEntry :: ts => do
    let (x, ts) ← if endsLooseItem ts then some (missing, ts) else node? n .block ts
    let (xs, ts) ← looseItems? n ts
    return (x :: xs, ts)
  | _, ts => some ([], ts)

/-- The members of a block mapping, through its end. -/
def blockMembers? : Nat → List Token → Option (List (Node × Node) × List Token)
  | n + 1, .key :: ts => do
    let (k, ts) ← if endsMember ts then some (missing, ts) else node? n .member ts
    let (v, ts) ← match ts with
      | .value :: ts => if endsMember ts then some (missing, ts) else node? n .member ts
      | ts => some (missing, ts)
    let (ms, ts) ← blockMembers? n ts
    return ((k, v) :: ms, ts)
  | _, .blockEnd :: ts => some ([], ts)
  | _, _ => none

/-- The items of a flow sequence, through its end. A comma may stand before the end. -/
def flowItems? : Nat → Bool → List Token → Option (List Node × List Token)
  | 0, _, _ => none
  | n + 1, first, ts =>
    match ts with
    | .flowSequenceEnd :: ts => some ([], ts)
    | ts => do
      let ts ← if first then some ts else if ts.head? = some .flowEntry then some ts.tail else none
      match ts with
      | .flowSequenceEnd :: ts => some ([], ts)
      | ts =>
        let (x, ts) ← flowItem? n ts
        let (xs, ts) ← flowItems? n false ts
        return (x :: xs, ts)

/-- An item of a flow sequence, which may be a single pair. -/
def flowItem? : Nat → List Token → Option (Node × List Token)
  | n + 1, .key :: ts => do
    let (k, ts) ←
      if endsFlowKey .flowSequenceEnd ts then some (missing, ts.tail) else node? n .flow ts
    let (v, ts) ← flowValue? n .flowSequenceEnd ts
    return (.mapping [(k, v)], ts)
  | n + 1, ts => node? n .flow ts
  | 0, _ => none

/-- The members of a flow mapping, through its end. A member may be a key alone. -/
def flowMembers? : Nat → Bool → List Token → Option (List (Node × Node) × List Token)
  | 0, _, _ => none
  | n + 1, first, ts =>
    match ts with
    | .flowMappingEnd :: ts => some ([], ts)
    | ts => do
      let ts ← if first then some ts else if ts.head? = some .flowEntry then some ts.tail else none
      match ts with
      | .flowMappingEnd :: ts => some ([], ts)
      | ts =>
        let (m, ts) ← flowMember? n ts
        let (ms, ts) ← flowMembers? n false ts
        return (m :: ms, ts)

/-- A member of a flow mapping, whose value may be left out. -/
def flowMember? : Nat → List Token → Option ((Node × Node) × List Token)
  | n + 1, .key :: ts => do
    let (k, ts) ←
      if endsFlowKey .flowMappingEnd ts then some (missing, ts) else node? n .flow ts
    let (v, ts) ← flowValue? n .flowMappingEnd ts
    return ((k, v), ts)
  | n + 1, ts => (node? n .flow ts).map fun (k, ts) => ((k, missing), ts)
  | 0, _ => none

/-- What stands behind a colon, if one comes, in a collection that `last` ends. -/
def flowValue? : Nat → Token → List Token → Option (Node × List Token)
  | n + 1, last, .value :: ts =>
    if endsFlowValue last ts then some (missing, ts) else node? n .flow ts
  | _, _, ts => some (missing, ts)
end

/-- The node of a whole document, which only marks of its end may follow. -/
def root? (ts : List Token) : Option Node := do
  let (n, ts) ← node? (3 * ts.length + 3) .block ts
  if ts.all (· = .documentEnd) then some n else none

/-- The node of a document that begins with a mark, where it may be missing. -/
def markedRoot? (ts : List Token) : Option Node :=
  if ts.all (· = .documentEnd) then some missing else root? ts

/-- The only document of a text. A text without one has a missing node. -/
def ofText? (s : String) : Option Node :=
  (tokens? s).bind fun
    | [] => some missing
    | .documentStart :: ts => markedRoot? ts
    | ts => root? ts

end Node

end StreamedUi.Yaml
