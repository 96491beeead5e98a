import PartyPlan.Yaml.Token

/-! YAML documents as trees. -/
namespace PartyPlan.Yaml

/-- A scalar, plain or not, a sequence, or a mapping with its entries in order. -/
inductive Node where
  | scalar (plain : Bool) (text : String)
  | sequence (items : List Node)
  | mapping (entries : List (Node × Node))
deriving Inhabited

namespace Node

def absent : Node := .scalar true ""

def endsBlockKey : List Token → Bool
  | .key :: _ | .value :: _ | .blockEnd :: _ => true
  | _ => false

def endsFlowPairKey : List Token → Bool
  | .value :: _ | .flowEntry :: _ | .flowSequenceEnd :: _ => true
  | _ => false

def endsFlowPairValue : List Token → Bool
  | .flowEntry :: _ | .flowSequenceEnd :: _ => true
  | _ => false

def endsFlowKey : List Token → Bool
  | .value :: _ | .flowEntry :: _ | .flowMappingEnd :: _ => true
  | _ => false

def endsFlowValue : List Token → Bool
  | .flowEntry :: _ | .flowMappingEnd :: _ => true
  | _ => false

mutual

/-- A node. Block collections are read only where `block` allows them, and sequences that are not
indented only where `indentless` does. -/
def node (fuel : Nat) (block indentless : Bool) (ts : List Token) : Except Fault (Node × List Token) :=
  match fuel with
  | 0 => .error .malformed
  | fuel + 1 =>
    match ts with
    | .scalar plain text :: rest => .ok (.scalar plain text, rest)
    | .flowSequenceStart :: rest => do
      let (items, rest) ← flowItems fuel true rest
      return (.sequence items, rest)
    | .flowMappingStart :: rest => do
      let (entries, rest) ← flowEntries fuel true rest
      return (.mapping entries, rest)
    | .blockEntry :: _ =>
      if indentless then do
        let (items, rest) ← indentlessItems fuel ts
        return (.sequence items, rest)
      else .error .malformed
    | .blockSequenceStart :: rest =>
      if block then do
        let (items, rest) ← blockItems fuel rest
        return (.sequence items, rest)
      else .error .malformed
    | .blockMappingStart :: rest =>
      if block then do
        let (entries, rest) ← blockEntries fuel rest
        return (.mapping entries, rest)
      else .error .malformed
    | _ => .error .malformed

def blockItems (fuel : Nat) (ts : List Token) : Except Fault (List Node × List Token) :=
  match fuel with
  | 0 => .error .malformed
  | fuel + 1 =>
    match ts with
    | .blockEnd :: rest => .ok ([], rest)
    | .blockEntry :: rest => do
      let (item, rest) ← match rest with
        | .blockEntry :: _ | .blockEnd :: _ => pure (absent, rest)
        | _ => node fuel true false rest
      let (items, rest) ← blockItems fuel rest
      return (item :: items, rest)
    | _ => .error .malformed

def indentlessItems (fuel : Nat) (ts : List Token) : Except Fault (List Node × List Token) :=
  match fuel with
  | 0 => .error .malformed
  | fuel + 1 =>
    match ts with
    | .blockEntry :: rest => do
      let (item, rest) ← match rest with
        | .blockEntry :: _ | .key :: _ | .value :: _ | .blockEnd :: _ => pure (absent, rest)
        | _ => node fuel true false rest
      let (items, rest) ← indentlessItems fuel rest
      return (item :: items, rest)
    | _ => .ok ([], ts)

def blockEntries (fuel : Nat) (ts : List Token) :
    Except Fault (List (Node × Node) × List Token) :=
  match fuel with
  | 0 => .error .malformed
  | fuel + 1 =>
    match ts with
    | .blockEnd :: rest => .ok ([], rest)
    | .key :: rest => do
      let (key, rest) ← if endsBlockKey rest then pure (absent, rest) else node fuel true true rest
      let (value, rest) ← match rest with
        | .value :: rest => if endsBlockKey rest then pure (absent, rest) else node fuel true true rest
        | _ => pure (absent, rest)
      let (entries, rest) ← blockEntries fuel rest
      return ((key, value) :: entries, rest)
    | _ => .error .malformed

def flowItems (fuel : Nat) (first : Bool) (ts : List Token) : Except Fault (List Node × List Token) :=
  match fuel with
  | 0 => .error .malformed
  | fuel + 1 =>
    match ts with
    | .flowSequenceEnd :: rest => .ok ([], rest)
    | _ => do
      let ts ← match first, ts with
        | true, _ => pure ts
        | false, .flowEntry :: rest => pure rest
        | false, _ => throw .malformed
      match ts with
      | .flowSequenceEnd :: rest => return ([], rest)
      | .key :: rest =>
        let (pair, rest) ← flowPair fuel rest
        let (items, rest) ← flowItems fuel false rest
        return (.mapping [pair] :: items, rest)
      | _ =>
        let (item, rest) ← node fuel false false ts
        let (items, rest) ← flowItems fuel false rest
        return (item :: items, rest)

/-- A mapping of one entry that stands in a flow sequence without braces. -/
def flowPair (fuel : Nat) (ts : List Token) : Except Fault ((Node × Node) × List Token) :=
  match fuel with
  | 0 => .error .malformed
  | fuel + 1 => do
    let (key, rest) ← if endsFlowPairKey ts then pure (absent, ts.drop 1) else node fuel false false ts
    let (value, rest) ← match rest with
      | .value :: rest => if endsFlowPairValue rest then pure (absent, rest) else node fuel false false rest
      | _ => pure (absent, rest)
    return ((key, value), rest)

def flowEntries (fuel : Nat) (first : Bool) (ts : List Token) :
    Except Fault (List (Node × Node) × List Token) :=
  match fuel with
  | 0 => .error .malformed
  | fuel + 1 =>
    match ts with
    | .flowMappingEnd :: rest => .ok ([], rest)
    | _ => do
      let ts ← match first, ts with
        | true, _ => pure ts
        | false, .flowEntry :: rest => pure rest
        | false, _ => throw .malformed
      match ts with
      | .flowMappingEnd :: rest => return ([], rest)
      | .key :: rest =>
        let (key, rest) ← if endsFlowKey rest then pure (absent, rest) else node fuel false false rest
        let (value, rest) ← match rest with
          | .value :: rest =>
            if endsFlowValue rest then pure (absent, rest) else node fuel false false rest
          | _ => pure (absent, rest)
        let (entries, rest) ← flowEntries fuel false rest
        return ((key, value) :: entries, rest)
      | _ =>
        let (key, rest) ← node fuel false false ts
        let (entries, rest) ← flowEntries fuel false rest
        return ((key, absent) :: entries, rest)

end

/-- The content of a document: a node, or nothing at all after a mark of its start. -/
def content (ts : List Token) : Except Fault (Node × List Token) :=
  match ts with
  | .documentStart :: [] => .ok (absent, [])
  | .documentStart :: rest =>
    match rest with
    | .documentStart :: _ | .documentEnd :: _ => .ok (absent, rest)
    | _ => node (ts.length + 1) true false rest
  | _ => node (ts.length + 1) true false ts

def isDocumentEnd : Token → Bool
  | .documentEnd => true
  | _ => false

/-- Read a text that holds exactly one document. -/
def read (text : String) : Except Fault Node := do
  let (root, rest) ← content (← tokens text)
  if (rest.dropWhile isDocumentEnd).isEmpty then return root else throw .documents

end Node
end PartyPlan.Yaml
