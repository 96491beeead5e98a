import PartyPlan.Yaml.Scalar

/-! YAML text as tokens. Indentation becomes tokens for the start and end of block collections. A
scalar or a flow collection may turn out to be a mapping key when a colon follows on the same line;
until then its place is kept as a possible key, where the key token is put in later. -/
namespace PartyPlan.Yaml

inductive Token where
  | documentStart
  | documentEnd
  | blockSequenceStart
  | blockMappingStart
  | blockEnd
  | flowSequenceStart
  | flowSequenceEnd
  | flowMappingStart
  | flowMappingEnd
  | blockEntry
  | flowEntry
  | key
  | value
  | scalar (plain : Bool) (text : String)
deriving DecidableEq

/-- A place where a key token may have to be put in. A required key must turn out to be one. -/
structure PossibleKey where
  required : Bool
  position : Nat
  offset : Nat
  line : Nat
  column : Nat

/-- A text read up to a place. `keys` has an entry for each open flow collection and one for the
block around them, the innermost first. -/
structure Scanner where
  cursor : Cursor
  tokens : Array Token := #[]
  indent : Int := -1
  indents : List Int := []
  flow : Nat := 0
  keyAllowed : Bool := true
  keys : List (Option PossibleKey) := [none]

namespace Scanner

def inFlow (s : Scanner) : Bool := 0 < s.flow

def push (s : Scanner) (t : Token) : Scanner := { s with tokens := s.tokens.push t }

def insertAt (s : Scanner) (position : Nat) (t : Token) : Scanner :=
  { s with tokens := s.tokens.extract 0 position ++ #[t] ++ s.tokens.extract position s.tokens.size }

def advance (s : Scanner) (n : Nat) : Scanner := { s with cursor := s.cursor.advance n }

/-- Open a block collection at a column deeper than the present one. -/
def roll (s : Scanner) (column : Nat) (position : Nat) (start : Token) : Scanner :=
  if !s.inFlow && decide (s.indent < column) then
    { s.insertAt position start with indents := s.indent :: s.indents, indent := column }
  else s

/-- Close the block collections deeper than a column. -/
def unrollFrom (column : Int) : List Int → Scanner → Scanner
  | [], s => s
  | outer :: rest, s =>
    if column < s.indent then
      unrollFrom column rest { s.push .blockEnd with indent := outer, indents := rest }
    else s

def unroll (s : Scanner) (column : Int) : Scanner :=
  if s.inFlow then s else unrollFrom column s.indents s

/-- Whether a possible key is too far back to be one: on an earlier line, or by over 1024
bytes. -/
def isStale (c : Cursor) (k : PossibleKey) : Bool :=
  decide (k.line < c.line) || decide (k.offset + 1024 < c.offset)

/-- Forget the possible keys that are too far back. -/
def dropStale (s : Scanner) : Except Fault Scanner := do
  let keys ← s.keys.mapM fun
    | none => pure none
    | some k =>
      if isStale s.cursor k then if k.required then throw Fault.keyExpected else pure none
      else pure (some k)
  return { s with keys }

/-- Forget the innermost possible key, which must not be required. -/
def removeKey (s : Scanner) : Except Fault Scanner :=
  match s.keys with
  | some k :: rest =>
    if k.required then .error .keyExpected else .ok { s with keys := none :: rest }
  | _ => .ok s

/-- Keep the present place as a possible key where one is allowed. -/
def saveKey (s : Scanner) : Except Fault Scanner :=
  if s.keyAllowed then do
    let s ← s.removeKey
    let c := s.cursor
    let key : PossibleKey :=
      { required := !s.inFlow && s.indent == c.column
        position := s.tokens.size, offset := c.offset, line := c.line, column := c.column }
    return { s with keys := some key :: s.keys.drop 1 }
  else .ok s

/-- Go past blanks, comments and line breaks. A tab may stand only where no key may start. -/
def skipToToken : Nat → Scanner → Scanner
  | 0, s => s
  | fuel + 1, s =>
    let c := s.cursor
    let c := if c.column = 0 && c.rest.head?.any (·.toNat == 0xFEFF) then c.advance 1 else c
    let c := c.skipWhile fun ch => ch = ' ' || ((s.inFlow || !s.keyAllowed) && ch = '\t')
    let c := if c.rest.head? = some '#' then c.skipWhile (fun ch => !isBreak ch) else c
    if c.rest.head?.any isBreak then
      skipToToken fuel
        { s with cursor := c.takeBreak.2, keyAllowed := s.keyAllowed || !s.inFlow }
    else { s with cursor := c }

def documentMark (s : Scanner) (t : Token) : Except Fault Scanner := do
  let s ← (s.unroll (-1)).removeKey
  return ({ s with keyAllowed := false }.push t).advance 3

def openFlow (s : Scanner) (t : Token) : Except Fault Scanner := do
  let s ← s.saveKey
  return ({ s with flow := s.flow + 1, keys := none :: s.keys, keyAllowed := true }.push t).advance 1

def closeFlow (s : Scanner) (t : Token) : Except Fault Scanner := do
  let s ← s.removeKey
  let s := if s.inFlow then { s with flow := s.flow - 1, keys := s.keys.drop 1 } else s
  return ({ s with keyAllowed := false }.push t).advance 1

def flowEntry (s : Scanner) : Except Fault Scanner := do
  let s ← s.removeKey
  return ({ s with keyAllowed := true }.push .flowEntry).advance 1

/-- An item of a block sequence. Inside a flow collection the indicator is left for the reader of the
tokens to refuse. -/
def blockEntry (s : Scanner) : Except Fault Scanner := do
  if !s.inFlow && !s.keyAllowed then throw .context
  let s := s.roll s.cursor.column s.tokens.size .blockSequenceStart
  let s ← s.removeKey
  return ({ s with keyAllowed := true }.push .blockEntry).advance 1

def explicitKey (s : Scanner) : Except Fault Scanner := do
  if !s.inFlow && !s.keyAllowed then throw .context
  let s := s.roll s.cursor.column s.tokens.size .blockMappingStart
  let s ← s.removeKey
  return ({ s with keyAllowed := !s.inFlow }.push .key).advance 1

/-- A colon: it makes the possible key one, and opens a mapping there if it has to. -/
def value (s : Scanner) : Except Fault Scanner :=
  match s.keys with
  | some k :: rest =>
    let s := (s.insertAt k.position .key).roll k.column k.position .blockMappingStart
    .ok (({ s with keys := none :: rest, keyAllowed := false }.push .value).advance 1)
  | _ => do
    if !s.inFlow && !s.keyAllowed then throw .context
    let s := s.roll s.cursor.column s.tokens.size .blockMappingStart
    return ({ s with keyAllowed := !s.inFlow }.push .value).advance 1

def blockScalar (s : Scanner) (literal : Bool) : Except Fault Scanner := do
  let s ← s.removeKey
  let (text, cursor) ← readBlock literal s.indent (s.cursor.advance 1)
  return { s with cursor, keyAllowed := true }.push (.scalar false (String.ofList text))

def quotedScalar (s : Scanner) (single : Bool) : Except Fault Scanner := do
  let s ← s.saveKey
  let c := s.cursor.advance 1
  let (text, cursor) ← readQuoted single (c.rest.length + 1) c []
  return { s with cursor, keyAllowed := false }.push (.scalar false (String.ofList text))

def plainScalar (s : Scanner) : Except Fault Scanner := do
  let s ← s.saveKey
  let c := s.cursor
  let (text, cursor, broken) ← readPlain s.inFlow (s.indent + 1) (c.rest.length + 1) c [] {}
  return { s with cursor, keyAllowed := broken }.push (.scalar true (String.ofList text))

/-- Characters that start something else than a plain scalar. -/
def isIndicator (c : Char) : Bool :=
  c = '-' || c = '?' || c = ':' || c = ',' || c = '[' || c = ']' || c = '\x7b' || c = '\x7d' ||
    c = '#' || c = '&' || c = '*' || c = '!' || c = '|' || c = '>' || c = '\'' || c = '"' ||
    c = '%' || c = '@' || c = '\x60'

/-- Whether a plain scalar may start with `c` before `cs`. -/
def startsPlain (inFlow : Bool) (c : Char) (cs : List Char) : Bool :=
  if c = '-' then !cs.head?.any isSpaceOrTab
  else if c = '?' || c = ':' then !inFlow && !atBlank cs
  else !isIndicator c && !isSpaceOrTab c && !isBreak c

/-- Read the token at a character that is no blank. -/
def token (s : Scanner) (c : Char) (cs : List Char) : Except Fault Scanner :=
  if s.cursor.column = 0 && c = '%' then .error .unsupported
  else if s.cursor.atDocumentMark then
    s.documentMark (if c = '-' then .documentStart else .documentEnd)
  else if c = '[' then s.openFlow .flowSequenceStart
  else if c = '\x7b' then s.openFlow .flowMappingStart
  else if c = ']' then s.closeFlow .flowSequenceEnd
  else if c = '\x7d' then s.closeFlow .flowMappingEnd
  else if c = ',' then s.flowEntry
  else if c = '-' && atBlank cs then s.blockEntry
  else if c = '?' && (s.inFlow || atBlank cs) then s.explicitKey
  else if c = ':' && (s.inFlow || atBlank cs) then s.value
  else if c = '&' || c = '*' || c = '!' then .error .unsupported
  else if c = '|' && !s.inFlow then s.blockScalar true
  else if c = '>' && !s.inFlow then s.blockScalar false
  else if c = '\'' then s.quotedScalar true
  else if c = '"' then s.quotedScalar false
  else if startsPlain s.inFlow c cs then s.plainScalar
  else .error .character

/-- Read all tokens. Each step goes past at least one character. -/
def run : Nat → Scanner → Except Fault (List Token)
  | 0, _ => .error .character
  | fuel + 1, s => do
    let s ← (skipToToken (s.cursor.rest.length + 1) s).dropStale
    let s := s.unroll s.cursor.column
    match s.cursor.rest with
    | [] =>
      let s ← (s.unroll (-1)).removeKey
      return s.tokens.toList
    | c :: cs => run fuel (← s.token c cs)

end Scanner

def tokens (text : String) : Except Fault (List Token) :=
  let cs := text.toList
  if cs.all isPrintable then Scanner.run (cs.length + 2) { cursor := { rest := cs } }
  else .error .character

end PartyPlan.Yaml
