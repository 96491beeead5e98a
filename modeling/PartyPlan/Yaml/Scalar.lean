import PartyPlan.Json.Reader
import PartyPlan.Yaml.Cursor

/-! The written forms of YAML scalars: plain, in quotes, and as a block of lines. -/
namespace PartyPlan.Yaml

/-- Blanks and line breaks between two pieces of a scalar. -/
structure Gap where
  blanks : List Char := []
  broken : Bool := false
  first : List Char := []
  later : List Char := []

namespace Gap

def addBreak (g : Gap) (b : List Char) : Gap :=
  if g.broken then { g with later := g.later ++ b } else { g with blanks := [], broken := true, first := b }

/-- What a gap counts for: a single line break is a blank, further ones stay. -/
def text (g : Gap) : List Char :=
  if g.broken then
    if g.first = ['\n'] then if g.later.isEmpty then [' '] else g.later else g.first ++ g.later
  else g.blanks

end Gap

/-- Read a gap. Below `indent`, a tab at the beginning of a line is refused. -/
def readGap (indent : Int) : Nat → Cursor → Gap → Except Fault (Gap × Cursor)
  | 0, c, g => .ok (g, c)
  | fuel + 1, c, g =>
    match c.rest with
    | [] => .ok (g, c)
    | ch :: _ =>
      if isSpaceOrTab ch then
        if g.broken && ch = '\t' && decide ((c.column : Int) < indent) then .error .tab
        else readGap indent fuel (c.advance 1) (if g.broken then g else { g with blanks := g.blanks ++ [ch] })
      else if isBreak ch then
        let (b, c) := c.takeBreak
        readGap indent fuel c (g.addBreak b)
      else .ok (g, c)

def isFlowIndicator (c : Char) : Bool :=
  c = ',' || c = '[' || c = ']' || c = '\x7b' || c = '\x7d'

/-- The characters up to the next blank or the end of a plain scalar: a colon before a blank, or an
indicator inside a flow collection. -/
def plainRun (flow : Bool) : List Char → List Char
  | [] => []
  | c :: cs =>
    if isSpaceOrTab c || isBreak c then []
    else if c = ':' && (atBlank cs || (flow && cs.head?.any fun d => d = '?' || isFlowIndicator d)) then []
    else if flow && isFlowIndicator c then []
    else c :: plainRun flow cs

/-- Whether a colon stands right before an indicator inside a flow collection. -/
def badColon (flow : Bool) : List Char → Bool
  | ':' :: d :: _ => flow && (d = '?' || isFlowIndicator d)
  | _ => false

/-- A plain scalar from here on: its text, the place after it, and whether a line was ended after its
last piece. -/
def readPlain (flow : Bool) (indent : Int) :
    Nat → Cursor → List Char → Gap → Except Fault (List Char × Cursor × Bool)
  | 0, c, done, gap => .ok (done, c, gap.broken)
  | fuel + 1, c, done, gap =>
    if c.atDocumentMark || c.rest.head? = some '#' then .ok (done, c, gap.broken)
    else
      let run := plainRun flow c.rest
      let c' := c.advance run.length
      if badColon flow c'.rest then .error .plainColon
      else if run.isEmpty then .ok (done, c', gap.broken)
      else
        let done := done ++ gap.text ++ run
        if c'.rest.isEmpty || !atBlank c'.rest then .ok (done, c', false)
        else
          match readGap indent c'.rest.length c' {} with
          | .error e => .error e
          | .ok (gap, c'') =>
            if !flow && decide ((c''.column : Int) < indent) then .ok (done, c'', gap.broken)
            else readPlain flow indent fuel c'' done gap

/-- The characters that one letter after a backslash stands for. -/
def escapeLetter? (c : Char) : Option Char :=
  match c with
  | '0' => some (Char.ofNat 0)
  | 'a' => some (Char.ofNat 7)
  | 'b' => some (Char.ofNat 8)
  | 't' | '\t' => some '\t'
  | 'n' => some '\n'
  | 'v' => some (Char.ofNat 11)
  | 'f' => some (Char.ofNat 12)
  | 'r' => some '\r'
  | 'e' => some (Char.ofNat 27)
  | ' ' => some ' '
  | '"' => some '"'
  | '/' => some '/'
  | '\\' => some '\\'
  | 'N' => some (Char.ofNat 0x85)
  | '_' => some (Char.ofNat 0xA0)
  | 'L' => some (Char.ofNat 0x2028)
  | 'P' => some (Char.ofNat 0x2029)
  | _ => none

/-- How many hexadecimal digits follow a letter after a backslash. -/
def escapeDigits? (c : Char) : Option Nat :=
  match c with
  | 'x' => some 2
  | 'u' => some 4
  | 'U' => some 8
  | _ => none

/-- The character written after a backslash, and how long that is. -/
def readEscape (cs : List Char) : Except Fault (Char × Nat) :=
  match cs with
  | [] => .error .escape
  | c :: rest =>
    match escapeLetter? c, escapeDigits? c with
    | some ch, _ => .ok (ch, 1)
    | none, some n =>
      let digits := rest.take n
      match (if digits.length = n then Json.hexNumber? digits else none).bind Json.charOfCode? with
      | some ch => .ok (ch, n + 1)
      | none => .error .escape
    | none, none => .error .escape

/-- The characters of a quoted scalar up to the next blank or the closing quote. The last component
tells of a line break after a backslash, which counts for nothing. -/
def quotedRun (single : Bool) : Nat → Cursor → List Char → Except Fault (List Char × Cursor × Bool)
  | 0, c, done => .ok (done, c, false)
  | fuel + 1, c, done =>
    match c.rest with
    | [] => .ok (done, c, false)
    | ch :: cs =>
      if isSpaceOrTab ch || isBreak ch then .ok (done, c, false)
      else if single && ch = '\'' then
        if cs.head? = some '\'' then quotedRun single fuel (c.advance 2) (done ++ ['\''])
        else .ok (done, c, false)
      else if !single && ch = '"' then .ok (done, c, false)
      else if !single && ch = '\\' then
        if cs.head?.any isBreak then .ok (done, (c.advance 1).takeBreak.2, true)
        else
          match readEscape cs with
          | .error e => .error e
          | .ok (e, n) => quotedRun single fuel (c.advance (n + 1)) (done ++ [e])
      else quotedRun single fuel (c.advance 1) (done ++ [ch])

/-- A quoted scalar after its opening quote: its text and the place after it. -/
def readQuoted (single : Bool) : Nat → Cursor → List Char → Except Fault (List Char × Cursor)
  | 0, _, _ => .error .quoted
  | fuel + 1, c, done =>
    if c.atDocumentMark || c.rest.isEmpty then .error .quoted
    else
      match quotedRun single c.rest.length c done with
      | .error e => .error e
      | .ok (done, c, escaped) =>
        if c.rest.head? = some (if single then '\'' else '"') then .ok (done, c.advance 1)
        else
          match readGap 0 c.rest.length c { broken := escaped } with
          | .error e => .error e
          | .ok (gap, c) => readQuoted single fuel c (done ++ gap.text)

/-- What happens to the line breaks at the end of a block scalar. -/
inductive Chomping where
  | strip
  | clip
  | keep
deriving DecidableEq

/-- The header of a block scalar after its indicator: chomping and indentation in either order. -/
def blockHeader (cs : List Char) : Except Fault (Chomping × Nat × Nat) :=
  let chomping? : Char → Option Chomping
    | '+' => some .keep
    | '-' => some .strip
    | _ => none
  let digit? (c : Char) : Option Nat := if c.isDigit then some (c.toNat - '0'.toNat) else none
  match cs with
  | [] => .ok (.clip, 0, 0)
  | a :: rest =>
    let second := rest.head?
    match chomping? a, digit? a with
    | some chomping, _ =>
      match second.bind digit? with
      | some 0 => .error .blockHeader
      | some n => .ok (chomping, n, 2)
      | none => .ok (chomping, 0, 1)
    | none, some 0 => .error .blockHeader
    | none, some n =>
      match second.bind chomping? with
      | some chomping => .ok (chomping, n, 2)
      | none => .ok (.clip, n, 1)
    | none, none => .ok (.clip, 0, 0)

/-- Read the indentation and the empty lines before a line of a block scalar. An indentation of zero
is not known yet. Gives the widest indentation seen. -/
def blockBreaks (indent : Nat) :
    Nat → Cursor → Nat → List Char → Except Fault (Cursor × Nat × List Char)
  | 0, c, widest, breaks => .ok (c, widest, breaks)
  | fuel + 1, c, widest, breaks =>
    let spaces := (c.rest.takeWhile (· = ' ')).length
    let c := c.advance (if indent = 0 then spaces else min spaces (indent - c.column))
    let widest := max widest c.column
    if (indent = 0 || decide (c.column < indent)) && c.rest.head? = some '\t' then .error .tab
    else if c.rest.head?.any isBreak then
      let (b, c) := c.takeBreak
      blockBreaks indent fuel c widest (breaks ++ b)
    else .ok (c, widest, breaks)

/-- The lines of a block scalar. `lead` is the break that ended the line before, `breaks` are those
after it, and `spaced` tells whether that line started with a blank; lines that do not are folded. -/
def blockLines (literal : Bool) (indent : Nat) :
    Nat → Cursor → List Char → List Char → List Char → Bool →
      Except Fault (List Char × List Char × List Char × Cursor)
  | 0, c, done, lead, breaks, _ => .ok (done, lead, breaks, c)
  | fuel + 1, c, done, lead, breaks, spaced =>
    if c.column ≠ indent ∨ c.rest.isEmpty then .ok (done, lead, breaks, c)
    else
      let blank := c.rest.head?.any isSpaceOrTab
      let folded := !literal && lead = ['\n'] && !spaced && !blank
      let joint := if folded then if breaks.isEmpty then [' '] else [] else lead
      let line := c.rest.takeWhile fun ch => !isBreak ch
      let (lead, c) := (c.advance line.length).takeBreak
      match blockBreaks indent (c.rest.length + 1) c 0 [] with
      | .error e => .error e
      | .ok (c, _, next) =>
        blockLines literal indent fuel c (done ++ joint ++ breaks ++ line) lead next blank

/-- A block scalar after its indicator, inside a collection indented by `parent`. -/
def readBlock (literal : Bool) (parent : Int) (c : Cursor) : Except Fault (List Char × Cursor) := do
  let (chomping, increment, length) ← blockHeader c.rest
  let c := (c.advance length).skipWhile isSpaceOrTab
  let c := if c.rest.head? = some '#' then c.skipWhile (fun ch => !isBreak ch) else c
  if !atBreak c.rest then throw .blockHeader
  let c := c.takeBreak.2
  let given := if increment = 0 then 0 else (max parent 0).toNat + increment
  let (c, widest, breaks) ← blockBreaks given (c.rest.length + 1) c 0 []
  let indent := if given = 0 then max (max widest (parent + 1).toNat) 1 else given
  let (done, lead, breaks, c) ← blockLines literal indent (c.rest.length + 1) c [] [] breaks false
  let tail := match chomping with
    | .strip => []
    | .clip => lead
    | .keep => lead ++ breaks
  return (done ++ tail, c)

end PartyPlan.Yaml
