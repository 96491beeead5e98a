/-! A place in a YAML text, and the classes of characters the format tells apart. -/
namespace PartyPlan.Yaml

/-- Why a text is not YAML of the kind read here. -/
inductive Fault where
  | character
  | tab
  | quoted
  | escape
  | blockHeader
  | plainColon
  | keyExpected
  | context
  | malformed
  | documents
  | unsupported
deriving DecidableEq

/-- Characters a text may hold. -/
def isPrintable (c : Char) : Bool :=
  let n := c.toNat
  n == 9 || n == 0xA || n == 0xD || (0x20 ≤ n && n ≤ 0x7E) || n == 0x85 ||
    (0xA0 ≤ n && n ≤ 0xD7FF) || (0xE000 ≤ n && n ≤ 0xFFFD) || 0x10000 ≤ n

def isBreak (c : Char) : Bool :=
  c = '\n' || c = '\r' || c.toNat == 0x85 || c.toNat == 0x2028 || c.toNat == 0x2029

def isSpaceOrTab (c : Char) : Bool := c = ' ' || c = '\t'

/-- Whether a text is at an end, a line break or a blank. -/
def atBlank : List Char → Bool
  | [] => true
  | c :: _ => isSpaceOrTab c || isBreak c

/-- Whether a text is at an end or a line break. -/
def atBreak : List Char → Bool
  | [] => true
  | c :: _ => isBreak c

/-- The length of a text in bytes of UTF-8. -/
def byteLength : List Char → Nat
  | [] => 0
  | c :: cs => c.utf8Size + byteLength cs

/-- A place in a text: what follows, and where it is. The offset counts bytes of UTF-8, the column
counts characters. -/
structure Cursor where
  rest : List Char
  offset : Nat := 0
  line : Nat := 0
  column : Nat := 0

namespace Cursor

/-- Go past characters within a line. -/
def advance (c : Cursor) (n : Nat) : Cursor :=
  { c with
    rest := c.rest.drop n
    offset := c.offset + byteLength (c.rest.take n)
    column := c.column + n }

/-- Go past a line break of one or two characters, and give the break as it counts in a text. -/
def takeBreak (c : Cursor) : List Char × Cursor :=
  match c.rest with
  | '\r' :: '\n' :: rest =>
    (['\n'], { c with rest, offset := c.offset + 2, line := c.line + 1, column := 0 })
  | ch :: rest =>
    (if ch.toNat == 0x2028 || ch.toNat == 0x2029 then [ch] else ['\n'],
      { c with rest, offset := c.offset + ch.utf8Size, line := c.line + 1, column := 0 })
  | [] => ([], c)

/-- Whether a line starts here with the mark of a document's start or end. -/
def atDocumentMark (c : Cursor) : Bool :=
  c.column == 0 &&
    match c.rest with
    | '-' :: '-' :: '-' :: rest => atBlank rest
    | '.' :: '.' :: '.' :: rest => atBlank rest
    | _ => false

/-- Go past the characters of a class within a line. -/
def skipWhile (c : Cursor) (p : Char → Bool) : Cursor := c.advance (c.rest.takeWhile p).length

end Cursor
end PartyPlan.Yaml
