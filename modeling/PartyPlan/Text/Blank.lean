/-! White space of running text, and removal of it at the ends of a string. -/
namespace PartyPlan.Text

/-- Characters with the Unicode property White_Space. -/
def isBlank (c : Char) : Bool :=
  let n := c.toNat
  (9 ≤ n && n ≤ 13) || n == 0x20 || n == 0x85 || n == 0xA0 || n == 0x1680 ||
    (0x2000 ≤ n && n ≤ 0x200A) || n == 0x2028 || n == 0x2029 || n == 0x202F || n == 0x205F ||
    n == 0x3000

def trimEnd (s : String) : String :=
  String.ofList (s.toList.reverse.dropWhile isBlank).reverse

def trim (s : String) : String :=
  String.ofList ((s.toList.dropWhile isBlank).reverse.dropWhile isBlank).reverse

def blank (s : String) : Bool := s.toList.all isBlank

/-- Letters A to Z made small; other characters stay. -/
def lower (s : String) : String := String.ofList (s.toList.map Char.toLower)

/-- Letters a to z made capital; other characters stay. -/
def upper (s : String) : String := String.ofList (s.toList.map Char.toUpper)

def join (sep : String) : List String → String
  | [] => ""
  | [s] => s
  | s :: rest => s ++ sep ++ join sep rest

@[simp] theorem join_nil (sep : String) : join sep [] = "" := rfl
@[simp] theorem join_singleton (sep s : String) : join sep [s] = s := rfl

end PartyPlan.Text
