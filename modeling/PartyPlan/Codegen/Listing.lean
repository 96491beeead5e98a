import PartyPlan.Codegen.Basic

/-! A plan as plain text, one line per operator: what it makes, from what, by which parameters, and
who holds the result. -/
namespace PartyPlan.Listing

def names (columns : List Column) : String := Text.join ", " (columns.map (·.name))

def grouping (a : Aggregation) : String :=
  "group [" ++ names a.groupBy ++ "], " ++ a.aggregator.name ++ "(" ++ a.folded.name ++ ")"

def arithmetic (a : Arithmetic) (symbol : String) : String :=
  a.target.name ++ " = " ++ Text.join symbol (a.operands.map Operand.describe)

def keyPairs (k : JoinKeys) : String :=
  Text.join ", " ((k.left.zip k.right).map fun (l, r) => l.name ++ " = " ++ r.name)

def lastColumn (n : Node) : String := ((n.output.columns.getLast?).map (·.name)).getD ""

/-- The parameters of a node in the form for a kind. Kinds that show parameters of the operator have
no form for a node of another kind. -/
def detail (kind : Kind) (n : Node) : Option String :=
  match kind, n.op with
  | .create, _ => some (Text.join ", " (n.output.columns.map Column.declaration))
  | .store, _ | .persist, _ | .opening, _ | .closing, _ | .send, _ | .shuffle, _ | .concat, _ =>
    some ""
  | .aggregate, .aggregate spec => some (grouping spec ++ " as " ++ lastColumn n)
  | .indexAggregate, .indexAggregate spec _ _ => some (grouping spec)
  | .project, .project columns => some (names columns)
  | .index, .index column => some column
  | .multiply, .multiply spec => some (arithmetic spec " * ")
  | .divide, .divide spec => some (arithmetic spec " / ")
  | .filter, .filter c =>
    some (Text.trimEnd (c.column.name ++ " " ++ c.comparison.symbol ++ " " ++ c.expression))
  | .sortBy, .sortBy column => some column.name
  | .compareNeighbours, .compareNeighbours column => some column.name
  | .distinct, .distinct columns => some (names columns)
  | .join, .join keys => some (keyPairs keys)
  | .indexJoin, .indexJoin keys _ => some (keyPairs keys)
  | .revealJoin, .revealJoin keys revealed =>
    some (keyPairs keys ++ ", reveal " ++ revealed.relation.name ++ " to " ++
      partyLabel revealed.recipient)
  | .hybridJoin, .hybridJoin keys trusted => some (keyPairs keys ++ ", trusted " ++ partyLabel trusted)
  | _, _ => none

/-- A list without the repetitions of the item just before. -/
def withoutRuns : List String → List String
  | a :: b :: rest => if a = b then withoutRuns (b :: rest) else a :: withoutRuns (b :: rest)
  | short => short

def arguments (g : Plan) (n : Node) : List String :=
  withoutRuns ((n.sources.filterMap g.output?).map (·.name))

def line (showIds : Bool) (g : Plan) (n : Node) (detail : String) : String :=
  let args := arguments g n
  n.output.name ++ " = " ++ n.kind.name ++ "(" ++ Text.join ", " args ++
    (if detail ≠ "" ∧ args ≠ [] then "; " else "") ++ detail ++ ") @ " ++ partyList n.output.holders ++
    (if n.isMpc then " [mpc]" else "") ++ (if showIds then " " ++ nodeLabel n.id else "") ++ "\n"

/-- The listing as a backend; node numbers are shown on demand. -/
def backend (showIds : Bool) : Backend Unit :=
  { name := "explain"
    state := ()
    fragment := fun kind g n => (detail kind n).map fun text s => (.ok (line showIds g n text), s)
    frame := fun name code s => (.ok ("job " ++ name ++ "\n" ++ code), s) }

end PartyPlan.Listing
