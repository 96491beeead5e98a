import PartyPlan.Build.Derive
import PartyPlan.Specialize

/-! Adding operators to a plan. Everything that can be refused is settled before the plan is
touched. -/
namespace PartyPlan.Build
open Edit

def outputOf (id : NodeId) : Edit Relation := do return (← node id).output

def attach (inputs : List NodeId) (d : Derived) : Edit NodeId := do
  let id ← addNode d.op d.output
  inputs.forM fun p => link p id
  return id

def unary (input : NodeId) (derive : Relation → Except Error Derived) : Edit NodeId := do
  let r ← outputOf input
  let d ← settle (derive r)
  attach [input] d

/-- A source of data; it becomes a root. -/
def create (name : String) (columns : List ColumnSpec) (holders : PartySet) : Edit NodeId := do
  let d ← settle (Derive.create name columns holders)
  let id ← addNode d.op d.output
  addRoot id
  return id

def aggregate (input : NodeId) (name : String) (groupBy : List String) (folded : String)
    (aggregator : Aggregator) (result : String) : Edit NodeId :=
  unary input fun r => Derive.aggregate r name groupBy folded aggregator result

def indexAggregate (input : NodeId) (name : String) (groupBy : List String) (folded : String)
    (aggregator : Aggregator) (result : String) (eqFlags sortedKeys : NodeId) : Edit NodeId := do
  require eqFlags
  require sortedKeys
  let id ← aggregate input name groupBy folded aggregator result
  Specialize.indexAggregate id eqFlags sortedKeys

def sortBy (input : NodeId) (name column : String) : Edit NodeId :=
  unary input fun r => Derive.sortBy r name column

def project (input : NodeId) (name : String) (columns : List String) : Edit NodeId :=
  unary input fun r => Derive.project r name columns

def distinct (input : NodeId) (name : String) (columns : List String) : Edit NodeId :=
  unary input fun r => Derive.distinct r name columns

def multiply (input : NodeId) (name target : String) (operands : List OperandSpec) : Edit NodeId :=
  unary input fun r => Derive.arithmetic .multiply r name target operands

def divide (input : NodeId) (name target : String) (operands : List OperandSpec) : Edit NodeId :=
  unary input fun r => Derive.arithmetic .divide r name target operands

def filter (input : NodeId) (name column : String) (comparison : Comparison) (expression : String) :
    Edit NodeId :=
  unary input fun r => Derive.filter r name column comparison expression

/-- A join on pairs of keys, of which there must be some. -/
def join (left right : NodeId) (name : String) (leftKeys rightKeys : List String) :
    Edit NodeId := do
  if leftKeys.isEmpty ∨ leftKeys.length ≠ rightKeys.length then
    throw (.argument (.keyLists name leftKeys.length rightKeys.length))
  let l ← outputOf left
  let r ← outputOf right
  let d ← settle (Derive.join l r name leftKeys rightKeys)
  attach [left, right] d

def indexJoin (left right : NodeId) (name : String) (leftKeys rightKeys : List String)
    (aligner : NodeId) : Edit NodeId := do
  require aligner
  let id ← join left right name leftKeys rightKeys
  Specialize.indexJoin id aligner

/-- Two or more different inputs on top of each other. -/
def concat (inputs : List NodeId) (name : String) (names : Option (List String)) :
    Edit NodeId := do
  if inputs.length < 2 then throw (.argument (.tooFewInputs name inputs.length))
  if ¬ inputs.Nodup then throw (.argument (.repeatedInput name))
  let rels ← inputs.mapM outputOf
  let d ← settle (Derive.concat rels name names)
  attach inputs d

def index (input : NodeId) (name column : String) : Edit NodeId :=
  unary input fun r => Derive.index r name column

def compareNeighbours (input : NodeId) (name column : String) : Edit NodeId :=
  unary input fun r => Derive.compareNeighbours r name column

def shuffle (input : NodeId) (name : String) : Edit NodeId :=
  unary input fun r => .ok (Derive.pass .shuffle r name)

def persist (input : NodeId) (name : String) : Edit NodeId :=
  unary input fun r => .ok (Derive.pass .persist r name)

def store (input : NodeId) (name : String) : Edit NodeId :=
  unary input fun r => .ok (Derive.pass .store r name)

/-- Share the input secretly among parties. -/
def closing (input : NodeId) (name : String) (parties : PartySet) : Edit NodeId :=
  unary input fun r => .ok (Derive.passTo .closing r name parties)

/-- Reveal the input to a party. -/
def opening (input : NodeId) (name : String) (party : Party) : Edit NodeId :=
  unary input fun r => .ok (Derive.passTo .opening r name (.singleton party))

def send (input : NodeId) (name : String) (parties : PartySet) : Edit NodeId :=
  unary input fun r => .ok (Derive.passTo .send r name parties)

/-- Deliver the output of a node to one party only. -/
def collect (id : NodeId) (party : Party) : Edit Unit := setHolders id (.singleton party)

end PartyPlan.Build
