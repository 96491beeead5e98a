import PartyPlan.Plan.Edit
import PartyPlan.Plan.Query

/-! Special forms of joins and aggregations. A special form is a new node with the output of the
general one; it takes over the parents and children, which keep their places, and the general node
is left without edges. -/
namespace PartyPlan

structure GeneralJoin where
  keys : JoinKeys
  left : NodeId
  right : NodeId
deriving DecidableEq

structure GeneralAggregation where
  spec : Aggregation
  input : NodeId
deriving DecidableEq

namespace Plan

def generalJoin (g : Plan) (id : NodeId) : Except Error GeneralJoin := do
  let n ← g.node id
  match n.op with
  | .join keys =>
    match n.left?, n.right? with
    | some left, some right => return { keys, left, right }
    | _, _ => .error (.precondition (.missingJoinInput (g.describe id)))
  | _ => .error (.precondition (.notGenericJoin (g.describe id)))

def generalAggregation (g : Plan) (id : NodeId) : Except Error GeneralAggregation := do
  let n ← g.node id
  match n.op with
  | .aggregate spec =>
    match n.input? with
    | some input => return { spec, input }
    | none => .error (.precondition (.noInput (g.describe id)))
  | _ => .error (.precondition (.notAggregation (g.describe id)))

/-- The party that could be shown one input of a join: it alone gets the output, and it alone holds
the other input. -/
def revealCandidate (g : Plan) (id : NodeId) : Except Error (Option (Side × Party)) :=
  match g.generalJoin id with
  | .error _ => .ok none
  | .ok join => do
    if !(← g.requiresMpc id) then return none
    let n ← g.fetch id
    match n.output.holders.toList with
    | [recipient] =>
      if (← g.fetch join.left).output.holders = n.output.holders then
        return some (.right, recipient)
      else if (← g.fetch join.right).output.holders = n.output.holders then
        return some (.left, recipient)
      else return none
    | _ => return none

/-- The parties trusted with every column of a list; none if there are no columns. -/
def trustedWith : List Column → PartySet
  | [] => ∅
  | [c] => c.colluders
  | c :: cs => c.colluders.inter (trustedWith cs)

/-- The least party trusted with every key of a join. -/
def hybridCandidate (g : Plan) (id : NodeId) : Except Error (Option Party) :=
  match g.generalJoin id with
  | .error _ => .ok none
  | .ok join => do
    if !(← g.requiresMpc id) then return none
    return (trustedWith (join.keys.left ++ join.keys.right)).min?

end Plan

namespace Specialize
open Edit

def reportSpecialized (old new : NodeId) (moved : Nat) : Edit Unit := do
  let n ← fetch new
  report { level := .debug, message := "specialized " ++ n.output.name,
           details := [("old", nodeLabel old), ("new", nodeLabel new), ("kind", n.kind.name),
             ("children", toString moved)] }

/-- Put a new node in the place of an old one, below the given parents in order. The output is taken
over as it is, and only columns are looked up again. -/
def substitute (old : NodeId) (op : Operator) (parents : List NodeId) : Edit NodeId := do
  let n ← node old
  makeOrphan old
  let new ← addNode op n.output
  setFlags new none (if n.isMpc then some true else none)
  parents.forM fun p => link p new
  n.children.toList.forM fun c => do
    replaceParent c old new
    refreshColumns c
  refreshColumns new
  reportSpecialized old new n.children.size
  return new

def indexJoin (id aligner : NodeId) : Edit NodeId := do
  let join ← ask (·.generalJoin id)
  require aligner
  substitute id (.indexJoin join.keys aligner) [join.left, join.right, aligner]

/-- Show one input of a join to a party. -/
def revealJoin (id : NodeId) (side : Side) (recipient : Party) : Edit NodeId := do
  let join ← ask (·.generalJoin id)
  let shown ← node (side.pick join.left join.right)
  substitute id (.revealJoin join.keys { side, relation := shown.output, recipient })
    [join.left, join.right]

/-- Let a trusted party match the keys of a join. -/
def hybridJoin (id : NodeId) (trusted : Party) : Edit NodeId := do
  let join ← ask (·.generalJoin id)
  substitute id (.hybridJoin join.keys trusted) [join.left, join.right]

def indexAggregate (id eqFlags sortedKeys : NodeId) : Edit NodeId := do
  let agg ← ask (·.generalAggregation id)
  require eqFlags
  require sortedKeys
  substitute id (.indexAggregate agg.spec eqFlags sortedKeys) [agg.input, eqFlags, sortedKeys]

end Specialize
end PartyPlan
