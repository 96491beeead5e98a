import PartyPlan.Plan.Consistency
import PartyPlan.Plan.Query

/-! Checks of plans and orders that a test or a careful caller makes. -/
namespace PartyPlan

/-- How a check fails. -/
inductive Violation where
  | misplaced (parent node : String)
  | inconsistent (e : Error)
  | attached (node : String) (parents children : NodeSet)
  | outOfRange (e : Error)
deriving DecidableEq

def nodeSetText (s : NodeSet) : String :=
  "\x7b" ++ Text.join ", " (s.toList.map fun id => "NodeId(" ++ toString id ++ ")") ++ "\x7d"

def Violation.message : Violation → String
  | misplaced parent node => s!"parent {parent} not placed before {node}"
  | inconsistent e => "graph invariant violated: " ++ e.message
  | attached node parents children =>
    node ++ " still has edges: parents " ++ nodeSetText parents ++ ", children " ++
      nodeSetText children
  | outOfRange e => e.message

namespace Verify

def fetch (g : Plan) (id : NodeId) : Except Violation Node :=
  match g.fetch id with
  | .ok n => .ok n
  | .error e => .error (.outOfRange e)

/-- Check that the parents of each node which stand in the order at all stand among those seen. -/
def topologicalFrom (g : Plan) (order : List NodeId) (seen : NodeSet) :
    List NodeId → Except Violation Unit
  | [] => .ok ()
  | id :: rest => do
    let n ← fetch g id
    match n.parents.toList.find? fun p => decide (p ∈ order ∧ ¬ p ∈ seen) with
    | some p => .error (.misplaced (g.describe p) (g.describe id))
    | none => topologicalFrom g order (seen.insert id) rest

def topological (g : Plan) (order : List NodeId) : Except Violation Unit :=
  topologicalFrom g order ∅ order

def consistent (g : Plan) : Except Violation Unit :=
  match g.validate with
  | .ok _ => .ok ()
  | .error e => .error (.inconsistent e)

def detached (g : Plan) (id : NodeId) : Except Violation Unit := do
  let n ← fetch g id
  if n.parents.isEmpty ∧ n.children.isEmpty then return ()
  else .error (.attached (g.describe id) n.parents n.children)

end Verify
end PartyPlan
