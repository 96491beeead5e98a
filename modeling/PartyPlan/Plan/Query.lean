import PartyPlan.Plan.Basic
import PartyPlan.ReadOrder

/-! Questions about the nodes of a plan. A node whose number is out of range is an error of its own
kind, told apart from a node that a caller names and the plan does not have. -/
namespace PartyPlan.Plan

/-- Whether a node needs a secure protocol: it cannot be computed locally, and its inputs are held by
more than one party. -/
def requiresMpc (g : Plan) (id : NodeId) : Except Error Bool := do
  let n ← g.fetch id
  if n.kind = .create ∨ n.isLocal then return false
  match n.op.arity with
  | .unary => return (g.inputRelation? id).any Relation.isShared
  | _ => return decide (1 < (Relation.holdersOf (n.parents.toList.filterMap g.output?)).size)

def isReversible (g : Plan) (id : NodeId) : Except Error Bool := do
  let n ← g.fetch id
  return n.op.isReversible (g.inputRelation? id)

/-- Whether some node of a list is secure and not of a given kind. Nodes after the first that is one
are not looked at. -/
def anySecure (g : Plan) (except : Kind) : List NodeId → Except Error Bool
  | [] => .ok false
  | id :: rest => do
    let n ← g.fetch id
    if n.isMpc ∧ n.kind ≠ except then return true else g.anySecure except rest

/-- A secure node with no secure parent but one that closes: a secure region starts here. -/
def isUpperBoundary (g : Plan) (id : NodeId) : Except Error Bool := do
  let n ← g.fetch id
  if n.isMpc then return !(← g.anySecure .closing n.parents.toList) else return false

/-- A secure node with no secure child but one that opens: a secure region ends here. -/
def isLowerBoundary (g : Plan) (id : NodeId) : Except Error Bool := do
  let n ← g.fetch id
  if n.isMpc then return !(← g.anySecure .opening n.children.toList) else return false

def isBoundary (g : Plan) (id : NodeId) : Except Error Bool := g.isUpperBoundary id

def nameOf (g : Plan) (id : NodeId) : String := ((g.output? id).map (·.name)).getD ""

/-- Whether one node comes before another by name, then by number. -/
def before (g : Plan) (a b : NodeId) : Bool :=
  g.nameOf a < g.nameOf b || (g.nameOf a == g.nameOf b && a < b)

/-- Put a node into a list sorted by name. -/
def insertByName (g : Plan) (a : NodeId) : List NodeId → List NodeId
  | [] => [a]
  | b :: bs => if g.before a b then a :: b :: bs else b :: g.insertByName a bs

def sortByName (g : Plan) : List NodeId → List NodeId
  | [] => []
  | a :: as => g.insertByName a (g.sortByName as)

/-- The first node of a list that sorting it by name looks up in vain. -/
def firstMissing? (g : Plan) (ids : List NodeId) : Option NodeId :=
  let members := ids.toArray
  let falls (i : Nat) : Bool := match members[i]?, members[i - 1]? with
    | some a, some b => g.before a b
    | _, _ => false
  (ReadOrder.places members.size falls).findSome? fun i => members[i]?.filter (g.size ≤ ·)

/-- Sort nodes by name. Names are compared only where there are two nodes to compare, so a node on its
own is not looked up. -/
def sortedByName (g : Plan) (ids : List NodeId) : Except Error (List NodeId) :=
  match g.firstMissing? ids with
  | some id => .error (.outOfRange g.size id)
  | none => .ok (g.sortByName ids)

theorem firstMissing?_eq_none {g : Plan} {ids : List NodeId} (h : ∀ id ∈ ids, id < g.size) :
    g.firstMissing? ids = none := by
  refine List.findSome?_eq_none_iff.2 fun i _ => ?_
  rw [Option.filter_eq_none_iff]
  intro id hid
  have hmem : id ∈ ids := by simpa using Array.mem_of_getElem? hid
  simpa using h id hmem

/-- Sorting nodes that are all in the plan does not fail. -/
theorem sortedByName_eq_ok {g : Plan} {ids : List NodeId} (h : ∀ id ∈ ids, id < g.size) :
    g.sortedByName ids = .ok (g.sortByName ids) := by
  rw [sortedByName, firstMissing?_eq_none h]

def sortedChildren (g : Plan) (id : NodeId) : Except Error (List NodeId) := do
  let n ← g.fetch id
  g.sortedByName n.children.toList

def sortedParents (g : Plan) (id : NodeId) : Except Error (List NodeId) := do
  let n ← g.fetch id
  g.sortedByName n.parents.toList

end PartyPlan.Plan
