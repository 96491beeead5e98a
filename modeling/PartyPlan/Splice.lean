import PartyPlan.Plan.Edit

/-! Putting a node with one input into an edge, and taking it out again. A node put in is brought up
to date with its new parent. Children that change hands only look up their columns again; who holds
their output is left as it was. -/
namespace PartyPlan.Splice
open Edit

/-- A node of a unary kind with at most one parent and one child. -/
def requireUnaryShape (id : NodeId) : Edit Unit := do
  let n ← node id
  if n.kind.arity ≠ .unary ∨ 1 < n.parents.size ∨ 1 < n.children.size then
    throw (.precondition
      (.notUnaryShaped ((← plan).describe id) n.parents.size n.children.size))

/-- A unary-shaped node with no place in the graph yet. -/
def requireFresh (id : NodeId) : Edit Unit := do
  requireUnaryShape id
  let n ← node id
  let g ← plan
  if !n.parents.isEmpty || !n.children.isEmpty || decide (id ∈ g.roots) then
    throw (.precondition (.alreadyWired (g.describe id)))

def requireLink (p c : NodeId) : Edit Unit := do
  let g ← plan
  if !g.hasEdge p c then throw (.precondition (.noEdge (g.describe p) (g.describe c)))

/-- Look up the columns of a child that got a new parent. -/
def adopt (c old new : NodeId) : Edit Unit := do
  replaceParent c old new
  refreshColumns c

def childDetail : Option NodeId → String
  | some c => "Some(NodeId(" ++ toString c ++ "))"
  | none => "None"

def reportOn (id : NodeId) (pre post : String) (details : List (String × String)) : Edit Unit := do
  let n ← fetch id
  report { level := .debug, message := pre ++ n.output.name ++ post,
           details := ("node", nodeLabel id) :: details }

/-- Take a node out from between a parent and its child, if it has one. -/
def removeBetween (parent : NodeId) (child : Option NodeId) (id : NodeId) : Edit Unit := do
  requireUnaryShape id
  requireLink parent id
  match child with
  | some c => requireLink id c
  | none =>
    let n ← fetch id
    if !n.children.isEmpty then throw (.precondition (.hasChild ((← plan).describe id)))
  match child with
  | some c => adopt c id parent
  | none => pure ()
  isolate id
  reportOn id "removed " "" [("parent", nodeLabel parent), ("child", childDetail child)]

/-- Put a fresh node below a parent, and above one of its children if one is given. -/
def insertBetween (parent : NodeId) (child : Option NodeId) (id : NodeId) : Edit Unit := do
  requireFresh id
  require parent
  match child with
  | some c => requireLink parent c
  | none => pure ()
  link parent id
  refresh id
  match child with
  | some c => adopt c parent id
  | none => pure ()
  reportOn id "inserted " "" [("parent", nodeLabel parent), ("child", childDetail child)]

/-- Put a fresh node between a parent and all the children it has. -/
def insertBetweenChildren (parent id : NodeId) : Edit Unit := do
  requireFresh id
  let children := (← node parent).children
  link parent id
  refresh id
  children.toList.forM fun c => adopt c parent id
  reportOn id "inserted " " above fan-out"
    [("parent", nodeLabel parent), ("moved", toString children.size)]

end PartyPlan.Splice
