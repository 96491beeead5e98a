import PartyPlan.Event
import PartyPlan.Plan.Basic

/-! Edits of a plan. An edit works on a draft: the plan as it stands and the events reported so far.
When an edit is refused midway, what it did before stays in the draft. -/
namespace PartyPlan

/-- A plan under work, and what was reported about the work. -/
structure Draft where
  plan : Plan
  journal : List Event := []
deriving DecidableEq

abbrev Edit := ExceptT Error (StateM Draft)

namespace Edit

/-- Do the work on a draft: the outcome, and the draft as it then is. -/
def apply (x : Edit α) (d : Draft) : Except Error α × Draft := StateT.run (ExceptT.run x) d

def plan : Edit Plan := do return (← get).plan

def change (f : Plan → Plan) : Edit Unit := modify fun d => { d with plan := f d.plan }

def report (e : Event) : Edit Unit := modify fun d => { d with journal := d.journal ++ [e] }

/-- Go on with a value, or be refused. -/
def settle (x : Except Error α) : Edit α := ExceptT.mk (pure x)

/-- Put a question to the plan as it stands. -/
def ask (question : Plan → Except Error α) : Edit α := do settle (question (← plan))

def node (id : NodeId) : Edit Node := ask (·.node id)

def fetch (id : NodeId) : Edit Node := ask (·.fetch id)

@[simp] theorem apply_pure (a : α) (d : Draft) : apply (pure a) d = (.ok a, d) := rfl

theorem apply_bind (x : Edit α) (f : α → Edit β) (d : Draft) :
    apply (x >>= f) d = match apply x d with
      | (.ok a, d') => apply (f a) d'
      | (.error e, d') => (.error e, d') := by
  unfold apply ExceptT.run StateT.run
  simp only [bind, ExceptT.bind, ExceptT.mk, StateT.bind, ExceptT.bindCont]
  cases x d with
  | mk result next => cases result <;> rfl

@[simp] theorem apply_throw (e : Error) (d : Draft) :
    apply (throw e : Edit α) d = (.error e, d) := rfl

@[simp] theorem apply_plan (d : Draft) : apply plan d = (.ok d.plan, d) := rfl

@[simp] theorem apply_change (f : Plan → Plan) (d : Draft) :
    apply (change f) d = (.ok (), { d with plan := f d.plan }) := rfl

@[simp] theorem apply_report (e : Event) (d : Draft) :
    apply (report e) d = (.ok (), { d with journal := d.journal ++ [e] }) := rfl

@[simp] theorem apply_settle (x : Except Error α) (d : Draft) :
    apply (settle x) d = (x, d) := rfl

@[simp] theorem apply_ask (q : Plan → Except Error α) (d : Draft) :
    apply (ask q) d = (q d.plan, d) := rfl

def require (id : NodeId) : Edit Unit := do let _ ← node id

end Edit

namespace Node

def withChild (c : NodeId) (n : Node) : Node := { n with children := n.children.insert c }

def withoutChild (c : NodeId) (n : Node) : Node := { n with children := n.children.erase c }

/-- A further parent, named in the next free place. -/
def withParent (p : NodeId) (n : Node) : Node :=
  { n with parents := n.parents.insert p, inputs := n.inputs.attach p }

/-- One parent less, with the named inputs as they are without it. -/
def withoutParent (p : NodeId) (inputs : Inputs) (n : Node) : Node :=
  { n with parents := n.parents.erase p, inputs }

/-- The parent `new` in every place of `old`. -/
def withParentReplaced (old new : NodeId) (n : Node) : Node :=
  { n with
    parents := (n.parents.erase old).insert new
    inputs := n.inputs.replace old new
    op := n.op.replaceHelper old new }

def withoutParents (n : Node) : Node := { n with parents := ∅ }

def withoutInputs (n : Node) : Node := { n with inputs := .vacant n.op.arity }

def heldBy (s : PartySet) (n : Node) : Node := { n with output := n.output.heldBy s }

end Node

namespace Plan

/-- Record an edge at both ends. -/
def addEdge (g : Plan) (p c : NodeId) : Plan :=
  (g.update p (.withChild c)).update c (.withParent p)

/-- Record at both ends that an edge is gone; `inputs` are what the child names without it. -/
def dropEdge (g : Plan) (p c : NodeId) (inputs : Inputs) : Plan :=
  (g.update c (.withoutParent p inputs)).update p (.withoutChild c)

/-- Let an edge to `c` start at `new` instead of `old`. -/
def moveEdge (g : Plan) (c old new : NodeId) : Plan :=
  ((g.update old (.withoutChild c)).update new (.withChild c)).update c
    (.withParentReplaced old new)

/-- The holders an output takes over from the inputs. Sources and operators that place their output
themselves take over none. -/
def derivedHolders? (g : Plan) (n : Node) (id : NodeId) : Option PartySet :=
  if n.kind.placesOutput then none
  else
    match n.op.arity with
    | .unary => (g.inputRelation? id).map (·.holders)
    | _ =>
      match g.inputRelations id with
      | [] => none
      | rels => some (Relation.holdersOf rels)

end Plan

namespace Edit

/-- Add a node without edges; it gets the next free number. -/
def addNode (op : Operator) (output : Relation) : Edit NodeId := do
  let g ← plan
  change (·.push op output)
  return g.size

def addRoot (id : NodeId) : Edit Unit := do
  require id
  change fun g => { g with roots := g.roots.insert id }

/-- Take a root away, and tell whether it was one. -/
def removeRoot (id : NodeId) : Edit Bool := do
  let g ← plan
  change fun g => { g with roots := g.roots.erase id }
  return decide (id ∈ g.roots)

def setFlags (id : NodeId) (isLocal isMpc : Option Bool) : Edit Unit := do
  require id
  change (·.update id fun n =>
    { n with isLocal := isLocal.getD n.isLocal, isMpc := isMpc.getD n.isMpc })

def link (p c : NodeId) : Edit Unit := do
  require p
  require c
  change (·.addEdge p c)

def requireEdge (p c : NodeId) : Edit Unit := do
  require p
  require c
  let g ← plan
  if g.hasEdge p c then return ()
  else throw (.precondition (.noEdge (g.describe p) (g.describe c)))

def removeParent (c p : NodeId) : Edit Unit := do
  requireEdge p c
  let n ← node c
  let inputs ← settle (n.inputs.detach p)
  change (·.dropEdge p c inputs)

/-- Let the edge from `old` to `c` come from `new`, which takes every place of `old`. -/
def replaceParent (c old new : NodeId) : Edit Unit := do
  requireEdge old c
  require new
  change (·.moveEdge c old new)

/-- Let the edge from `p` to `old` go to `new`. -/
def replaceChild (p old new : NodeId) : Edit Unit := do
  removeParent old p
  link p new

def makeOrphan (id : NodeId) : Edit Unit := do
  let n ← node id
  change (·.update id .withoutParents)
  n.parents.toList.forM fun p => do
    require p
    change (·.update p (.withoutChild id))
  change (·.update id .withoutInputs)

def isolate (id : NodeId) : Edit Unit := do
  makeOrphan id
  let n ← node id
  n.children.toList.forM fun c => removeParent c id

def setHolders (id : NodeId) (s : PartySet) : Edit Unit := do
  require id
  change (·.update id (.heldBy s))

/-- Look up again the columns a node's operator refers to. -/
def refreshColumns (id : NodeId) : Edit Unit := do
  let g ← plan
  let n ← node id
  let r := n.op.refresh (g.operatorInputs id)
  change (·.update id fun n => { n with op := r.value })
  settle r.outcome

/-- Let a node's output be held by whoever holds its inputs. -/
def refreshHolders (id : NodeId) : Edit Unit := do
  let g ← plan
  let n ← node id
  match g.derivedHolders? n id with
  | some s => setHolders id s
  | none => return ()

def refresh (id : NodeId) : Edit Unit := do
  refreshColumns id
  refreshHolders id

end Edit
end PartyPlan
