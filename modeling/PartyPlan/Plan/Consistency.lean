import PartyPlan.Plan.Basic

/-! Whether the records of a plan agree: both ends of every edge know it, every edge into a node is
among the inputs the node names or the helpers of its operator and these are all edges, ordered
inputs do not repeat, and roots have no parents. -/
namespace PartyPlan

/-- The first member of a list that is refused refuses the whole. -/
def checkEach (check : α → Except Error Unit) : List α → Except Error Unit
  | [] => .ok ()
  | a :: as =>
    match check a with
    | .ok _ => checkEach check as
    | .error e => .error e

/-- A list of checks holds when each of its members does. -/
theorem checkEach_eq_ok {check : α → Except Error Unit} {l : List α} :
    checkEach check l = .ok () ↔ ∀ a ∈ l, check a = .ok () := by
  induction l with
  | nil => simp [checkEach]
  | cons a as ih =>
    simp only [checkEach]
    cases h : check a with
    | ok u => simp [ih, h]
    | error e => simp [h]

namespace Plan

def refuseInconsistent (fault : Inconsistency) : Except Error Unit := .error (.inconsistent fault)

def checkParent (g : Plan) (id p : NodeId) : Except Error Unit :=
  match g.node p with
  | .error e => .error e
  | .ok parent =>
    if id ∈ parent.children then .ok ()
    else refuseInconsistent (.parentUnaware (g.describe id) (g.describe p))

def checkChild (g : Plan) (id c : NodeId) : Except Error Unit :=
  match g.node c with
  | .error e => .error e
  | .ok child =>
    if id ∈ child.parents then .ok ()
    else refuseInconsistent (.childUnaware (g.describe id) (g.describe c))

/-- The helpers that have to be parents. A node without parents may refer to helpers it once had. -/
def boundHelpers (n : Node) : List NodeId := if n.parents.isEmpty then [] else n.op.helpers

def checkNamed (g : Plan) (n : Node) : Except Error Unit :=
  match (n.inputs.ids ++ boundHelpers n).find? fun p => decide (¬ p ∈ n.parents) with
  | some p => refuseInconsistent (.strayInput (g.describe n.id) p)
  | none => .ok ()

def checkUnnamed (g : Plan) (n : Node) : Except Error Unit :=
  match n.parents.toList.find? fun p => decide (¬ p ∈ n.inputs.ids ++ boundHelpers n) with
  | some p => refuseInconsistent (.unnamedParent (g.describe n.id) (g.describe p))
  | none => .ok ()

def checkOrdered (g : Plan) (n : Node) : Except Error Unit :=
  match n.inputs with
  | .nary ordered =>
    if ordered.Nodup then .ok () else refuseInconsistent (.repeatedInput (g.describe n.id))
  | _ => .ok ()

def checkNode (g : Plan) (n : Node) : Except Error Unit := do
  checkEach (g.checkParent n.id) n.parents.toList
  checkEach (g.checkChild n.id) n.children.toList
  g.checkNamed n
  g.checkUnnamed n
  g.checkOrdered n

def checkRoot (g : Plan) (id : NodeId) : Except Error Unit :=
  match g.node id with
  | .error e => .error e
  | .ok n =>
    if n.parents.isEmpty then .ok () else refuseInconsistent (.rootWithParents (g.describe id))

/-- Check the nodes in the order of the table, then the roots. -/
def validate (g : Plan) : Except Error Unit := do
  checkEach g.checkNode g.nodes.toList
  checkEach g.checkRoot g.roots.toList

end Plan
end PartyPlan
