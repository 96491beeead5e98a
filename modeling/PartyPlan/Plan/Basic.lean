import PartyPlan.Operator.Refresh

/-! Plans: nodes in a table, each with an operator, the relation it produces and its edges. An edge
is recorded at both ends, and once more among the inputs its lower end names. Nodes are never
dropped; one that no root leads to takes no part in the plan. -/
namespace PartyPlan

/-- The inputs a node names: one, a left and a right one, or several in order. -/
inductive Inputs where
  | unary (input : Option NodeId)
  | binary (left right : Option NodeId)
  | nary (ordered : List NodeId)
deriving DecidableEq

namespace Inputs

def vacant : Arity → Inputs
  | .unary => .unary none
  | .binary => .binary none none
  | .nary => .nary []

def ids : Inputs → List NodeId
  | .unary input => input.toList
  | .binary left right => left.toList ++ right.toList
  | .nary ordered => ordered

/-- Name a parent in the first free place: left before right, or last in order. -/
def attach (inputs : Inputs) (p : NodeId) : Inputs :=
  match inputs with
  | .unary none => .unary (some p)
  | .binary none right => .binary (some p) right
  | .binary left none => .binary left (some p)
  | .nary ordered => .nary (ordered ++ [p])
  | full => full

def drop (p : NodeId) (input : Option NodeId) : Option NodeId :=
  if input = some p then none else input

/-- Name a parent no more. An ordered list has no place to leave empty. -/
def detach (inputs : Inputs) (p : NodeId) : Except Error Inputs :=
  match inputs with
  | .unary input => .ok (.unary (drop p input))
  | .binary left right => .ok (.binary (drop p left) (drop p right))
  | .nary _ => .error .orderedRemoval

/-- Name `new` wherever `old` was named. -/
def replace (inputs : Inputs) (old new : NodeId) : Inputs :=
  match inputs with
  | .unary input => .unary (input.map (Operator.swap old new))
  | .binary left right =>
    .binary (left.map (Operator.swap old new)) (right.map (Operator.swap old new))
  | .nary ordered => .nary (ordered.map (Operator.swap old new))

@[simp] theorem ids_replace (inputs : Inputs) (old new : NodeId) :
    (inputs.replace old new).ids = inputs.ids.map (Operator.swap old new) := by
  cases inputs with
  | unary input => cases input <;> rfl
  | binary left right => cases left <;> cases right <;> rfl
  | nary ordered => rfl

@[simp] theorem ids_vacant (a : Arity) : (vacant a).ids = [] := by cases a <;> rfl

def arity : Inputs → Arity
  | .unary _ => .unary
  | .binary .. => .binary
  | .nary _ => .nary

end Inputs

structure Node where
  id : NodeId
  op : Operator
  output : Relation
  isLocal : Bool
  isMpc : Bool
  inputs : Inputs
  parents : NodeSet
  children : NodeSet
deriving DecidableEq

namespace Node

def kind (n : Node) : Kind := n.op.kind

/-- A node without edges, flagged by its kind. -/
def detached (id : NodeId) (op : Operator) (output : Relation) : Node :=
  { id, op, output, isLocal := op.kind.isLocal, isMpc := op.kind.isMpc,
    inputs := .vacant op.arity, parents := ∅, children := ∅ }

def input? (n : Node) : Option NodeId :=
  match n.inputs with
  | .unary input => input
  | _ => none

def left? (n : Node) : Option NodeId :=
  match n.inputs with
  | .binary left _ => left
  | _ => none

def right? (n : Node) : Option NodeId :=
  match n.inputs with
  | .binary _ right => right
  | _ => none

/-- Named inputs, then helpers. -/
def sources (n : Node) : List NodeId := n.inputs.ids ++ n.op.helpers

def describe (n : Node) : String :=
  n.kind.name ++ (if n.isMpc then "mpc" else "") ++ "->" ++ n.output.name

end Node

/-- A plan: its nodes, and the roots where reading it starts. -/
structure Plan where
  nodes : Array Node
  roots : NodeSet
deriving DecidableEq

namespace Plan

def empty : Plan := ⟨#[], ∅⟩

instance : EmptyCollection Plan := ⟨empty⟩
instance : Inhabited Plan := ⟨∅⟩

/-- The number of nodes, those out of reach included. -/
def size (g : Plan) : Nat := g.nodes.size

def get? (g : Plan) (id : NodeId) : Option Node := g.nodes[id]?

/-- The node of an identifier given by a caller. -/
def node (g : Plan) (id : NodeId) : Except Error Node :=
  match g.get? id with
  | some n => .ok n
  | none => .error (.unknownNode id)

/-- The node of an identifier taken to be valid. -/
def fetch (g : Plan) (id : NodeId) : Except Error Node :=
  match g.get? id with
  | some n => .ok n
  | none => .error (.outOfRange g.size id)

def describe (g : Plan) (id : NodeId) : String :=
  match g.get? id with
  | some n => n.describe ++ " (" ++ nodeLabel id ++ ")"
  | none => "<unknown " ++ nodeLabel id ++ ">"

/-- Change one node; an unknown one changes nothing. -/
def update (g : Plan) (id : NodeId) (f : Node → Node) : Plan :=
  { g with nodes := g.nodes.modify id f }

@[simp] theorem roots_update (g : Plan) (id : NodeId) (f : Node → Node) :
    (g.update id f).roots = g.roots := rfl

@[simp] theorem size_update (g : Plan) (id : NodeId) (f : Node → Node) :
    (g.update id f).size = g.size := by simp [update, size]

theorem get?_update (g : Plan) (id j : NodeId) (f : Node → Node) :
    (g.update id f).get? j = if id = j then (g.get? j).map f else g.get? j := by
  simp [update, get?, Array.getElem?_modify]

/-- Put a detached node at the end of the table. -/
def push (g : Plan) (op : Operator) (output : Relation) : Plan :=
  { g with nodes := g.nodes.push (.detached g.size op output) }

@[simp] theorem size_push (g : Plan) (op : Operator) (r : Relation) :
    (g.push op r).size = g.size + 1 := by simp [push, size]

@[simp] theorem roots_push (g : Plan) (op : Operator) (r : Relation) :
    (g.push op r).roots = g.roots := rfl

def hasEdge (g : Plan) (p c : NodeId) : Bool := (g.get? p).any fun n => decide (c ∈ n.children)

def output? (g : Plan) (id : NodeId) : Option Relation := (g.get? id).map (·.output)

def inputRelation? (g : Plan) (id : NodeId) : Option Relation :=
  ((g.get? id).bind Node.input?).bind g.output?

def leftRelation? (g : Plan) (id : NodeId) : Option Relation :=
  ((g.get? id).bind Node.left?).bind g.output?

def rightRelation? (g : Plan) (id : NodeId) : Option Relation :=
  ((g.get? id).bind Node.right?).bind g.output?

def inputRelations (g : Plan) (id : NodeId) : List Relation :=
  match g.get? id with
  | some n => n.inputs.ids.filterMap g.output?
  | none => []

/-- The relations an operator in this place would read. -/
def operatorInputs (g : Plan) (id : NodeId) : InputRelations :=
  { primary := g.inputRelation? id, left := g.leftRelation? id, right := g.rightRelation? id }

end Plan
end PartyPlan
