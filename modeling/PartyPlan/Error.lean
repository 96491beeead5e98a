import PartyPlan.IdSet

/-! Why an operation on a plan is refused, and how each refusal reads. Nodes appear under the label
they had when the operation was refused. -/
namespace PartyPlan

def nodeLabel (id : NodeId) : String := "#" ++ toString id

def partyLabel (p : Party) : String := "p" ++ toString p

/-- Column lists that do not fit together. -/
inductive SchemaFault where
  | noCounterpart (column : String) (index : Nat) (relation : String) (width : Nat)
  | repeatedColumn (relation column : String)
  | columnTaken (relation column : String)
  | widthMismatch (output input : String) (width expected : Nat)
  | nameCount (output : String) (names width : Nat)
deriving DecidableEq

def SchemaFault.message : SchemaFault → String
  | noCounterpart column index relation width =>
    s!"column {column} (idx {index}) has no counterpart in relation '{relation}' with {width} columns"
  | repeatedColumn relation column => s!"relation '{relation}' declares column '{column}' twice"
  | columnTaken relation column => s!"'{relation}' already has a column named '{column}'"
  | widthMismatch output input width expected =>
    s!"concat '{output}': '{input}' has {width} columns, expected {expected}"
  | nameCount output names width => s!"concat '{output}': {names} column names for {width} columns"

/-- Arguments that no plan admits. -/
inductive ArgumentFault where
  | unknownType (text : String)
  | unknownAggregator (text : String)
  | unknownComparison (text : String)
  | noColumns (relation : String)
  | noOperands (relation : String)
  | targetNotFirst (column : String)
  | keyLists (output : String) (left right : Nat)
  | tooFewInputs (output : String) (count : Nat)
  | repeatedInput (output : String)
deriving DecidableEq

def ArgumentFault.message : ArgumentFault → String
  | unknownType text => s!"unknown scalar type '{text}'"
  | unknownAggregator text => s!"unknown aggregator '{text}'"
  | unknownComparison text => s!"unknown filter operator '{text}'"
  | noColumns relation => s!"relation '{relation}' declares no columns"
  | noOperands relation => s!"arithmetic on '{relation}' needs at least one operand"
  | targetNotFirst column => s!"existing target column '{column}' must be the first operand"
  | keyLists output left right =>
    s!"join '{output}' needs matching key lists, got {left} left and {right} right"
  | tooFewInputs output count => s!"concat '{output}' needs at least two inputs, got {count}"
  | repeatedInput output => s!"concat '{output}' lists the same input more than once"

/-- Shapes an edit of the graph asks for and does not find. -/
inductive Precondition where
  | noEdge (parent child : String)
  | notUnaryShaped (node : String) (parents children : Nat)
  | alreadyWired (node : String)
  | hasChild (node : String)
  | notGenericJoin (node : String)
  | missingJoinInput (node : String)
  | notAggregation (node : String)
  | noInput (node : String)
deriving DecidableEq

def Precondition.message : Precondition → String
  | noEdge parent child => s!"no edge {parent} -> {child}"
  | notUnaryShaped node parents children =>
    s!"{node} is not unary-shaped ({parents} parents, {children} children)"
  | alreadyWired node => s!"{node} is already wired into the graph"
  | hasChild node => s!"{node} still has a child; name it to reconnect"
  | notGenericJoin node => s!"{node} is not a generic join"
  | missingJoinInput node => s!"{node} is missing a join input"
  | notAggregation node => s!"{node} is not an aggregation"
  | noInput node => s!"{node} has no input"

/-- Ways in which the records of a graph contradict each other. -/
inductive Inconsistency where
  | parentUnaware (node parent : String)
  | childUnaware (node child : String)
  | strayInput (node : String) (input : NodeId)
  | unnamedParent (node parent : String)
  | repeatedInput (node : String)
  | rootWithParents (node : String)
  | targetVanished (index : Nat)
deriving DecidableEq

def Inconsistency.message : Inconsistency → String
  | parentUnaware node parent =>
    s!"{node} lists parent {parent} which does not list it as a child"
  | childUnaware node child => s!"{node} lists child {child} which does not list it as a parent"
  | strayInput node input => node ++ " names " ++ nodeLabel input ++ " as an input without an edge"
  | unnamedParent node parent => s!"{node} has parent {parent} missing from its named inputs"
  | repeatedInput node => s!"{node} has duplicate ordered parents"
  | rootWithParents node => s!"declared root {node} has parents"
  | targetVanished index => s!"target column {index} vanished"

inductive Error where
  | columnNotFound (relation column : String)
  | schema (fault : SchemaFault)
  | argument (fault : ArgumentFault)
  | cycle (node : String)
  | precondition (unmet : Precondition)
  | unknownNode (id : NodeId)
  | orderedRemoval
  | emptyIndexColumn
  | keyNotText
  | inconsistent (fault : Inconsistency)
  | outOfRange (size index : Nat)
deriving DecidableEq

def Error.message : Error → String
  | columnNotFound relation column => s!"column '{column}' not found in relation '{relation}'"
  | schema fault => "Schema error: " ++ fault.message
  | argument fault => "Invalid argument: " ++ fault.message
  | cycle node => s!"graph is not acyclic: cycle detected at '{node}'"
  | precondition unmet => "rewrite precondition violated: " ++ unmet.message
  | unknownNode id => "unknown node " ++ nodeLabel id
  | orderedRemoval => "operation not supported: removing a single parent from an ordered n-ary node"
  | emptyIndexColumn => "Invalid configuration: default_index_col must not be empty"
  | keyNotText => "Hashing error: key must be a string"
  | inconsistent fault => "Internal invariant failed: " ++ fault.message
  | outOfRange size index => s!"index out of bounds: the len is {size} but the index is {index}"

end PartyPlan
