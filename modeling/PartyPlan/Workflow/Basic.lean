import PartyPlan.Config

/-! Workflows: plans written down step by step. Every step names what it makes, and later steps
refer to it by that name. -/
namespace PartyPlan

/-- A column of a source, its type still as written. -/
structure ColumnDecl where
  name : String
  type : String
  colluders : List Party
deriving DecidableEq

/-- An operand as written: a number or the name of a column. -/
inductive OperandDecl where
  | int (n : Int)
  | float (x : Float)
  | column (name : String)
deriving DecidableEq

inductive Step where
  | create (name : String) (holders : List Party) (columns : List ColumnDecl)
  | project (name input : String) (columns : List String)
  | distinct (name input : String) (columns : List String)
  | aggregate (name input : String) (groupBy : List String) (folded aggregator result : String)
  | sortBy (name input column : String)
  | filter (name input column comparison expression : String)
  | multiply (name input target : String) (operands : List OperandDecl)
  | divide (name input target : String) (operands : List OperandDecl)
  | join (name left right : String) (leftKeys rightKeys : List String)
  | concat (name : String) (inputs : List String) (columns : Option (List String))
  | index (name input : String) (column : Option String)
  | shuffle (name input : String)
  | collect (input : String) (party : Party)
deriving DecidableEq

structure Workflow where
  config : Option Config
  steps : List Step
deriving DecidableEq

end PartyPlan
