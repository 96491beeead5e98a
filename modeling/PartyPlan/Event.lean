/-! What the planner reports while it works. -/
namespace PartyPlan

inductive Level where
  | trace
  | debug
  | info
  | warn
deriving DecidableEq

structure Event where
  level : Level
  message : String
  details : List (String × String)
deriving DecidableEq

end PartyPlan
