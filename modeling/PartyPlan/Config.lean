import PartyPlan.Error
import PartyPlan.Text.Blank

/-! Settings of the planner. -/
namespace PartyPlan

/-- Settings of the planner, all on unless said otherwise. -/
structure Config where
  deterministic : Bool := true
  verifyChanges : Bool := true
  hybridJoins : Bool := true
  revealJoins : Bool := true
  defaultIndexColumn : String := "index"
deriving DecidableEq

namespace Config

/-- The name of the default index column must not be blank. -/
def check (c : Config) : Except Error Unit :=
  if Text.blank c.defaultIndexColumn then .error .emptyIndexColumn else .ok ()

/-- Read a switch; blanks around it and its case do not matter. -/
def parseFlag (s : String) : Option Bool :=
  match Text.lower (Text.trim s) with
  | "1" | "true" | "yes" | "on" => some true
  | "0" | "false" | "no" | "off" => some false
  | _ => none

/-- Settings from environment variables with a common beginning. A variable that is unset or says
nothing understood leaves the default. -/
def ofEnvironment (beginning : String) (lookup : String → Option String) : Config :=
  let flag (name : String) : Bool := ((lookup (beginning ++ name)).bind parseFlag).getD true
  { deterministic := flag "DETERMINISTIC"
    verifyChanges := flag "VERIFY_REWRITES"
    hybridJoins := flag "HYBRID_JOINS"
    revealJoins := flag "REVEAL_JOINS"
    defaultIndexColumn :=
      match lookup (beginning ++ "DEFAULT_INDEX_COL") with
      | some s => if Text.blank s then "index" else s
      | none => "index" }

end Config
end PartyPlan
