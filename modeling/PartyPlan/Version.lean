/-! The version of the planner. -/
namespace PartyPlan

def version : String := "0.1.0"

end PartyPlan
