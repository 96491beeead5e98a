import PartyPlan.Config
import PartyPlan.Plan.Consistency
import PartyPlan.Plan.TopSort
import PartyPlan.Specialize

/-! The optimizing pass: joins take a special form where the settings allow one, and every node that
needs a secure protocol is marked. -/
namespace PartyPlan

structure OptimizeReport where
  hybridJoins : List NodeId := []
  revealJoins : List NodeId := []
  mpcMarked : Nat := 0
deriving DecidableEq

/-- What became of one node: a hybrid or a revealing join in its place, or nothing. -/
inductive Choice where
  | hybrid (id : NodeId)
  | reveal (id : NodeId)
  | unchanged
deriving DecidableEq

def OptimizeReport.add (r : OptimizeReport) : Choice → OptimizeReport
  | .hybrid id => { r with hybridJoins := r.hybridJoins ++ [id] }
  | .reveal id => { r with revealJoins := r.revealJoins ++ [id] }
  | .unchanged => r

namespace Optimize
open Edit

/-- Mark a node that needs a secure protocol and is not marked; tell by how many the marks grew. -/
def markNode (id : NodeId) : Edit Nat := do
  let n ← fetch id
  if n.isMpc then return 0
  if ← ask (·.requiresMpc id) then
    setFlags id none (some true)
    return 1
  return 0

def markAll : List NodeId → Edit Nat
  | [] => return 0
  | id :: rest => do
    let first ← markNode id
    return first + (← markAll rest)

/-- Mark every reachable node that needs a secure protocol; marks are never taken back. -/
def markMpc : Edit Nat := do
  let changed ← markAll (← ask (·.topSort true))
  report { level := .debug, message := "marked mpc nodes", details := [("changed", toString changed)] }
  return changed

def verify (cfg : Config) : Edit Unit := do
  if cfg.verifyChanges then ask (·.validate)

def tryHybrid (cfg : Config) (id : NodeId) : Edit (Option NodeId) := do
  if !cfg.hybridJoins then return none
  match ← ask (·.hybridCandidate id) with
  | none => return none
  | some party =>
    let new ← Specialize.hybridJoin id party
    verify cfg
    return some new

def tryReveal (cfg : Config) (id : NodeId) : Edit (Option NodeId) := do
  if !cfg.revealJoins then return none
  match ← ask (·.revealCandidate id) with
  | none => return none
  | some (side, party) =>
    let new ← Specialize.revealJoin id side party
    verify cfg
    return some new

def warnOf (id : NodeId) : Edit Unit := do
  if ← ask (·.requiresMpc id) then
    let n ← fetch id
    report { level := .warn, message := n.output.name ++ " stays a full secure join",
             details := [("join", nodeLabel id)] }

/-- Choose the form of a node: hybrid rather than revealing, for joins only. -/
def choose (cfg : Config) (id : NodeId) : Edit Choice := do
  let n ← fetch id
  if n.kind ≠ .join then return .unchanged
  if let some new ← tryHybrid cfg id then return .hybrid new
  if let some new ← tryReveal cfg id then return .reveal new
  warnOf id
  return .unchanged

def chooseAll (cfg : Config) : List NodeId → OptimizeReport → Edit OptimizeReport
  | [], r => return r
  | id :: rest, r => do
    let choice ← choose cfg id
    chooseAll cfg rest (r.add choice)

/-- Give joins the special forms the settings allow, in the order of the sorted plan, then mark. -/
def run (cfg : Config) : Edit OptimizeReport := do
  settle cfg.check
  let order ← ask (·.topSort cfg.deterministic)
  let r ← chooseAll cfg order {}
  let r := { r with mpcMarked := ← markMpc }
  report { level := .info, message := "optimized plan",
           details := [("hybrid", toString r.hybridJoins.length),
             ("reveal", toString r.revealJoins.length), ("mpc", toString r.mpcMarked)] }
  return r

end Optimize
end PartyPlan
