import PartyPlan.Digest.Basic
import PartyPlan.Plan.TopSort
import PartyPlan.Serial.Plan

/-! The fingerprint of a plan: a digest of what its nodes do, in the order of the sorted plan, by
names and not by numbers. -/
namespace PartyPlan

structure FingerprintEntry where
  kind : Kind
  output : Relation
  isLocal : Bool
  isMpc : Bool
  parents : List String
deriving DecidableEq

def FingerprintEntry.encode (e : FingerprintEntry) : Json :=
  .obj [("kind", e.kind.encode), ("out_rel", e.output.encode), ("is_local", .bool e.isLocal),
    ("is_mpc", .bool e.isMpc), ("parents", .ofList .str e.parents)]

namespace Plan

def fingerprintEntry (g : Plan) (id : NodeId) : Except Error FingerprintEntry := do
  let n ← g.fetch id
  let parents ← n.sources.mapM g.fetch
  return { kind := n.kind, output := n.output, isLocal := n.isLocal, isMpc := n.isMpc,
           parents := parents.map (·.output.name) }

def fingerprintEntries (g : Plan) (deterministic : Bool) :
    Except Error (List FingerprintEntry) := do
  (← g.topSort deterministic).mapM g.fingerprintEntry

def fingerprint (g : Plan) (deterministic : Bool) : Except Error Digest := do
  let entries ← g.fingerprintEntries deterministic
  return .ofText (Json.ofList FingerprintEntry.encode entries).text

end Plan
end PartyPlan
