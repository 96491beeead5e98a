import PartyPlan.Config
import PartyPlan.Json.Reader
import PartyPlan.Json.Text
import PartyPlan.Plan.Basic
import PartyPlan.Serial.Operator

/-! Plans and settings as JSON. Reading a plan checks no more than its shape: a plan may be read
whose records do not agree. -/
namespace PartyPlan

namespace Inputs

def encodeSlot : Option NodeId → Json := Json.ofOption Json.nat

def decodeSlot : Json → Option (Option NodeId) := Json.toOption? Json.toNat?

def encode : Inputs → Json
  | unary input => .tag "Unary" (encodeSlot input)
  | binary left right =>
    .tag "Binary" <| .obj [("left", encodeSlot left), ("right", encodeSlot right)]
  | nary ordered => .tag "Nary" (.ofList .nat ordered)

def decodeBinary (j : Json) : Option Inputs :=
  match j.record? ["left", "right"] 0 with
  | some [left, right] => do
    return .binary (← Json.withDefault? decodeSlot none left) (← Json.withDefault? decodeSlot none right)
  | _ => none

def decode (j : Json) : Option Inputs := do
  let (tag, payload) ← j.choice?
  let payload ← payload
  match tag with
  | "Unary" => return .unary (← decodeSlot payload)
  | "Binary" => decodeBinary payload
  | "Nary" => return .nary (← payload.toList? Json.toNat?)
  | _ => none

end Inputs

namespace Node

def encode (n : Node) : Json :=
  .obj [("id", .nat n.id), ("op", n.op.encode), ("out_rel", n.output.encode),
    ("is_local", .bool n.isLocal), ("is_mpc", .bool n.isMpc), ("inputs", n.inputs.encode),
    ("parents", .ofSet n.parents), ("children", .ofSet n.children)]

def decode (j : Json) : Option Node :=
  match j.record?
    ["id", "op", "out_rel", "is_local", "is_mpc", "inputs", "parents", "children"] 0 with
  | some [some id, some op, some output, some isLocal, some isMpc, some inputs, some parents,
      some children] => do
    return { id := ← id.toNat?, op := ← Operator.decode op, output := ← Relation.decode output,
             isLocal := ← isLocal.toBool?, isMpc := ← isMpc.toBool?,
             inputs := ← Inputs.decode inputs, parents := ← parents.toSet?,
             children := ← children.toSet? }
  | _ => none

end Node

namespace Plan

def encode (g : Plan) : Json :=
  .obj [("nodes", .ofList Node.encode g.nodes.toList), ("roots", .ofSet g.roots)]

def decode (j : Json) : Option Plan :=
  match j.record? ["nodes", "roots"] 0 with
  | some [some nodes, some roots] => do
    return { nodes := (← nodes.toList? Node.decode).toArray, roots := ← roots.toSet? }
  | _ => none

def toText (g : Plan) : String := g.encode.text

def ofText? (s : String) : Option Plan := (Json.read? s).bind decode

end Plan

namespace Config

def encode (c : Config) : Json :=
  .obj [("deterministic", .bool c.deterministic), ("verify_rewrites", .bool c.verifyChanges),
    ("hybrid_joins", .bool c.hybridJoins), ("reveal_joins", .bool c.revealJoins),
    ("default_index_col", .str c.defaultIndexColumn)]

def decode (j : Json) : Option Config :=
  match j.record?
    ["deterministic", "verify_rewrites", "hybrid_joins", "reveal_joins", "default_index_col"] 5 with
  | some [deterministic, verifyChanges, hybridJoins, revealJoins, defaultIndexColumn] => do
    return { deterministic := ← Json.withDefault? Json.toBool? true deterministic
             verifyChanges := ← Json.withDefault? Json.toBool? true verifyChanges
             hybridJoins := ← Json.withDefault? Json.toBool? true hybridJoins
             revealJoins := ← Json.withDefault? Json.toBool? true revealJoins
             defaultIndexColumn := ← Json.withDefault? Json.toStr? "index" defaultIndexColumn }
  | _ => none

end Config
end PartyPlan
