import PartyPlan.Event
import PartyPlan.Plan.Fingerprint

/-! Code for a sorted plan, node by node, in the words of a backend. -/
namespace PartyPlan

inductive CodegenError where
  | plan (e : Error)
  | unsupported (backend : String) (kind : Kind) (node : NodeId)
deriving DecidableEq

def CodegenError.message : CodegenError → String
  | plan e => e.message
  | unsupported backend kind node =>
    backend ++ " backend cannot generate '" ++ kind.name ++ "' (" ++ nodeLabel node ++ ")"

/-- Work of a backend: it may fail, and it may change what the backend keeps in mind. -/
abbrev Work (σ α : Type) := σ → Except CodegenError α × σ

/-- A target of code generation: for each kind of operator the code of a node, where it has some, and
the frame around the code of all nodes. -/
structure Backend (σ : Type) where
  name : String
  state : σ
  fragment : Kind → Plan → Node → Option (Work σ String)
  frame : String → String → Work σ String := fun _ code s => (.ok code, s)

structure Job where
  name : String
  backend : String
  code : String
  ops : Nat
  codeDigest : Digest
  planFingerprint : Digest
deriving DecidableEq

namespace Backend

variable {σ : Type}

/-- The code of a node by the rule for a kind, which need not be the node's own. -/
def emitAs (b : Backend σ) (kind : Kind) (g : Plan) (n : Node) : Work σ String :=
  match b.fragment kind g n with
  | some work => work
  | none => fun s => (.error (.unsupported b.name n.kind n.id), s)

def emit (b : Backend σ) (g : Plan) (n : Node) : Work σ String := b.emitAs n.kind g n

def emitted (id : NodeId) (n : Node) (code : String) : Event :=
  { level := .trace, message := "emitted",
    details := [("node", nodeLabel id), ("kind", n.kind.name), ("bytes", toString code.utf8ByteSize)] }

/-- The code of the nodes of a list, one after the other, and a report for each of them up to the
first that has none. -/
def emitAll (b : Backend σ) (g : Plan) :
    List NodeId → σ → Except CodegenError String × List Event × σ
  | [], s => (.ok "", [], s)
  | id :: rest, s =>
    match g.fetch id with
    | .error e => (.error (.plan e), [], s)
    | .ok n =>
      match b.emit g n s with
      | (.error e, s) => (.error e, [], s)
      | (.ok code, s) =>
        let (later, events, s) := b.emitAll g rest s
        (later.map (code ++ ·), emitted id n code :: events, s)

def generated (job : Job) : Event :=
  { level := .debug, message := "generated job",
    details := [("job", job.name), ("backend", job.backend), ("ops", toString job.ops),
      ("code", job.codeDigest.short)] }

/-- The job for a plan, with what was reported on the way and what the backend then keeps in mind. -/
def generate (b : Backend σ) (g : Plan) (name : String) (deterministic : Bool) :
    Except CodegenError Job × List Event × σ :=
  match g.topSort deterministic with
  | .error e => (.error (.plan e), [], b.state)
  | .ok order =>
    match b.emitAll g order b.state with
    | (.error e, events, s) => (.error e, events, s)
    | (.ok code, events, s) =>
      match b.frame name code s with
      | (.error e, s) => (.error e, events, s)
      | (.ok code, s) =>
        match g.fingerprint deterministic with
        | .error e => (.error (.plan e), events, s)
        | .ok fingerprint =>
          let job : Job :=
            { name, backend := b.name, code, ops := order.length, codeDigest := .ofText code,
              planFingerprint := fingerprint }
          (.ok job, events ++ [generated job], s)

end Backend
end PartyPlan
