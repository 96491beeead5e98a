import PartyPlan.Build.Basic
import PartyPlan.Build.Derive
import PartyPlan.Codegen.Basic
import PartyPlan.Codegen.Listing
import PartyPlan.Config
import PartyPlan.Decimal.Binary64
import PartyPlan.Decimal.Layout
import PartyPlan.Decimal.Reader
import PartyPlan.Decimal.Shortest
import PartyPlan.Digest.Basic
import PartyPlan.Digest.Blake3
import PartyPlan.Error
import PartyPlan.Event
import PartyPlan.IdSet
import PartyPlan.Json.Basic
import PartyPlan.Json.Decode
import PartyPlan.Json.Digest
import PartyPlan.Json.Reader
import PartyPlan.Json.Text
import PartyPlan.Operator.Basic
import PartyPlan.Operator.Kind
import PartyPlan.Operator.Refresh
import PartyPlan.Optimize
import PartyPlan.Plan.Basic
import PartyPlan.Plan.Consistency
import PartyPlan.Plan.Edit
import PartyPlan.Plan.Fingerprint
import PartyPlan.Plan.Query
import PartyPlan.Plan.TopSort
import PartyPlan.Plan.Traversal
import PartyPlan.Proofs.Absorption
import PartyPlan.Proofs.Advisory
import PartyPlan.Proofs.Binding
import PartyPlan.Proofs.Bounds
import PartyPlan.Proofs.Caching
import PartyPlan.Proofs.Call
import PartyPlan.Proofs.ClearedPlan
import PartyPlan.Proofs.Clearing
import PartyPlan.Proofs.Coherence
import PartyPlan.Proofs.Columns
import PartyPlan.Proofs.Compose
import PartyPlan.Proofs.Current
import PartyPlan.Proofs.Decisions
import PartyPlan.Proofs.Dependable
import PartyPlan.Proofs.Derivation
import PartyPlan.Proofs.EdgeEdits
import PartyPlan.Proofs.Emission
import PartyPlan.Proofs.Extension
import PartyPlan.Proofs.Feeding
import PartyPlan.Proofs.Freshness
import PartyPlan.Proofs.Growth
import PartyPlan.Proofs.Idempotence
import PartyPlan.Proofs.Insertion
import PartyPlan.Proofs.Integrity
import PartyPlan.Proofs.JoinColumns
import PartyPlan.Proofs.Legible
import PartyPlan.Proofs.Linked
import PartyPlan.Proofs.Links
import PartyPlan.Proofs.Lookup
import PartyPlan.Proofs.Mapping
import PartyPlan.Proofs.Marking
import PartyPlan.Proofs.Marks
import PartyPlan.Proofs.Mirror
import PartyPlan.Proofs.Optimization
import PartyPlan.Proofs.Ordering
import PartyPlan.Proofs.Outcome
import PartyPlan.Proofs.Outline
import PartyPlan.Proofs.Reach
import PartyPlan.Proofs.Refreshing
import PartyPlan.Proofs.Refusal
import PartyPlan.Proofs.Regions
import PartyPlan.Proofs.Removal
import PartyPlan.Proofs.Renumbering
import PartyPlan.Proofs.Reordering
import PartyPlan.Proofs.Request
import PartyPlan.Proofs.Reversible
import PartyPlan.Proofs.RoundTrip
import PartyPlan.Proofs.Seats
import PartyPlan.Proofs.Serialization
import PartyPlan.Proofs.Sortable
import PartyPlan.Proofs.SpecialForm
import PartyPlan.Proofs.Substitution
import PartyPlan.Proofs.Trust
import PartyPlan.Proofs.Validity
import PartyPlan.Proofs.Walk
import PartyPlan.ReadOrder
import PartyPlan.Schema
import PartyPlan.Serial.Operator
import PartyPlan.Serial.Plan
import PartyPlan.Serial.Schema
import PartyPlan.Specialize
import PartyPlan.Splice
import PartyPlan.Text.Blank
import PartyPlan.Verify
import PartyPlan.Version
import PartyPlan.Width
import PartyPlan.Workflow.Assemble
import PartyPlan.Workflow.Basic
import PartyPlan.Workflow.Decode
import PartyPlan.Yaml.Cursor
import PartyPlan.Yaml.Node
import PartyPlan.Yaml.Scalar
import PartyPlan.Yaml.Token
import PartyPlan.Yaml.Value
