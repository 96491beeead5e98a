import PartyPlan.Codegen.Listing
import PartyPlan.Optimize
import PartyPlan.Proofs.Clearing
import PartyPlan.Proofs.Mapping

/-! Plans with every column trusted to nobody. Whether a join may be revealed, which nodes need a secure
protocol, whether the records agree, in which order nodes come and how they are listed is all found
without asking whom a column is trusted to. -/
namespace PartyPlan

def Node.cleared (n : Node) : Node := { n with op := n.op.cleared, output := n.output.cleared }

def Plan.cleared (g : Plan) : Plan := g.mapNodes Node.cleared

def GeneralJoin.cleared (j : GeneralJoin) : GeneralJoin := { j with keys := j.keys.cleared }

def GeneralAggregation.cleared (a : GeneralAggregation) : GeneralAggregation :=
  { a with spec := a.spec.cleared }

def FingerprintEntry.cleared (e : FingerprintEntry) : FingerprintEntry :=
  { e with output := e.output.cleared }

namespace Node

variable (n : Node)

@[simp] theorem kind_cleared : n.cleared.kind = n.kind := n.op.kind_cleared

@[simp] theorem helpers_cleared : n.cleared.op.helpers = n.op.helpers := n.op.helpers_cleared

@[simp] theorem arity_cleared : n.cleared.op.arity = n.op.arity := n.op.arity_cleared

@[simp] theorem sources_cleared : n.cleared.sources = n.sources := by
  rw [sources, helpers_cleared, sources]
  rfl

theorem unseen_cleared : Unseen cleared where
  children _ := rfl
  name _ := rfl
  describe n := by
    rw [describe, kind_cleared, describe]
    rfl

end Node

namespace Plan

variable (g : Plan)

@[simp] theorem size_cleared : g.cleared.size = g.size := size_mapNodes

theorem get?_cleared (i : NodeId) : g.cleared.get? i = (g.get? i).map Node.cleared := get?_mapNodes i

theorem node_cleared (i : NodeId) : g.cleared.node i = (g.node i).map Node.cleared := node_mapNodes i

theorem fetch_cleared (i : NodeId) : g.cleared.fetch i = (g.fetch i).map Node.cleared :=
  fetch_mapNodes i

@[simp] theorem describe_cleared (i : NodeId) : g.cleared.describe i = g.describe i :=
  describe_mapNodes Node.unseen_cleared i

@[simp] theorem topSort_cleared (byName : Bool) : g.cleared.topSort byName = g.topSort byName :=
  topSort_mapNodes Node.unseen_cleared

theorem output?_cleared (i : NodeId) : g.cleared.output? i = (g.output? i).map Relation.cleared := by
  rw [output?, output?, get?_cleared, Option.map_map, Option.map_map]
  rfl

@[simp] theorem hasEdge_cleared (p c : NodeId) : g.cleared.hasEdge p c = g.hasEdge p c := by
  rw [hasEdge, hasEdge, get?_cleared]
  cases g.get? p <;> rfl

/-! Changes of a plan. -/

theorem update_cleared (i : NodeId) (f f' : Node → Node) (h : ∀ n, f' n.cleared = (f n).cleared) :
    g.cleared.update i f' = (g.update i f).cleared := by
  refine ext_get? rfl fun j => ?_
  rw [get?_update, get?_cleared, get?_cleared, get?_update]
  by_cases hj : i = j
  · rw [if_pos hj, if_pos hj, Option.map_map, Option.map_map]
    exact congrArg (Option.map · (g.get? j)) (funext h)
  · rw [if_neg hj, if_neg hj]

theorem push_cleared (op : Operator) (r : Relation) :
    g.cleared.push op.cleared r.cleared = (g.push op r).cleared := by
  refine ext_get? rfl fun j => ?_
  rw [get?_push, get?_cleared, get?_cleared, get?_push, size_cleared]
  by_cases hj : j = g.size
  · rw [if_pos hj, if_pos hj]
    simp [Node.detached, Node.cleared]
  · rw [if_neg hj, if_neg hj]

theorem addEdge_cleared (p c : NodeId) : g.cleared.addEdge p c = (g.addEdge p c).cleared := by
  rw [addEdge, update_cleared _ p (.withChild c) _ fun _ => rfl,
    update_cleared _ c (.withParent p) _ fun _ => rfl, addEdge]

theorem moveEdge_cleared (c old new : NodeId) :
    g.cleared.moveEdge c old new = (g.moveEdge c old new).cleared := by
  have hreplaced : ∀ n : Node, n.cleared.withParentReplaced old new =
      (n.withParentReplaced old new).cleared := by
    intro n
    simp [Node.withParentReplaced, Node.cleared]
  rw [moveEdge, update_cleared _ old (.withoutChild c) _ fun _ => rfl,
    update_cleared _ new (.withChild c) _ fun _ => rfl, update_cleared _ c _ _ hreplaced, moveEdge]

/-! What is read off a plan. -/

theorem operatorInputs_cleared (i : NodeId) :
    g.cleared.operatorInputs i = (g.operatorInputs i).cleared := by
  have hread : ∀ slot : Node → Option NodeId, (∀ n : Node, slot n.cleared = slot n) →
      ((g.cleared.get? i).bind slot).bind g.cleared.output? =
        (((g.get? i).bind slot).bind g.output?).map Relation.cleared := by
    intro slot hslot
    rw [get?_cleared]
    cases g.get? i with
    | none => rfl
    | some n =>
      simp only [Option.map_some, Option.bind_some, hslot]
      cases slot n with
      | none => rfl
      | some p => exact g.output?_cleared p
  simp only [operatorInputs, InputRelations.cleared, inputRelation?, leftRelation?, rightRelation?]
  rw [hread _ fun _ => rfl, hread _ fun _ => rfl, hread _ fun _ => rfl]

theorem filterMap_output?_cleared (ids : List NodeId) :
    ids.filterMap g.cleared.output? = (ids.filterMap g.output?).map Relation.cleared := by
  rw [List.map_filterMap]
  exact List.filterMap_congr fun i _ => g.output?_cleared i

theorem requiresMpc_cleared (i : NodeId) : g.cleared.requiresMpc i = g.requiresMpc i := by
  have hinput : (g.cleared.inputRelation? i).any Relation.isShared =
      (g.inputRelation? i).any Relation.isShared := by
    have hprimary : g.cleared.inputRelation? i = (g.inputRelation? i).map Relation.cleared :=
      congrArg InputRelations.primary (g.operatorInputs_cleared i)
    rw [hprimary]
    cases g.inputRelation? i <;> rfl
  rw [requiresMpc, requiresMpc, fetch_cleared, hinput]
  refine bind_map fun n => ?_
  rw [filterMap_output?_cleared, Relation.holdersOf_cleared, n.kind_cleared, n.arity_cleared]
  rfl

theorem generalJoin_cleared (i : NodeId) :
    g.cleared.generalJoin i = (g.generalJoin i).map GeneralJoin.cleared := by
  rw [generalJoin, generalJoin, node_cleared, describe_cleared]
  refine map_bind_map fun n => ?_
  obtain ⟨_, op, _, _, _, inputs, _, _⟩ := n
  cases op with
  | join keys =>
    cases inputs with
    | binary left right => cases left <;> cases right <;> rfl
    | unary | nary => rfl
  | _ => rfl

theorem generalAggregation_cleared (i : NodeId) :
    g.cleared.generalAggregation i = (g.generalAggregation i).map GeneralAggregation.cleared := by
  rw [generalAggregation, generalAggregation, node_cleared, describe_cleared]
  refine map_bind_map fun n => ?_
  obtain ⟨_, op, _, _, _, inputs, _, _⟩ := n
  cases op with
  | aggregate spec =>
    cases inputs with
    | unary input => cases input <;> rfl
    | binary | nary => rfl
  | _ => rfl

/-- Whether a join may be revealed is a matter of who holds what. -/
theorem revealCandidate_cleared (i : NodeId) : g.cleared.revealCandidate i = g.revealCandidate i := by
  rw [revealCandidate, revealCandidate, generalJoin_cleared, requiresMpc_cleared]
  cases g.generalJoin i with
  | error e => rfl
  | ok join =>
    refine congrArg (g.requiresMpc i >>= ·) (funext fun needed => ?_)
    cases needed with
    | false => rfl
    | true =>
      rw [fetch_cleared, fetch_cleared, fetch_cleared]
      refine bind_map fun n => ?_
      have hholders : n.cleared.output.holders = n.output.holders := rfl
      rw [hholders]
      rcases n.output.holders.toList with _ | ⟨recipient, _ | ⟨other, rest⟩⟩
      · rfl
      · refine bind_map fun left => ?_
        by_cases hl : left.output.holders = n.output.holders
        · exact (if_pos hl).trans (if_pos hl).symm
        · refine (if_neg hl).trans (Eq.trans ?_ (if_neg hl).symm)
          exact bind_map fun right => rfl
      · rfl

/-! Whether the records agree. -/

theorem checkEach_map {α β : Type} {k : α → β} {check : α → Except Error Unit}
    {check' : β → Except Error Unit} (h : ∀ a, check' (k a) = check a) (l : List α) :
    checkEach check' (l.map k) = checkEach check l := by
  induction l with
  | nil => rfl
  | cons a l ih => rw [List.map_cons, checkEach, checkEach, h, ih]

theorem checkParent_cleared (i p : NodeId) : g.cleared.checkParent i p = g.checkParent i p := by
  rw [checkParent, checkParent, node_cleared, describe_cleared, describe_cleared]
  cases g.node p <;> rfl

theorem checkChild_cleared (i c : NodeId) : g.cleared.checkChild i c = g.checkChild i c := by
  rw [checkChild, checkChild, node_cleared, describe_cleared, describe_cleared]
  cases g.node c <;> rfl

theorem checkRoot_cleared (i : NodeId) : g.cleared.checkRoot i = g.checkRoot i := by
  rw [checkRoot, checkRoot, node_cleared, describe_cleared]
  cases g.node i <;> rfl

theorem checkNode_cleared (n : Node) : g.cleared.checkNode n.cleared = g.checkNode n := by
  have hhelpers : boundHelpers n.cleared = boundHelpers n := by
    rw [boundHelpers, n.helpers_cleared, boundHelpers]
    rfl
  have hparents : g.cleared.checkParent n.cleared.id = g.checkParent n.id :=
    funext (g.checkParent_cleared n.id)
  have hchildren : g.cleared.checkChild n.cleared.id = g.checkChild n.id :=
    funext (g.checkChild_cleared n.id)
  have hnamed : g.cleared.checkNamed n.cleared = g.checkNamed n := by
    rw [checkNamed, hhelpers, describe_cleared, checkNamed]
    rfl
  have hunnamed : g.cleared.checkUnnamed n.cleared = g.checkUnnamed n := by
    simp only [checkUnnamed, hhelpers, describe_cleared]
    rfl
  have hordered : g.cleared.checkOrdered n.cleared = g.checkOrdered n := by
    rw [checkOrdered, describe_cleared, checkOrdered]
    rfl
  rw [checkNode, hparents, hchildren, hnamed, hunnamed, hordered, checkNode]
  rfl

theorem validate_cleared : g.cleared.validate = g.validate := by
  have hnodes : g.cleared.nodes.toList = g.nodes.toList.map Node.cleared := Array.toList_map
  have hroots : g.cleared.checkRoot = g.checkRoot := funext g.checkRoot_cleared
  rw [validate, hnodes, checkEach_map g.checkNode_cleared, hroots, validate]
  rfl

end Plan

/-! The listing. -/

namespace Listing

theorem names_cleared (columns : List Column) : names (columns.map Column.cleared) = names columns := by
  rw [names, List.map_map]
  rfl

theorem grouping_cleared (spec : Aggregation) : grouping spec.cleared = grouping spec := by
  rw [grouping, Aggregation.cleared, names_cleared]
  rfl

theorem arithmetic_cleared (spec : Arithmetic) (symbol : String) :
    arithmetic spec.cleared symbol = arithmetic spec symbol := by
  have hoperand : Operand.describe ∘ Operand.cleared = Operand.describe := by
    funext o
    cases o <;> rfl
  rw [arithmetic, Arithmetic.cleared, List.map_map, hoperand]
  rfl

theorem keyPairs_cleared (keys : JoinKeys) : keyPairs keys.cleared = keyPairs keys := by
  rw [keyPairs, JoinKeys.cleared, List.zip_map, List.map_map]
  rfl

theorem lastColumn_cleared (n : Node) : lastColumn n.cleared = lastColumn n := by
  have hlast : n.cleared.output.columns.getLast? = n.output.columns.getLast?.map Column.cleared :=
    List.getLast?_map
  rw [lastColumn, hlast, Option.map_map]
  rfl

theorem detail_cleared (n : Node) : detail n.kind n.cleared = detail n.kind n := by
  have hcolumns : n.cleared.output.columns.map Column.declaration =
      n.output.columns.map Column.declaration := List.map_map
  have hop : n.cleared.op = n.op.cleared := rfl
  have hlast := lastColumn_cleared n
  rw [Node.kind]
  generalize n.cleared = m at hcolumns hop hlast ⊢
  cases h : n.op with
  | create => exact congrArg (fun l => some (Text.join ", " l)) hcolumns
  | _ =>
    simp only [h, Operator.cleared] at hop
    simp [detail, Operator.kind, h, hop, hlast, grouping_cleared, names_cleared, arithmetic_cleared,
      keyPairs_cleared, Condition.cleared, Revelation.cleared]

theorem line_cleared (showIds : Bool) (g : Plan) (n : Node) (detail : String) :
    line showIds g.cleared n.cleared detail = line showIds g n detail := by
  have harguments : arguments g.cleared n.cleared = arguments g n := by
    rw [arguments, n.sources_cleared, g.filterMap_output?_cleared, List.map_map]
    rfl
  rw [line, harguments, n.kind_cleared]
  rfl

end Listing

namespace Plan

variable (g : Plan)

theorem emitAll_cleared (showIds : Bool) (order : List NodeId) :
    (Listing.backend showIds).emitAll g.cleared order = (Listing.backend showIds).emitAll g order := by
  induction order with
  | nil => rfl
  | cons i order ih =>
    funext s
    rw [Backend.emitAll, Backend.emitAll, fetch_cleared, ih]
    cases g.fetch i with
    | error e => rfl
    | ok n =>
      have hemit : (Listing.backend showIds).emit g.cleared n.cleared =
          (Listing.backend showIds).emit g n := by
        rw [Backend.emit, Backend.emit, Backend.emitAs, Backend.emitAs, n.kind_cleared]
        have hfragment : (Listing.backend showIds).fragment n.kind g.cleared n.cleared =
            (Listing.backend showIds).fragment n.kind g n := by
          have hline := funext (Listing.line_cleared showIds g n)
          simp only [Listing.backend, Listing.detail_cleared, hline]
        rw [hfragment]
        rfl
      have hemitted : ∀ code, Backend.emitted i n.cleared code = Backend.emitted i n code := by
        intro code
        rw [Backend.emitted, n.kind_cleared, Backend.emitted]
      simp only [Except.map, hemit, hemitted]

theorem fingerprintEntries_cleared (byName : Bool) :
    g.cleared.fingerprintEntries byName =
      (g.fingerprintEntries byName).map (List.map FingerprintEntry.cleared) := by
  have hsources : ∀ ids : List NodeId, ids.mapM g.cleared.fetch =
      (ids.mapM g.fetch).map (List.map Node.cleared) := by
    intro ids
    have h := mapM_map (k := id) g.fetch_cleared ids
    rwa [List.map_id] at h
  have hentry : ∀ i, g.cleared.fingerprintEntry i =
      (g.fingerprintEntry i).map FingerprintEntry.cleared := by
    intro i
    rw [fingerprintEntry, fingerprintEntry, fetch_cleared]
    refine map_bind_map fun n => ?_
    rw [n.sources_cleared, hsources]
    refine map_bind_map fun parents => ?_
    rw [n.kind_cleared, List.map_map]
    rfl
  rw [fingerprintEntries, fingerprintEntries, topSort_cleared]
  cases g.topSort byName with
  | error e => rfl
  | ok order =>
    have h := mapM_map (k := id) hentry order
    rwa [List.map_id] at h

/-- A listing does not show whom columns are trusted to. -/
theorem code_cleared (showIds : Bool) (job : String) (byName : Bool) :
    ((Listing.backend showIds).generate g.cleared job byName).1.map Job.code =
      ((Listing.backend showIds).generate g job byName).1.map Job.code := by
  rw [Backend.generate, Backend.generate, topSort_cleared]
  cases g.topSort byName with
  | error e => rfl
  | ok order =>
    simp only [emitAll_cleared, fingerprint, fingerprintEntries_cleared]
    rcases (Listing.backend showIds).emitAll g order (Listing.backend showIds).state with
      ⟨_ | code, events, s⟩
    · rfl
    · have hframe : (Listing.backend showIds).frame job code s =
          (.ok ("job " ++ job ++ "\n" ++ code), s) := rfl
      cases g.fingerprintEntries byName <;>
        simp only [hframe, Except.map, bind, Except.bind, pure, Except.pure]

end Plan
end PartyPlan
