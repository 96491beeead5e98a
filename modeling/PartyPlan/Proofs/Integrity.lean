import PartyPlan.Proofs.Compose
import PartyPlan.Proofs.Reach

/-! Whatever is called on a plan, in whatever order and whether or not it is refused, the records of
the plan stay in step, so that no reading of the plan runs into a node that is not there. -/
namespace PartyPlan

open Plan (Linked)

namespace Build
open Edit

theorem attach_linked (inputs : List NodeId) {d : Derived} (hd : d.output.WellFormed) :
    Keeps Linked Linked (attach inputs d) :=
  (addNode_linked d.op hd).bind fun id => (Keeps.forM (fun p => link_linked p id) inputs).bind
    fun _ => Keeps.pure id

end Build

namespace Specialize
open Edit

/-- The output of the new node is that of the old one, so it is well formed with it. -/
theorem substitute_linked (old : NodeId) (op : Operator) (parents : List NodeId) :
    Keeps Linked Linked (substitute old op parents) := by
  refine Meets.bind (M := fun n g => g.Linked ∧ n.output.WellFormed)
    (Meets.node (fun g n hg hn => ⟨hg, (hg.nodes old n hn).relation⟩) fun _ hg _ => hg) fun n => ?_
  refine Meets.of_fact fun hout => (makeOrphan_linked old).bind fun _ => ?_
  refine (addNode_linked op hout).bind fun new => (setFlags_linked new _ _).bind fun _ => ?_
  refine (Keeps.forM (fun p => link_linked p new) parents).bind fun _ => ?_
  have hchild : ∀ c, Keeps Linked Linked (do replaceParent c old new; refreshColumns c) :=
    fun c => (replaceParent_linked c old new).bind fun _ => refreshColumns_linked c
  refine (Keeps.forM hchild _).bind fun _ => (refreshColumns_linked new).bind fun _ => ?_
  refine Keeps.bind ?_ fun _ => Keeps.pure new
  exact (Keeps.fetch (fun _ hg => hg) new).bind fun _ => Keeps.report _

theorem indexJoin_linked (id aligner : NodeId) : Keeps Linked Linked (indexJoin id aligner) :=
  (Keeps.ask (fun _ hg => hg) _).bind fun _ => (Keeps.require (fun _ hg => hg) aligner).bind
    fun _ => substitute_linked id _ _

theorem revealJoin_linked (id : NodeId) (side : Side) (recipient : Party) :
    Keeps Linked Linked (revealJoin id side recipient) :=
  (Keeps.ask (fun _ hg => hg) _).bind fun _ => (Keeps.node (fun _ hg => hg) _).bind
    fun _ => substitute_linked id _ _

theorem hybridJoin_linked (id : NodeId) (trusted : Party) :
    Keeps Linked Linked (hybridJoin id trusted) :=
  (Keeps.ask (fun _ hg => hg) _).bind fun _ => substitute_linked id _ _

theorem indexAggregate_linked (id eqFlags sortedKeys : NodeId) :
    Keeps Linked Linked (indexAggregate id eqFlags sortedKeys) :=
  (Keeps.ask (fun _ hg => hg) _).bind fun _ => (Keeps.require (fun _ hg => hg) eqFlags).bind
    fun _ => (Keeps.require (fun _ hg => hg) sortedKeys).bind fun _ => substitute_linked id _ _

end Specialize

theorem Edit.upkeep_linked : Upkeep Linked Linked where
  refused := fun _ hg => hg
  source := fun hr => (addNode_linked _ hr).bind fun id => (addRoot_linked id).bind
    fun _ => Keeps.pure id
  attach := fun hd => (Build.attach_linked _ hd.output).mono (fun _ hg => hg.1) (fun _ _ hg => hg)
    fun _ _ hg => hg
  mark := fun id => setFlags_linked id _ _
  indexJoin := Specialize.indexJoin_linked
  revealJoin := Specialize.revealJoin_linked
  hybridJoin := Specialize.hybridJoin_linked
  indexAggregate := Specialize.indexAggregate_linked

namespace Splice
open Edit

variable {I R : Plan → Prop}

theorem requireUnaryShape_keeps (hR : ∀ g, I g → R g) (id : NodeId) :
    Keeps I R (requireUnaryShape id) := by
  refine (Keeps.node hR id).bind fun n => ?_
  split
  · exact Keeps.plan.bind fun _ => Keeps.throw hR _
  · exact Keeps.pure _

theorem requireFresh_keeps (hR : ∀ g, I g → R g) (id : NodeId) : Keeps I R (requireFresh id) := by
  refine (requireUnaryShape_keeps hR id).bind fun _ => (Keeps.node hR id).bind fun n => ?_
  refine Keeps.plan.bind fun g => ?_
  split
  · exact Keeps.throw hR _
  · exact Keeps.pure _

theorem requireLink_keeps (hR : ∀ g, I g → R g) (p c : NodeId) : Keeps I R (requireLink p c) := by
  refine Keeps.plan.bind fun g => ?_
  split
  · exact Keeps.throw hR _
  · exact Keeps.pure _

theorem reportOn_keeps (hR : ∀ g, I g → R g) (id : NodeId) (pre post : String)
    (details : List (String × String)) : Keeps I R (reportOn id pre post details) :=
  (Keeps.fetch hR id).bind fun _ => Keeps.report _

theorem adopt_linked (c old new : NodeId) : Keeps Linked Linked (adopt c old new) :=
  (replaceParent_linked c old new).bind fun _ => refreshColumns_linked c

theorem removeBetween_linked (parent : NodeId) (child : Option NodeId) (id : NodeId) :
    Keeps Linked Linked (removeBetween parent child id) := by
  have hR : ∀ g, Linked g → Linked g := fun _ hg => hg
  refine (requireUnaryShape_keeps hR id).bind fun _ => (requireLink_keeps hR parent id).bind
    fun _ => ?_
  have hend : Keeps Linked Linked (do
      isolate id
      reportOn id "removed " "" [("parent", nodeLabel parent), ("child", childDetail child)]) :=
    (isolate_linked id).bind fun _ => reportOn_keeps hR _ _ _ _
  cases child with
  | some c =>
    exact (requireLink_keeps hR id c).bind fun _ => (adopt_linked c id parent).bind fun _ => hend
  | none =>
    refine (Keeps.fetch hR id).bind fun n => ?_
    split
    · exact Keeps.plan.bind fun _ => Keeps.throw hR _
    · exact hend

theorem insertBetween_linked (parent : NodeId) (child : Option NodeId) (id : NodeId) :
    Keeps Linked Linked (insertBetween parent child id) := by
  have hR : ∀ g, Linked g → Linked g := fun _ hg => hg
  refine (requireFresh_keeps hR id).bind fun _ => (Keeps.require hR parent).bind fun _ => ?_
  have hend : Keeps Linked Linked (reportOn id "inserted " ""
      [("parent", nodeLabel parent), ("child", childDetail child)]) := reportOn_keeps hR _ _ _ _
  cases child with
  | some c =>
    refine (requireLink_keeps hR parent c).bind fun _ => (link_linked parent id).bind fun _ => ?_
    exact (refresh_linked id).bind fun _ => (adopt_linked c parent id).bind fun _ => hend
  | none => exact (link_linked parent id).bind fun _ => (refresh_linked id).bind fun _ => hend

theorem insertBetweenChildren_linked (parent id : NodeId) :
    Keeps Linked Linked (insertBetweenChildren parent id) := by
  have hR : ∀ g, Linked g → Linked g := fun _ hg => hg
  refine (requireFresh_keeps hR id).bind fun _ => (Keeps.node hR parent).bind fun n => ?_
  refine (link_linked parent id).bind fun _ => (refresh_linked id).bind fun _ => ?_
  refine (Keeps.forM (fun c => adopt_linked c parent id) _).bind fun _ => ?_
  exact reportOn_keeps hR _ _ _ _

end Splice

open Edit in
/-- Every call keeps the records in step, also one that is refused midway. -/
theorem Call.linked (c : Call) : Keeps Linked Linked c.run := by
  have done : ∀ {α : Type} {x : Edit α}, Keeps Linked Linked x →
      Keeps Linked Linked (do let _ ← x) := fun hx => hx.bind fun _ => Keeps.pure _
  cases c with
  | addNode op name columns holders =>
    exact done (addNode_linked op (Relation.stamped_wellFormed name columns holders))
  | addRoot id => exact addRoot_linked id
  | removeRoot id => exact done (removeRoot_linked id)
  | setFlags id isLocal isMpc => exact setFlags_linked id isLocal isMpc
  | link p c => exact link_linked p c
  | removeParent c p => exact removeParent_linked c p
  | replaceParent c old new => exact replaceParent_linked c old new
  | replaceChild p old new => exact replaceChild_linked p old new
  | makeOrphan id => exact makeOrphan_linked id
  | isolate id => exact isolate_linked id
  | setHolders id parties => exact setHolders_linked id parties
  | refreshColumns id => exact refreshColumns_linked id
  | refreshHolders id => exact refreshHolders_linked id
  | refresh id => exact refresh_linked id
  | build b => exact done (upkeep_linked.build b)
  | collect id party => exact setHolders_linked id _
  | removeBetween parent child id => exact Splice.removeBetween_linked parent child id
  | insertBetween parent child id => exact Splice.insertBetween_linked parent child id
  | insertBetweenChildren parent id => exact Splice.insertBetweenChildren_linked parent id
  | indexJoin id aligner => exact done (Specialize.indexJoin_linked id aligner)
  | revealJoin id side recipient => exact done (Specialize.revealJoin_linked id side recipient)
  | hybridJoin id trusted => exact done (Specialize.hybridJoin_linked id trusted)
  | indexAggregate id eqFlags sortedKeys =>
    exact done (Specialize.indexAggregate_linked id eqFlags sortedKeys)
  | markMpc => exact done upkeep_linked.markMpc
  | optimize cfg => exact done (upkeep_linked.optimize cfg)

theorem Reached.linked {Allowed : Draft → Call → Prop} {d : Draft} (h : Reached Allowed d) :
    d.plan.Linked := h.always .empty fun _ c _ hd => (Call.linked c).after hd

/-- Whatever calls are made from the start, and whether or not they are refused. -/
theorem Call.linked_afterAll (cs : List Call) : (Call.afterAll cs ⟨∅, []⟩).plan.Linked := by
  have hreached : Reached (fun _ _ => True) (Call.afterAll cs ⟨∅, []⟩) :=
    Reached.start.afterAll (Call.allAllowed_of_forall (fun _ _ => trivial) _)
  exact hreached.linked

namespace Plan

theorem Linked.inRange {g : Plan} (h : g.Linked) : g.InRange where
  parents := fun _ _ hp => h.edges.parent_lt hp
  children := fun _ _ hc => h.edges.child_lt hc
  roots := h.roots

structure Intact (g : Plan) : Prop where
  place : ∀ i n, g.get? i = some n → n.id = i
  parents : ∀ i n, g.get? i = some n → ∀ p ∈ n.parents, p < g.size
  children : ∀ i n, g.get? i = some n → ∀ c ∈ n.children, c < g.size
  roots : ∀ r ∈ g.roots, r < g.size
  edges : ∀ p c parent child, g.get? p = some parent → g.get? c = some child →
    (p ∈ child.parents ↔ c ∈ parent.children)
  named : ∀ i n, g.get? i = some n → ∀ p ∈ n.inputs.ids, p ∈ n.parents
  arity : ∀ i n, g.get? i = some n → n.inputs.arity = n.op.arity
  columns : ∀ i n, g.get? i = some n → ∀ k (c : Column), n.output.columns[k]? = some c →
    c.index = k ∧ c.owner = n.output.name

theorem Linked.intact {g : Plan} (h : g.Linked) : g.Intact where
  place := fun i n hn => (h.nodes i n hn).id
  parents := fun i n hn p hp => h.inRange.parents i p (parentsOf_eq hn ▸ hp)
  children := fun i n hn c hc => h.inRange.children i c (childrenOf_eq hn ▸ hc)
  roots := h.roots
  edges := fun p c parent child hp hc => by
    rw [← parentsOf_eq hc, ← childrenOf_eq hp]
    exact h.edges p c
  named := fun i n hn => (h.nodes i n hn).named
  arity := fun i n hn => (h.nodes i n hn).arity
  columns := fun i n hn => (h.nodes i n hn).relation

end Plan

/-- After any run of calls, refused ones among them, the plan is intact and can be read. -/
theorem reached_intact_and_readable {d : Draft} (h : Reached (fun _ _ => True) d) :
    d.plan.Intact ∧ d.plan.Readable := ⟨h.linked.intact, h.linked.inRange.readable⟩

/-- A run with a loop at a node, a link to a node that is not there, and a removal of all edges of a node
that is refused when those from above are gone and those below are not. -/
def tangle : List Call :=
  [.addNode .create "a" [] ∅, .addNode .concat "b" [] ∅, .addNode .concat "c" [] ∅, .addRoot 0,
    .link 0 1, .link 1 2, .link 2 2, .link 2 7, .isolate 1]

theorem tangle_intact_and_readable :
    let d := Call.afterAll tangle ⟨∅, []⟩
    (d.plan.hasEdge 0 1 = false ∧ d.plan.hasEdge 1 2 = true ∧ d.plan.hasEdge 2 2 = true) ∧
      d.plan.Intact ∧ d.plan.Readable :=
  ⟨by decide, reached_intact_and_readable (Reached.start.afterAll (by simp [tangle, Call.AllAllowed]))⟩

end PartyPlan
