import PartyPlan.Proofs.Current

/-! Column references never go stale. Linking a node or giving it another parent is the only work that
can leave its references behind, and every such step is followed by a look-up, so after work that was
not refused all references stand in the inputs their nodes now name. -/
namespace PartyPlan

/-- An intact plan whose references are current, save those of nodes still to be looked after. -/
structure Plan.FreshBut (S : NodeId → Prop) (g : Plan) : Prop where
  linked : g.Linked
  current : g.CurrentBut S

abbrev Plan.Fresh : Plan → Prop := Plan.FreshBut fun _ => False

namespace Edit

open Plan (Linked Fresh FreshBut)

variable {S T : NodeId → Prop}

/-- Records stay in step whatever happens, so only references are left to be followed. -/
theorem fresh_of_linked {α : Type} {x : Edit α} (hl : Keeps Linked Linked x)
    (hc : Meets (FreshBut S) x (fun _ g => g.CurrentBut T) fun _ _ => True) :
    Meets (FreshBut S) x (fun _ => FreshBut T) fun _ _ => True :=
  (Meets.and hl hc).mono (fun _ hg => ⟨hg.linked, hg⟩) (fun _ _ hg => ⟨hg.1, hg.2⟩)
    fun _ _ _ => trivial

theorem fresh_mono {α : Type} {x : Edit α} {U : NodeId → Prop}
    (h : Meets (FreshBut S) x (fun _ => FreshBut T) fun _ _ => True) (hTU : ∀ i, T i → U i) :
    Meets (FreshBut S) x (fun _ => FreshBut U) fun _ _ => True :=
  h.mono (fun _ hg => hg) (fun _ _ hg => ⟨hg.linked, hg.current.mono hTU⟩) fun _ _ hg => hg

theorem addNode_fresh (op : Operator) {r : Relation} (hr : r.WellFormed) :
    Keeps (FreshBut S) (fun _ => True) (addNode op r) :=
  fresh_of_linked (addNode_linked op hr) (Meets.addNode fun _ hg => hg.current.push hg.linked op r)

theorem addRoot_fresh (id : NodeId) : Keeps (FreshBut S) (fun _ => True) (addRoot id) :=
  fresh_of_linked (addRoot_linked id) (Meets.addRoot (fun _ hg _ => hg.current) fun _ _ _ => trivial)

theorem setFlags_fresh (id : NodeId) (isLocal isMpc : Option Bool) :
    Keeps (FreshBut S) (fun _ => True) (setFlags id isLocal isMpc) :=
  fresh_of_linked (setFlags_linked id isLocal isMpc) (Meets.setFlags
    (fun _ hg _ => hg.current.update_rest (fun _ => rfl) (fun _ => rfl) fun _ => rfl)
    fun _ _ _ => trivial)

theorem setHolders_fresh (id : NodeId) (s : PartySet) :
    Keeps (FreshBut S) (fun _ => True) (setHolders id s) :=
  fresh_of_linked (setHolders_linked id s) (Meets.setHolders
    (fun _ hg _ => hg.current.update_rest (fun _ => rfl) (fun _ => rfl) fun _ => rfl)
    fun _ _ _ => trivial)

/-- The holders of an output are no business of references. -/
theorem refreshHolders_fresh (id : NodeId) : Keeps (FreshBut S) (fun _ => True) (refreshHolders id) :=
  fresh_of_linked (refreshHolders_linked id) (Meets.refreshHolders (fun _ _ hg _ _ => hg.current)
    (fun _ _ _ hg _ _ => hg.current.update_rest (fun _ => rfl) (fun _ => rfl) fun _ => rfl)
    fun _ _ _ => trivial)

theorem link_fresh (p c : NodeId) : Meets (FreshBut S) (link p c)
    (fun _ => FreshBut fun i => S i ∨ i = c) fun _ _ => True :=
  fresh_of_linked (link_linked p c) (Meets.link (fun _ hg _ _ => hg.current.addEdge)
    fun _ _ _ _ => trivial)

theorem replaceParent_fresh (c old new : NodeId) : Meets (FreshBut S) (replaceParent c old new)
    (fun _ => FreshBut fun i => S i ∨ i = c) fun _ _ => True :=
  fresh_of_linked (replaceParent_linked c old new)
    (Meets.replaceParent (fun _ hg _ _ _ _ => hg.current.moveEdge) fun _ _ _ _ => trivial)

theorem removeParent_fresh (c p : NodeId) : Keeps (FreshBut S) (fun _ => True) (removeParent c p) :=
  fresh_of_linked (removeParent_linked c p) (Meets.removeParent
    (fun _ _ _ hg _ _ hn hd => hg.current.dropEdge hn hd) fun _ _ _ _ => trivial)

theorem makeOrphan_fresh (id : NodeId) : Keeps (FreshBut S) (fun _ => True) (makeOrphan id) :=
  fresh_of_linked (makeOrphan_linked id) (Meets.makeOrphan (fun _ hg => hg.linked.edges)
    (fun _ hg _ => hg.current.orphaned) fun _ _ _ => trivial)

theorem isolate_fresh (id : NodeId) : Keeps (FreshBut S) (fun _ => True) (isolate id) :=
  (makeOrphan_fresh id).bind fun _ => (Keeps.node (fun _ _ => trivial) id).bind fun _ =>
    Keeps.forM (fun c => removeParent_fresh c id) _

theorem refreshColumns_fresh (id : NodeId) :
    Meets (FreshBut fun i => S i ∨ i = id) (refreshColumns id) (fun _ => FreshBut S)
      fun _ _ => True :=
  fresh_of_linked (refreshColumns_linked id) (Meets.refreshColumns
    (fun _ _ _ hg hn hr => hg.current.refreshed hg.linked hn hr) (fun _ _ _ _ _ _ _ => trivial)
    fun _ _ _ => trivial)

theorem refresh_fresh (id : NodeId) :
    Meets (FreshBut fun i => S i ∨ i = id) (refresh id) (fun _ => FreshBut S) fun _ _ => True :=
  Meets.bind (refreshColumns_fresh id) fun _ => refreshHolders_fresh id

/-- A child that changes hands is looked after at once. -/
theorem adopt_fresh (c old new : NodeId) :
    Keeps (FreshBut S) (fun _ => True) (Splice.adopt c old new) :=
  Meets.bind (replaceParent_fresh c old new) fun _ => refreshColumns_fresh c

end Edit

open Plan (Fresh FreshBut)

namespace Build
open Edit

/-- A node is added with references to columns that its inputs have. -/
theorem attach_fresh {inputs : List NodeId} {rels : List Relation} {d : Derived}
    (hd : d.Suits inputs rels) :
    Meets (fun g => g.Fresh ∧ Produce inputs rels g) (attach inputs d) (fun _ => Fresh)
      fun _ _ => True := by
  let P : Plan → Prop := fun g => g.Fresh ∧ Produce inputs rels g
  have hcurrent : Meets P (attach inputs d) (fun _ g => g.CurrentBut fun _ => False)
      fun _ _ => True := by
    refine Meets.of_each ?_
    rintro g ⟨hg, hprod⟩
    have hin : ∀ p ∈ inputs, p < g.size := fun p hp => hprod.lt_size hp
    refine (attach_exact hin).mono (fun _ hh => hh) ?_ fun _ _ hh => hh
    rintro id h ⟨rfl, rfl⟩
    have hpushed := hg.current.push hg.linked d.op d.output
    refine (hpushed.linkAll inputs).settled fun n hn => ?_
    have hsame : inputs.map (g.attached inputs d).output? = rels.map some :=
      (List.map_congr_left fun p hp => Plan.output?_attached (hin p hp)).trans hprod
    cases (Plan.get?_attached_new hin).symm.trans hn
    rw [Plan.operatorInputs_of_seats hn (by rw [List.append_nil]) hd.seats (fun _ => rfl) hsame]
    exact hd.current fun r hr => hprod.wellFormed hg.linked hr
  have hlinked : Meets P (attach inputs d) (fun _ g => g.Linked) fun _ g => g.Linked :=
    (attach_linked inputs hd.output).mono (fun _ hg => hg.1.linked) (fun _ _ hg => hg) fun _ _ hg => hg
  exact (Meets.and hlinked hcurrent).mono (fun _ hg => ⟨hg, hg⟩) (fun _ _ hg => ⟨hg.1, hg.2⟩)
    fun _ _ _ => trivial

end Build

namespace Specialize
open Edit

/-- While a special form takes over children, only its own references are still to be looked up. -/
theorem substitute_fresh (old : NodeId) (op : Operator) (parents : List NodeId) :
    Keeps Fresh (fun _ => True) (substitute old op parents) := by
  refine Meets.bind (M := fun n g => g.Fresh ∧ n.output.WellFormed)
    (Meets.node (fun g n hg hn => ⟨hg, (hg.linked.nodes old n hn).relation⟩) fun _ _ _ => trivial)
    fun n => ?_
  refine Meets.of_fact fun hout => Meets.bind (makeOrphan_fresh old) fun _ => ?_
  refine Meets.bind (addNode_fresh op hout) fun new => Meets.bind (setFlags_fresh new _ _) fun _ => ?_
  let J : Plan → Prop := FreshBut fun i => False ∨ i = new
  have hlink : ∀ p, Keeps J (fun _ => True) (link p new) := fun p =>
    fresh_mono (link_fresh p new) fun i hi => hi.elim id .inr
  have hlinks : Meets Fresh (parents.forM fun p => link p new) (fun _ => J) fun _ _ => True :=
    (Keeps.forM hlink parents).mono (fun _ hg => ⟨hg.linked, hg.current.mono fun _ => .inl⟩)
      (fun _ _ hg => hg) fun _ _ hg => hg
  refine hlinks.bind fun _ => ?_
  have hadopt : ∀ c, Keeps J (fun _ => True) (Splice.adopt c old new) := fun c =>
    adopt_fresh c old new
  refine Meets.bind (Keeps.forM hadopt n.children.toList) fun _ => ?_
  refine Meets.bind (refreshColumns_fresh new) fun _ => Keeps.bind ?_ fun _ => Keeps.pure new
  exact (Keeps.fetch (fun _ _ => trivial) new).bind fun _ => Keeps.report _

theorem indexJoin_fresh (id aligner : NodeId) : Keeps Fresh (fun _ => True) (indexJoin id aligner) :=
  (Keeps.ask (fun _ _ => trivial) _).bind fun _ =>
    (Keeps.require (fun _ _ => trivial) aligner).bind fun _ => substitute_fresh id _ _

theorem revealJoin_fresh (id : NodeId) (side : Side) (recipient : Party) :
    Keeps Fresh (fun _ => True) (revealJoin id side recipient) :=
  (Keeps.ask (fun _ _ => trivial) _).bind fun _ => (Keeps.node (fun _ _ => trivial) _).bind
    fun _ => substitute_fresh id _ _

theorem hybridJoin_fresh (id : NodeId) (trusted : Party) :
    Keeps Fresh (fun _ => True) (hybridJoin id trusted) :=
  (Keeps.ask (fun _ _ => trivial) _).bind fun _ => substitute_fresh id _ _

theorem indexAggregate_fresh (id eqFlags sortedKeys : NodeId) :
    Keeps Fresh (fun _ => True) (indexAggregate id eqFlags sortedKeys) :=
  (Keeps.ask (fun _ _ => trivial) _).bind fun _ =>
    (Keeps.require (fun _ _ => trivial) eqFlags).bind fun _ =>
      (Keeps.require (fun _ _ => trivial) sortedKeys).bind fun _ => substitute_fresh id _ _

end Specialize

theorem Edit.upkeep_fresh : Upkeep Fresh fun _ => True where
  refused := fun _ _ => trivial
  source := fun hr => (addNode_fresh _ hr).bind fun id => (addRoot_fresh id).bind
    fun _ => Keeps.pure id
  attach := Build.attach_fresh
  mark := fun id => setFlags_fresh id _ _
  indexJoin := Specialize.indexJoin_fresh
  revealJoin := Specialize.revealJoin_fresh
  hybridJoin := Specialize.hybridJoin_fresh
  indexAggregate := Specialize.indexAggregate_fresh

namespace Splice
open Edit

theorem removeBetween_fresh (parent : NodeId) (child : Option NodeId) (id : NodeId) :
    Keeps Fresh (fun _ => True) (removeBetween parent child id) := by
  have hR : ∀ g, Fresh g → True := fun _ _ => trivial
  refine (requireUnaryShape_keeps hR id).bind fun _ => (requireLink_keeps hR parent id).bind
    fun _ => ?_
  have hend : Keeps Fresh (fun _ => True) (do
      isolate id
      reportOn id "removed " "" [("parent", nodeLabel parent), ("child", childDetail child)]) :=
    (isolate_fresh id).bind fun _ => reportOn_keeps hR _ _ _ _
  cases child with
  | some c =>
    exact (requireLink_keeps hR id c).bind fun _ => (adopt_fresh c id parent).bind fun _ => hend
  | none =>
    refine (Keeps.fetch hR id).bind fun n => ?_
    split
    · exact Keeps.plan.bind fun _ => Keeps.throw hR _
    · exact hend

theorem insertBetween_fresh (parent : NodeId) (child : Option NodeId) (id : NodeId) :
    Keeps Fresh (fun _ => True) (insertBetween parent child id) := by
  have hR : ∀ g, Fresh g → True := fun _ _ => trivial
  refine (requireFresh_keeps hR id).bind fun _ => (Keeps.require hR parent).bind fun _ => ?_
  have hend : Keeps Fresh (fun _ => True) (reportOn id "inserted " ""
      [("parent", nodeLabel parent), ("child", childDetail child)]) := reportOn_keeps hR _ _ _ _
  cases child with
  | some c =>
    refine (requireLink_keeps hR parent c).bind fun _ => ?_
    refine Meets.bind (link_fresh parent id) fun _ => Meets.bind (refresh_fresh id) fun _ => ?_
    exact (adopt_fresh c parent id).bind fun _ => hend
  | none => exact Meets.bind (link_fresh parent id) fun _ => Meets.bind (refresh_fresh id) fun _ => hend

theorem insertBetweenChildren_fresh (parent id : NodeId) :
    Keeps Fresh (fun _ => True) (insertBetweenChildren parent id) := by
  have hR : ∀ g, Fresh g → True := fun _ _ => trivial
  refine (requireFresh_keeps hR id).bind fun _ => (Keeps.node hR parent).bind fun n => ?_
  refine Meets.bind (link_fresh parent id) fun _ => ?_
  refine Meets.bind (refresh_fresh id) fun _ => ?_
  refine Keeps.bind (Keeps.forM (fun c => adopt_fresh c parent id) _) fun _ => ?_
  exact reportOn_keeps hR _ _ _ _

end Splice

def Call.Plans : Call → Prop
  | .addNode .. | .build _ | .collect .. | .removeBetween .. | .insertBetween ..
  | .insertBetweenChildren .. | .indexJoin .. | .revealJoin .. | .hybridJoin ..
  | .indexAggregate .. | .markMpc | .optimize _ => True
  | _ => False

open Edit in
theorem Call.keeps_fresh {c : Call} (ha : c.Plans) : Keeps Fresh (fun _ => True) c.run := by
  have done : ∀ {α : Type} {x : Edit α}, Keeps Fresh (fun _ => True) x →
      Keeps Fresh (fun _ => True) (do let _ ← x) := fun hx => hx.bind fun _ => Keeps.pure _
  cases c with
  | addNode op name columns holders =>
    exact done (addNode_fresh op (Relation.stamped_wellFormed name columns holders))
  | build b => exact done (upkeep_fresh.build b)
  | collect id party => exact setHolders_fresh id _
  | removeBetween parent child id => exact Splice.removeBetween_fresh parent child id
  | insertBetween parent child id => exact Splice.insertBetween_fresh parent child id
  | insertBetweenChildren parent id => exact Splice.insertBetweenChildren_fresh parent id
  | indexJoin id aligner => exact done (Specialize.indexJoin_fresh id aligner)
  | revealJoin id side recipient => exact done (Specialize.revealJoin_fresh id side recipient)
  | hybridJoin id trusted => exact done (Specialize.hybridJoin_fresh id trusted)
  | indexAggregate id eqFlags sortedKeys =>
    exact done (Specialize.indexAggregate_fresh id eqFlags sortedKeys)
  | markMpc => exact done upkeep_fresh.markMpc
  | optimize cfg => exact done (upkeep_fresh.optimize cfg)
  | _ => exact absurd ha id

/-- A look-up answers by what became of the operator, and changes nothing else. -/
theorem Edit.apply_refreshColumns {d : Draft} {id : NodeId} {n : Node} {op : Operator}
    {x : Except Error Unit} (hn : d.plan.get? id = some n)
    (hr : n.op.refresh (d.plan.operatorInputs id) = ⟨op, x⟩) :
    (refreshColumns id).apply d = (x, { d with plan := d.plan.update id ({ · with op }) }) := by
  have hnode : (node id).apply d = (.ok n, d) := by
    rw [node, apply_ask, Plan.node_eq_ok.mpr hn]
  unfold refreshColumns
  rw [apply_bind, apply_plan]
  dsimp only
  rw [apply_bind, hnode]
  dsimp only
  rw [hr]
  rfl

/-- A look-up that changes nothing finds what is there already. -/
theorem Edit.refresh_of_idle {d : Draft} {id : NodeId} {n : Node} (hn : d.plan.get? id = some n)
    (h : (refreshColumns id).apply d = (.ok (), d)) :
    n.op.refresh (d.plan.operatorInputs id) = ⟨n.op, .ok ()⟩ := by
  cases hr : n.op.refresh (d.plan.operatorInputs id) with
  | mk op outcome =>
    have happly := apply_refreshColumns hn hr
    rw [h, Prod.mk.injEq] at happly
    have hget : d.plan.get? id = (d.plan.update id ({ · with op })).get? id :=
      congrArg (fun k : Draft => k.plan.get? id) happly.2
    rw [Plan.get?_update, if_pos rfl, hn, Option.map_some, Option.some.injEq] at hget
    have hop : n.op = op := congrArg Node.op hget
    rw [hop, ← happly.1]

/-- After any run of calls none of which was refused, every column reference stands in the input its
node now names, and looking the references up again finds all of them and changes none. -/
theorem reached_references_current {d : Draft}
    (h : Reached (fun d c => c.Plans ∧ c.Succeeds d) d) (id : NodeId) (n : Node)
    (hn : d.plan.get? id = some n) :
    n.op.Current (d.plan.operatorInputs id) ∧
      ∃ op : Operator, op.withoutHolders = n.op.withoutHolders ∧
        (Edit.refreshColumns id).apply d =
          (.ok (), { d with plan := d.plan.update id ({ · with op }) }) := by
  have hfresh : d.plan.Fresh := by
    have hstart : Plan.Fresh ∅ := ⟨.empty, fun i n hn => by simp at hn⟩
    exact h.always hstart fun d c ha hd => (Call.keeps_fresh ha.1).after_success hd ha.2
  have hcurrent := hfresh.current id n hn not_false
  obtain ⟨op, hrefresh, hsame⟩ := Operator.refresh_of_current hcurrent
  exact ⟨hcurrent, op, hsame, Edit.apply_refreshColumns hn hrefresh⟩

def movedSelfJoin : List Call :=
  [.build (.create "l" [⟨"k", .integer, ∅⟩] (.singleton 1)), .build (.join 0 0 "j" ["k"] ["k"]),
    .addNode .shuffle "s" [⟨"", "k", 0, .integer, ∅⟩] ∅, .insertBetweenChildren 0 2,
    .revealJoin 1 .left 1]

theorem movedSelfJoin_references_current :
    let d := Call.afterAll movedSelfJoin ⟨∅, []⟩
    let key : Column := ⟨"s", "k", 0, .integer, ∅⟩
    let op : Operator := .revealJoin ⟨[key], [key]⟩ ⟨.left, ⟨"s", [key], .singleton 1⟩, 1⟩
    (d.plan.get? 3).map Node.op = some op ∧ op.Current (d.plan.operatorInputs 3) ∧
      ∃ fresh : Operator, fresh.withoutHolders = op.withoutHolders ∧
        (Edit.refreshColumns 3).apply d =
          (.ok (), { d with plan := d.plan.update 3 ({ · with op := fresh }) }) := by
  intro d key op
  have hreached : Reached (fun d c => c.Plans ∧ c.Succeeds d) d :=
    Reached.start.afterAll ⟨⟨trivial, rfl⟩, ⟨trivial, rfl⟩, ⟨trivial, rfl⟩, ⟨trivial, rfl⟩,
      ⟨trivial, rfl⟩, trivial⟩
  have hop : (d.plan.get? 3).map Node.op = some op := by decide
  obtain ⟨n, hn, hnop⟩ := Option.map_eq_some_iff.mp hop
  exact ⟨hop, hnop ▸ reached_references_current hreached 3 n hn⟩

end PartyPlan
