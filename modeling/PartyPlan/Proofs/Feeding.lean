import PartyPlan.Proofs.Substitution

/-! Special forms that are fed by further nodes. Besides the inputs of the general node, an index join
and an index aggregation read from helpers, of which nothing is asked but that they are there. The new
node takes over the children of the general one, so a helper that lies below the general node ends up
both above and below the new one. Nothing else can close a cycle. -/
open Relation (ReflTransGen TransGen)

namespace PartyPlan

inductive Feeding where
  | indexJoin (id aligner : NodeId)
  | indexAggregate (id eqFlags sortedKeys : NodeId)

namespace Feeding

def run : Feeding → Edit NodeId
  | indexJoin id aligner => Specialize.indexJoin id aligner
  | indexAggregate id eqFlags sortedKeys => Specialize.indexAggregate id eqFlags sortedKeys

def target : Feeding → NodeId
  | indexJoin id _ | indexAggregate id _ _ => id

def helpers : Feeding → List NodeId
  | indexJoin _ aligner => [aligner]
  | indexAggregate _ eqFlags sortedKeys => [eqFlags, sortedKeys]

end Feeding

namespace Plan

variable {g h : Plan} {old new x y p : NodeId} {n : Node} {op : Operator} {ps helpers : List NodeId}

/-- A new node has the edges of an old one, and some helpers above it besides. -/
structure Fed (g : Plan) (old : NodeId) (helpers : List NodeId) (new : NodeId) (h : Plan) : Prop where
  fresh : new = g.size
  there : old < g.size
  known : ∀ p ∈ helpers, p < g.size
  edges : ∀ p c, h.Edge p c ↔ (c = new ∧ (g.Edge p old ∨ p ∈ helpers)) ∨ (p = new ∧ g.Edge old c) ∨
    (g.Edge p c ∧ p ≠ old ∧ c ≠ old)

namespace Fed

variable (hf : g.Fed old helpers new h) (hac : g.CycleFree)
include hf

theorem not_edge_new (hg : g.Mutual) : ¬ g.Edge x new := by
  intro he
  exact absurd (hf.fresh ▸ hg.child_lt he) (Nat.lt_irrefl _)

theorem not_new_edge : ¬ g.Edge new x := by
  intro he
  exact absurd (hf.fresh ▸ he.lt_size) (Nat.lt_irrefl _)

include hac

/-- What was below the old node is below the new one. -/
theorem path_below (hy : TransGen g.Edge old y) : TransGen h.Edge new y := by
  induction hy with
  | single he => exact .single ((hf.edges _ _).mpr (.inr (.inl ⟨rfl, he⟩)))
  | @tail b c hb he ih =>
    have hbo : b ≠ old := fun hbo => hac old (hbo ▸ hb)
    have hco : c ≠ old := fun hco => hac old (hco ▸ hb.tail he)
    exact ih.tail ((hf.edges b c).mpr (.inr (.inr ⟨he, hbo, hco⟩)))

/-- As long as no helper is below the old node, only what was below that is below the new one. -/
theorem path_below_inv (hg : g.Mutual) (hfeed : ∀ p ∈ helpers, ¬ TransGen g.Edge old p)
    (hy : TransGen h.Edge new y) : y ≠ new ∧ TransGen g.Edge old y := by
  induction hy with
  | @single c he =>
    rcases (hf.edges new c).mp he with ⟨_, hn | hn⟩ | ⟨_, hold⟩ | ⟨hn, _⟩
    · exact absurd hn hf.not_new_edge
    · exact absurd (hf.fresh ▸ hf.known new hn) (Nat.lt_irrefl _)
    · exact ⟨fun hc => hf.not_edge_new hg (hc ▸ hold), .single hold⟩
    · exact absurd hn hf.not_new_edge
  | @tail b c _ he ih =>
    obtain ⟨hb, hpath⟩ := ih
    rcases (hf.edges b c).mp he with ⟨_, hbo | hbh⟩ | ⟨hbn, _⟩ | ⟨hbc, _⟩
    · exact absurd (hpath.tail hbo) (hac old)
    · exact absurd hpath (hfeed b hbh)
    · exact absurd hbn hb
    · exact ⟨fun hc => hf.not_edge_new hg (hc ▸ hbc), hpath.tail hbc⟩

omit hac in
/-- A path avoids the new node, and then it was there before, or it leads through the new node. -/
theorem path_split (hy : TransGen h.Edge x y) :
    TransGen g.Edge x y ∨ (ReflTransGen h.Edge x new ∧ ReflTransGen h.Edge new y) := by
  induction hy with
  | @single c he =>
    rcases (hf.edges x c).mp he with ⟨hc, _⟩ | ⟨hx, _⟩ | ⟨hxc, _⟩
    · exact .inr (hc ▸ ⟨.single he, .refl⟩)
    · exact .inr (hx ▸ ⟨.refl, .single he⟩)
    · exact .inl (.single hxc)
  | @tail b c hxb he ih =>
    rcases ih with ih | ⟨hxn, hnb⟩
    · rcases (hf.edges b c).mp he with ⟨hc, _⟩ | ⟨hb, _⟩ | ⟨hbc, _⟩
      · exact .inr (hc ▸ ⟨(hxb.tail he).to_reflTransGen, .refl⟩)
      · exact .inr (hb ▸ ⟨hxb.to_reflTransGen, .single he⟩)
      · exact .inl (ih.tail hbc)
    · exact .inr ⟨hxn, hnb.tail he⟩

/-- A cycle is closed just when a helper was below the old node. -/
theorem cycleFree_iff (hg : g.Mutual) :
    h.CycleFree ↔ ∀ p ∈ helpers, ¬ TransGen g.Edge old p := by
  constructor
  · intro hfree p hp hpath
    have hfeed : h.Edge p new := (hf.edges p new).mpr (.inl ⟨rfl, .inr hp⟩)
    exact hfree new ((hf.path_below hac hpath).tail hfeed)
  · intro hfeed x hcycle
    rcases hf.path_split hcycle with hold | ⟨hxn, hnx⟩
    · exact hac x hold
    · have hnew : TransGen h.Edge new new := (TransGen.trans_right hnx hcycle).trans_left hxn
      exact (hf.path_below_inv hac hg hfeed hnew).1 rfl

/-- The old node has no parents left. -/
theorem not_edge_old : ¬ h.Edge p old := by
  intro he
  rcases (hf.edges p old).mp he with ⟨hnew, _⟩ | ⟨_, hself⟩ | ⟨_, _, hne⟩
  · exact absurd (hnew.trans hf.fresh) (Nat.ne_of_lt hf.there)
  · exact hac old (.single hself)
  · exact hne rfl

/-- The only child it may have left is the new node, which it feeds if it is its own helper. -/
theorem edge_old_iff : h.Edge old x ↔ x = new ∧ old ∈ helpers := by
  have hne : old ≠ new := fun he => absurd (he.trans hf.fresh) (Nat.ne_of_lt hf.there)
  have hself : ¬ g.Edge old old := fun he => hac old (.single he)
  rw [hf.edges]
  constructor
  · rintro (⟨hx, hp | hp⟩ | ⟨he, _⟩ | ⟨_, he, _⟩)
    · exact absurd hp hself
    · exact ⟨hx, hp⟩
    · exact absurd he hne
    · exact absurd rfl he
  · rintro ⟨hx, hp⟩
    exact .inl ⟨hx, .inr hp⟩

end Fed

theorem mem_childrenOf_planted {q d : NodeId} (hps : ∀ p ∈ ps, p < g.size) :
    q ∈ (g.planted old n op ps).childrenOf d ↔
      (d ∈ ps ∧ q = g.size) ∨ (q ∈ g.childrenOf d ∧ q ≠ old) := by
  have hlt : ∀ p ∈ ps, p < ((g.orphaned old).push op n.output).size := fun p hp => by
    simpa using Nat.lt_succ_of_lt (hps p hp)
  rw [planted, mem_childrenOf_linkAll (by simpa using hlt), childrenOf_update_of_eq, childrenOf_push,
    mem_childrenOf_orphaned]
  exact fun _ => rfl

end Plan

namespace Specialize
open Edit Plan

variable {g : Plan} {old new c : NodeId} {n : Node} {op : Operator} {ps : List NodeId}

theorem adopt_edges (hnew : new < g.size) : Meets (· = g) (do replaceParent c old new; refreshColumns c)
    (fun _ h => h.size = g.size ∧ ∀ p q, q ∈ h.childrenOf p ↔
      (p = new ∧ q = c) ∨ (q ∈ g.childrenOf p ∧ ¬ (p = old ∧ q = c))) fun _ _ => True := by
  refine Meets.bind (M := fun _ h => h = g.moveEdge c old new)
    (Meets.replaceParent (fun h hh _ _ _ _ => hh ▸ rfl) fun _ _ _ _ => trivial) fun _ => ?_
  refine Meets.refreshColumns (fun h m op hh _ _ => ?_) (fun _ _ _ _ _ _ _ => trivial)
    fun _ _ _ => trivial
  subst hh
  refine ⟨by simp [moveEdge], fun p q => ?_⟩
  rw [childrenOf_withOp, mem_childrenOf_moveEdge hnew]

/-- The edges of a plan in which a node has taken the place of another, whatever its parents are. -/
theorem substitute_edges (hg : g.Mutual) (hn : g.get? old = some n) (hps : ∀ p ∈ ps, p < g.size) :
    Meets (· = g) (substitute old op ps)
      (fun new h => (∀ p c, h.Edge p c ↔ (c = g.size ∧ p ∈ ps) ∨ (p = g.size ∧ g.Edge old c) ∨
        (g.Edge p c ∧ p ≠ old ∧ c ≠ old)) ∧ new = g.size) fun _ _ => True := by
  -- the invariant of the loop: the children before the current one are moved
  let I : List NodeId → Plan → Prop := fun rest h => g.size < h.size ∧
    ∃ done, n.children.toList = done ++ rest ∧ ∀ p c, c ∈ h.childrenOf p ↔ (p = g.size ∧ c ∈ done) ∨
      (c ∈ (g.planted old n op ps).childrenOf p ∧ ¬ (p = old ∧ c ∈ done))
  have hstep : ∀ c rest, Meets (I (c :: rest)) (do replaceParent c old g.size; refreshColumns c)
      (fun _ => I rest) fun _ _ => True := by
    intro c rest
    refine Meets.of_each fun k hk => ?_
    obtain ⟨hsize, done, hkids, hedges⟩ := hk
    refine (adopt_edges hsize).mono (fun _ hh => hh) (fun _ h hh => ?_) fun _ _ hh => hh
    refine ⟨hh.1 ▸ hsize, done ++ [c], by simp [hkids], fun p q => ?_⟩
    rw [hh.2, hedges, List.mem_append, List.mem_singleton]
    tauto
  have hloop := Meets.forM (I := I) hstep n.children.toList
  have hfirst : ∀ h, h = g.planted old n op ps → I n.children.toList h := by
    rintro h rfl
    exact ⟨by simp, [], rfl, by simp⟩
  refine substitute_planted hg hn hps (Meets.bind (hloop.mono hfirst (fun _ _ hh => hh)
    fun _ _ hh => hh) fun _ => ?_)
  have hrefresh : Meets (I []) (refreshColumns g.size) (fun _ => I []) fun _ _ => True := by
    refine Meets.refreshColumns (fun h m op hh _ _ => ?_) (fun _ _ _ _ _ _ _ => trivial)
      fun _ _ _ => trivial
    simpa [I] using hh
  refine Meets.bind hrefresh fun _ => ?_
  refine (reportSpecialized_meets (fun _ hh => hh.1) _ _).mono (fun _ hh => hh) (fun new h hh => ?_)
    fun _ _ hh => hh
  obtain ⟨⟨_, done, hkids, hedges⟩, hnew⟩ := hh
  refine ⟨fun p c => ?_, hnew⟩
  have hdone : ∀ c, c ∈ done ↔ c ∈ g.childrenOf old := fun c => by
    rw [childrenOf_eq hn, IdSet.mem_def, hkids, List.append_nil]
  have hout : ¬ g.size ∈ g.childrenOf old := fun he => absurd (hg.child_lt he) (Nat.lt_irrefl _)
  unfold Edge
  rw [hedges, mem_childrenOf_planted hps, hdone]
  by_cases hp : p = old
  · subst hp
    by_cases hc : c = g.size
    · subst hc
      tauto
    · tauto
  · tauto

/-- The parents of a general join or aggregation are the inputs it names. -/
theorem edge_iff_mem_ids (hg : g.Valid) (hn : g.get? old = some n) (hh : n.op.helpers = [])
    (p : NodeId) : g.Edge p old ↔ p ∈ n.inputs.ids := by
  rw [Edge, ← hg.edges, parentsOf_eq hn, (hg.nodes old n hn).mem_ids_iff hh]

theorem indexJoin_fed (hg : g.Valid) (id aligner : NodeId) : Meets (· = g) (indexJoin id aligner)
    (fun new h => g.Fed id [aligner] new h) fun _ _ => True := by
  refine Meets.bind (M := fun join h => h = g ∧ g.generalJoin id = .ok join)
    (Meets.ask (fun h join hh hj => ⟨hh, hh ▸ hj⟩) fun _ _ _ _ => trivial) fun join =>
      Meets.of_fact fun hj => ?_
  refine Meets.bind (M := fun _ h => h = g ∧ aligner < g.size)
    (Meets.require (fun h hh hlt => ⟨hh, hh ▸ hlt⟩) fun _ _ _ => trivial) fun _ =>
      Meets.of_fact fun hlt => ?_
  obtain ⟨n, hn, hop, hi⟩ := generalJoin_eq_ok hj
  obtain ⟨hl, hr⟩ := join_inputs_lt hg hj
  have hparents := edge_iff_mem_ids hg hn (by simp [hop, Operator.helpers])
  refine (substitute_edges hg.edges hn (by simp [hl, hr, hlt])).mono (fun _ hh => hh)
    (fun new h hh => ?_) fun _ _ hh => hh
  obtain ⟨hedges, rfl⟩ := hh
  refine ⟨rfl, lt_size hn, by simpa using hlt, fun p c => ?_⟩
  rw [hedges, hparents, hi]
  simp [Inputs.ids, or_assoc]

theorem indexAggregate_fed (hg : g.Valid) (id eqFlags sortedKeys : NodeId) :
    Meets (· = g) (indexAggregate id eqFlags sortedKeys)
      (fun new h => g.Fed id [eqFlags, sortedKeys] new h) fun _ _ => True := by
  refine Meets.bind (M := fun agg h => h = g ∧ g.generalAggregation id = .ok agg)
    (Meets.ask (fun h agg hh ha => ⟨hh, hh ▸ ha⟩) fun _ _ _ _ => trivial) fun agg =>
      Meets.of_fact fun ha => ?_
  refine Meets.bind (M := fun _ h => h = g ∧ eqFlags < g.size)
    (Meets.require (fun h hh hlt => ⟨hh, hh ▸ hlt⟩) fun _ _ _ => trivial) fun _ =>
      Meets.of_fact fun hflags => ?_
  refine Meets.bind (M := fun _ h => h = g ∧ sortedKeys < g.size)
    (Meets.require (fun h hh hlt => ⟨hh, hh ▸ hlt⟩) fun _ _ _ => trivial) fun _ =>
      Meets.of_fact fun hkeys => ?_
  obtain ⟨n, hn, hop, hi⟩ := generalAggregation_eq_ok ha
  have hinput := aggregation_input_lt hg ha
  have hparents := edge_iff_mem_ids hg hn (by simp [hop, Operator.helpers])
  refine (substitute_edges hg.edges hn (by simp [hinput, hflags, hkeys])).mono (fun _ hh => hh)
    (fun new h hh => ?_) fun _ _ hh => hh
  obtain ⟨hedges, rfl⟩ := hh
  refine ⟨rfl, lt_size hn, by simpa using ⟨hflags, hkeys⟩, fun p c => ?_⟩
  rw [hedges, hparents, hi]
  simp [Inputs.ids]

end Specialize

theorem Feeding.run_fed {g : Plan} (hg : g.Valid) (f : Feeding) :
    Edit.Meets (· = g) f.run (fun new h => h.Valid ∧ g.Fed f.target f.helpers new h)
      fun _ _ => True := by
  cases f with
  | indexJoin id aligner =>
    exact ((Specialize.indexJoin_valid id aligner).and (Specialize.indexJoin_fed hg id aligner)).mono
      (fun h hh => ⟨hh ▸ hg, hh⟩) (fun _ _ hh => hh) fun _ _ _ => trivial
  | indexAggregate id eqFlags sortedKeys =>
    exact ((Specialize.indexAggregate_valid id eqFlags sortedKeys).and
      (Specialize.indexAggregate_fed hg id eqFlags sortedKeys)).mono (fun h hh => ⟨hh ▸ hg, hh⟩)
      (fun _ _ hh => hh) fun _ _ _ => trivial

/-- A special form that takes the place of a node in a plan without cycles closes a cycle just when one
of its helpers lies below that node; without a cycle the plan can be sorted. The node is left without
parents, and without children unless it is its own helper. -/
theorem feeding_cycleFree_iff (d d' : Draft) (f : Feeding) (new : NodeId) (hnum : d.plan.Numbered)
    (hv : d.plan.validate = .ok ()) (hac : d.plan.CycleFree)
    (hr : f.run.apply d = (.ok new, d')) :
    (d'.plan.CycleFree ↔ ∀ p ∈ f.helpers, ¬ TransGen d.plan.Edge f.target p) ∧
    (d'.plan.CycleFree → ∀ byName, ∃ order, d'.plan.topSort byName = .ok order) ∧
    d'.plan.parentsOf f.target = ∅ ∧
    (d'.plan.childrenOf f.target = ∅ ↔ ¬ f.target ∈ f.helpers) := by
  have hvalid : d.plan.Valid := (Plan.validate_eq_ok_iff hnum).mp hv
  obtain ⟨hvalid', hf⟩ : d'.plan.Valid ∧ d.plan.Fed f.target f.helpers new d'.plan := by
    have := f.run_fed hvalid d rfl
    rwa [hr] at this
  refine ⟨hf.cycleFree_iff hac hvalid.edges, fun hfree byName => ?_, ?_, ?_⟩
  · obtain ⟨order, hsort, _⟩ := hfree.acyclic.topSort_eq_ok hvalid'.inRange byName
    exact ⟨order, hsort⟩
  · refine IdSet.eq_empty_iff.mpr fun p hp => ?_
    have hedge : d'.plan.Edge p f.target := (hvalid'.edges p f.target).mp hp
    exact hf.not_edge_old hac hedge
  · rw [IdSet.eq_empty_iff]
    constructor
    · intro hnone hself
      exact hnone new ((hf.edge_old_iff hac).mpr ⟨rfl, hself⟩)
    · intro hself c hc
      exact hself ((hf.edge_old_iff hac).mp hc).2

def numberedJoin : Draft :=
  Call.afterAll [.build (.create "in" [⟨"k", .integer, ∅⟩] (.singleton 1)),
    .build (.join 0 0 "pairs" ["k"] ["k"]), .build (.index 1 "rows" "row")] ⟨∅, []⟩

theorem numberedJoin_linked : numberedJoin.plan.Linked :=
  have hreached : Reached (fun _ _ => True) numberedJoin :=
    Reached.start.afterAll (by simp [Call.AllAllowed])
  hreached.linked

theorem numberedJoin_cycleFree : numberedJoin.plan.CycleFree := by
  have hedges : ∀ p < 3, ∀ c ∈ (numberedJoin.plan.childrenOf p).toList, p < c := by decide +kernel
  exact Plan.cycleFree_of_lt fun p c hpc => hedges p hpc.lt_size c hpc

/-- Numbers of the rows that a join produces feed the join itself. -/
theorem numberedJoin_feeding_cycle : numberedJoin.plan.Linked ∧ numberedJoin.plan.CycleFree ∧
    numberedJoin.plan.validate = .ok () ∧
    (∀ id < 3, ((Edit.refreshColumns id).apply numberedJoin) = (.ok (), numberedJoin)) ∧
    ((Feeding.indexJoin 1 2).run.apply numberedJoin).1 = .ok 3 ∧
    ((Feeding.indexJoin 1 2).run.apply numberedJoin).2.plan.topSort true =
      .error (.cycle "index->rows (#2)") :=
  ⟨numberedJoin_linked, numberedJoin_cycleFree, by decide +kernel⟩

theorem numberedJoin_feeding_not_cycleFree :
    let d' := ((Feeding.indexJoin 1 2).run.apply numberedJoin).2
    numberedJoin.plan.Numbered ∧ numberedJoin.plan.validate = .ok () ∧ numberedJoin.plan.CycleFree ∧
    ((Feeding.indexJoin 1 2).run.apply numberedJoin).1 = .ok 3 ∧ ¬ d'.plan.CycleFree ∧
    d'.plan.parentsOf 1 = ∅ ∧ d'.plan.childrenOf 1 = ∅ := by
  intro d'
  have hnum : numberedJoin.plan.Numbered := fun i n hn => (numberedJoin_linked.nodes i n hn).id
  have hv : numberedJoin.plan.validate = .ok () := by decide +kernel
  have hok : ((Feeding.indexJoin 1 2).run.apply numberedJoin).1 = .ok 3 := by decide +kernel
  have hbelow : numberedJoin.plan.Edge 1 2 := by
    have hkid : 2 ∈ (numberedJoin.plan.childrenOf 1).toList := by decide +kernel
    exact IdSet.mem_def.mpr hkid
  obtain ⟨hfree, _, hparents, hkids⟩ := feeding_cycleFree_iff numberedJoin d' (.indexJoin 1 2) 3 hnum hv
    numberedJoin_cycleFree (Prod.ext hok rfl)
  refine ⟨hnum, hv, numberedJoin_cycleFree, hok, fun hno => ?_, hparents, hkids.mpr (by decide)⟩
  exact hfree.mp hno 2 (List.mem_singleton.mpr rfl) (.single hbelow)

end PartyPlan
