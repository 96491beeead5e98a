import PartyPlan.Proofs.Validity

/-! Work that only adds to a plan, or gives a part of it another form, keeps it valid: new nodes are
linked to just the inputs they name and the helpers they refer to, and a node that changes hands does
so in all its records at once. -/
namespace PartyPlan

namespace Edit

open Plan (Valid)

theorem addNode_valid (op : Operator) (r : Relation) : Keeps Valid Valid (addNode op r) :=
  Meets.addNode fun _ hg => hg.push op r

theorem setFlags_valid (id : NodeId) (isLocal isMpc : Option Bool) :
    Keeps Valid Valid (setFlags id isLocal isMpc) :=
  Meets.setFlags (fun _ hg _ => hg.update (fun _ => rfl) (fun _ => rfl) (fun _ => rfl) fun _ _ => rfl)
    fun _ hg _ => hg

theorem setHolders_valid (id : NodeId) (s : PartySet) : Keeps Valid Valid (setHolders id s) :=
  Meets.setHolders (fun _ hg _ => hg.update (fun _ => rfl) (fun _ => rfl) (fun _ => rfl) fun _ _ => rfl)
    fun _ hg _ => hg

/-- Refreshing references leaves alone both validity and whatever is known of edges. -/
theorem refreshColumns_valid (C : (NodeId → NodeSet) → Prop) (id : NodeId) :
    Keeps (fun g => g.Valid ∧ C g.childrenOf) Valid (refreshColumns id) := by
  have hkeep : ∀ {g : Plan} {n : Node} {op : Operator} {x : Except Error Unit}, g.Valid →
      g.get? id = some n → n.op.refresh (g.operatorInputs id) = ⟨op, x⟩ →
      (g.update id ({ · with op })).Valid := by
    intro g n op x hg hn hr
    refine hg.update (fun _ => rfl) (fun _ => rfl) (fun _ => rfl) fun m hm => ?_
    rw [hn] at hm
    cases hm
    simpa [hr] using n.op.helpers_refresh (g.operatorInputs id)
  have hC : ∀ {g : Plan} {op : Operator}, C g.childrenOf →
      C (g.update id ({ · with op })).childrenOf := by
    intro g op h
    rwa [Plan.childrenOf_withOp]
  exact Meets.refreshColumns (fun _ _ _ hg hn hr => ⟨hkeep hg.1 hn hr, hC hg.2⟩)
    (fun _ _ _ _ hg hn hr => hkeep hg.1 hn hr) fun _ hg _ => hg.1

theorem refreshHolders_valid (C : (NodeId → NodeSet) → Prop) (id : NodeId) :
    Keeps (fun g => g.Valid ∧ C g.childrenOf) Valid (refreshHolders id) := by
  refine Meets.refreshHolders (fun _ _ hg _ _ => hg) (fun g n s hg _ _ => ⟨?_, ?_⟩) fun _ hg _ => hg.1
  · exact hg.1.update (fun _ => rfl) (fun _ => rfl) (fun _ => rfl) fun _ _ => rfl
  · rw [Plan.childrenOf_heldBy]
    exact hg.2

/-- A child that changes hands keeps the plan valid, unless the new parent had it already; other
children the new parent does not have stay so. -/
theorem adopt_valid (old new c : NodeId) (rest : List NodeId) :
    Meets (fun g => g.Valid ∧ (c :: rest).Nodup ∧ ∀ d ∈ c :: rest, ¬ d ∈ g.childrenOf new)
      (Splice.adopt c old new)
      (fun _ g => g.Valid ∧ rest.Nodup ∧ ∀ d ∈ rest, ¬ d ∈ g.childrenOf new) fun _ => Valid := by
  refine Meets.bind (M := fun _ g => g.Valid ∧ rest.Nodup ∧ ∀ d ∈ rest, ¬ d ∈ g.childrenOf new)
    (Meets.replaceParent ?_ fun _ _ hg _ => hg.1) fun _ => ?_
  · intro g ⟨hg, hnodup, hout⟩ _ _ hn hedge
    obtain ⟨hc, hrest⟩ := List.nodup_cons.mp hnodup
    have hmoved := hg.moveEdge (Plan.hasEdge_iff.mp hedge) hn (hout c (by simp))
    refine ⟨hmoved, hrest, fun d hd hin => ?_⟩
    rcases (Plan.mem_childrenOf_moveEdge hn).mp hin with ⟨_, rfl⟩ | ⟨hin, _⟩
    · exact hc hd
    · exact hout d (by simp [hd]) hin
  · exact refreshColumns_valid (fun kids => rest.Nodup ∧ ∀ d ∈ rest, ¬ d ∈ kids new) c

theorem adoptAll_valid (old new : NodeId) {cs : List NodeId} (hcs : cs.Nodup) :
    Meets (fun g => g.Valid ∧ ∀ c ∈ cs, ¬ c ∈ g.childrenOf new)
      (cs.forM fun c => Splice.adopt c old new) (fun _ => Valid) fun _ => Valid := by
  let I : List NodeId → Plan → Prop := fun rest g =>
    g.Valid ∧ rest.Nodup ∧ ∀ c ∈ rest, ¬ c ∈ g.childrenOf new
  have hloop := Meets.forM (I := I) (fun c rest => adopt_valid old new c rest) cs
  exact hloop.mono (fun g hg => ⟨hg.1, hcs, hg.2⟩) (fun _ _ hg => hg.1) fun _ _ hg => hg

theorem addNode_alone {P : Plan → Prop} (hP : ∀ g, P g → g.Valid) (ps : List NodeId)
    (hin : ∀ g, P g → ∀ p ∈ ps, p < g.size) (op : Operator) (r : Relation)
    {R : Error → Plan → Prop} :
    Meets P (addNode op r) (fun new g => g.Alone new op ∧ ∀ p ∈ ps, p < new) R :=
  Meets.addNode fun g hg => ⟨.push (hP g hg) op r, hin g hg⟩

theorem setFlags_alone {new : NodeId} {op : Operator} (isLocal isMpc : Option Bool) :
    Keeps (Plan.Alone · new op) Valid (setFlags new isLocal isMpc) := by
  refine Meets.setFlags (fun g hg _ => ?_) fun _ hg _ => hg.valid
  obtain ⟨n, hn, hop, hp, hi⟩ := hg.node
  refine ⟨hg.valid.update (fun _ => rfl) (fun _ => rfl) (fun _ => rfl) fun _ _ => rfl, hg.root,
    fun c hc => hg.childless c ?_, ?_⟩
  · rwa [Plan.childrenOf_update_of_eq (f := fun n : Node =>
      { n with isLocal := isLocal.getD n.isLocal, isMpc := isMpc.getD n.isMpc }) fun _ => rfl] at hc
  · rw [Plan.get?_update, if_pos rfl, hn]
    exact ⟨_, rfl, hop, hp, hi⟩

/-- A node linked below others that came before it has no children yet. -/
theorem linkNew_valid {new : NodeId} {op : Operator} {ps : List NodeId} (hs : op.arity.Seats ps)
    (hh : op.arity = .nary → op.helpers = []) {R : Error → Plan → Prop} :
    Meets (fun g => g.Alone new op ∧ ∀ p ∈ ps ++ op.helpers, p < new)
      ((ps ++ op.helpers).forM fun p => link p new)
      (fun _ g => g.Valid ∧ ∀ c, ¬ c ∈ g.childrenOf new) R := by
  have hin : ∀ g : Plan, (g.Alone new op ∧ ∀ p ∈ ps ++ op.helpers, p < new) →
      new < g.size ∧ ∀ p ∈ ps ++ op.helpers, p < g.size := by
    rintro g ⟨hg, hlt⟩
    obtain ⟨n, hn, _⟩ := hg.node
    have hnew := Plan.lt_size hn
    exact ⟨hnew, fun p hp => Nat.lt_trans (hlt p hp) hnew⟩
  refine Meets.linkAll hin fun g hg => ⟨hg.1.linkAll hs hh (hin g hg).2, fun c hc => ?_⟩
  rcases (Plan.mem_childrenOf_linkAll (hin g hg).2).mp hc with ⟨hmem, _⟩ | hc
  · exact absurd (hg.2 new hmem) (Nat.lt_irrefl _)
  · exact hg.1.childless c hc

end Edit

open Plan (Valid)

namespace Build
open Edit

theorem attach_valid {inputs : List NodeId} {rels : List Relation} {d : Derived}
    (hd : d.Suits inputs rels) :
    Meets (fun g => g.Valid ∧ Produce inputs rels g) (attach inputs d) (fun _ => Valid)
      fun _ => Valid := by
  have hin : ∀ g : Plan, g.Valid ∧ Produce inputs rels g →
      ∀ p ∈ inputs ++ d.op.helpers, p < g.size := by
    rintro g ⟨_, hprod⟩ p hp
    rw [hd.helpers, List.append_nil] at hp
    exact hprod.lt_size hp
  refine Meets.bind (addNode_alone (fun _ hg => hg.1) _ hin d.op d.output) fun new => ?_
  have hlink : Meets (fun g => g.Alone new d.op ∧ ∀ p ∈ inputs ++ d.op.helpers, p < new)
      ((inputs ++ d.op.helpers).forM fun p => link p new)
      (fun _ g => g.Valid ∧ ∀ c, ¬ c ∈ g.childrenOf new) fun _ => Valid :=
    linkNew_valid hd.seats fun _ => hd.helpers
  rw [hd.helpers, List.append_nil] at hlink ⊢
  exact hlink.bind fun _ => Meets.pure fun _ hg => hg.1

end Build

namespace Specialize
open Edit

/-- A special form below its inputs and helpers takes over the children of the general one. -/
theorem substitute_valid (old : NodeId) (op : Operator) (ps : List NodeId) (hs : op.arity.Seats ps)
    (hh : op.arity = .nary → op.helpers = []) :
    Meets (fun g => g.Valid ∧ ∀ p ∈ ps ++ op.helpers, p < g.size)
      (substitute old op (ps ++ op.helpers)) (fun _ => Valid) fun _ => Valid := by
  let P : Plan → Prop := fun g => g.Valid ∧ ∀ p ∈ ps ++ op.helpers, p < g.size
  have horphan : Keeps P Valid (makeOrphan old) := by
    refine Meets.makeOrphan (fun g hg => hg.1.edges) (fun g hg _ => ⟨hg.1.orphaned, ?_⟩)
      fun g hg _ => hg.1
    simpa using hg.2
  refine Meets.bind (M := fun _ => P) (Keeps.node (fun _ hg => hg.1) old) fun n => ?_
  refine Meets.bind horphan fun _ => ?_
  refine Meets.bind (addNode_alone (fun _ hg => hg.1) _ (fun _ hg => hg.2) op n.output) fun new => ?_
  refine Meets.bind (M := fun _ g => g.Alone new op ∧ ∀ p ∈ ps ++ op.helpers, p < new) ?_ fun _ => ?_
  · exact Meets.of_fact fun hlt => (setFlags_alone none _).mono (fun _ hg => hg)
      (fun _ _ hg => ⟨hg, hlt⟩) fun _ _ hg => hg
  refine (linkNew_valid hs hh).bind fun _ => ?_
  have hnodup := IdSet.nodup_toList n.children
  have hadopt : Meets (fun g => g.Valid ∧ ∀ c, ¬ c ∈ g.childrenOf new)
      (n.children.toList.forM fun c => Splice.adopt c old new) (fun _ => Valid) fun _ => Valid :=
    (adoptAll_valid old new hnodup).mono (fun _ hg => ⟨hg.1, fun c _ => hg.2 c⟩) (fun _ _ hg => hg)
      fun _ _ hg => hg
  refine Meets.bind hadopt fun _ => ?_
  have hrefresh : Keeps Valid Valid (refreshColumns new) :=
    (refreshColumns_valid (fun _ => True) new).mono (fun _ hg => ⟨hg, trivial⟩) (fun _ _ hg => hg.1)
      fun _ _ hg => hg
  refine hrefresh.bind fun _ => Keeps.bind ?_ fun _ => Keeps.pure new
  exact (Keeps.fetch (fun _ hg => hg) new).bind fun _ => Keeps.report _

/-- The inputs of a general join are in the plan. -/
theorem join_inputs_lt {g : Plan} (h : g.Valid) {id : NodeId} {join : GeneralJoin}
    (hj : g.generalJoin id = .ok join) : join.left < g.size ∧ join.right < g.size := by
  obtain ⟨n, hn, _, hi⟩ := Plan.generalJoin_eq_ok hj
  have hlt : ∀ p ∈ n.inputs.ids, p < g.size := fun p hp =>
    h.edges.parent_lt (Plan.mem_parentsOf.mpr ⟨n, hn, (h.nodes id n hn).named p hp⟩)
  rw [hi] at hlt
  exact ⟨hlt _ (by simp [Inputs.ids]), hlt _ (by simp [Inputs.ids])⟩

theorem aggregation_input_lt {g : Plan} (h : g.Valid) {id : NodeId} {agg : GeneralAggregation}
    (ha : g.generalAggregation id = .ok agg) : agg.input < g.size := by
  obtain ⟨n, hn, _, hi⟩ := Plan.generalAggregation_eq_ok ha
  have hnamed := (h.nodes id n hn).named agg.input (by simp [hi, Inputs.ids])
  exact h.edges.parent_lt (Plan.mem_parentsOf.mpr ⟨n, hn, hnamed⟩)

theorem hybridJoin_valid (id : NodeId) (trusted : Party) :
    Keeps Valid Valid (hybridJoin id trusted) := by
  refine Keeps.ask_bind (fun _ hg => hg) fun join => ?_
  have hsub := substitute_valid id (.hybridJoin join.keys trusted) [join.left, join.right] rfl
    fun h => nomatch h
  refine hsub.mono (fun g hg => ⟨hg.1, ?_⟩) (fun _ _ hg => hg) fun _ _ hg => hg
  simpa [Operator.helpers] using join_inputs_lt hg.1 hg.2

theorem revealJoin_valid (id : NodeId) (side : Side) (recipient : Party) :
    Keeps Valid Valid (revealJoin id side recipient) := by
  refine Keeps.ask_bind (fun _ hg => hg) fun join => ?_
  refine Meets.bind (M := fun _ g => g.Valid ∧ g.generalJoin id = .ok join)
    (Keeps.node (fun _ hg => hg.1) _) fun shown => ?_
  have hsub := substitute_valid id (.revealJoin join.keys ⟨side, shown.output, recipient⟩)
    [join.left, join.right] rfl fun h => nomatch h
  refine hsub.mono (fun g hg => ⟨hg.1, ?_⟩) (fun _ _ hg => hg) fun _ _ hg => hg
  simpa [Operator.helpers] using join_inputs_lt hg.1 hg.2

theorem indexJoin_valid (id aligner : NodeId) : Keeps Valid Valid (indexJoin id aligner) := by
  refine Keeps.ask_bind (fun _ hg => hg) fun join => ?_
  refine Meets.bind (M := fun _ g => (g.Valid ∧ g.generalJoin id = .ok join) ∧ aligner < g.size)
    (Meets.require (fun _ hg h => ⟨hg, h⟩) fun _ hg _ => hg.1) fun _ => ?_
  have hsub := substitute_valid id (.indexJoin join.keys aligner) [join.left, join.right] rfl
    fun h => nomatch h
  refine hsub.mono (fun g hg => ⟨hg.1.1, ?_⟩) (fun _ _ hg => hg) fun _ _ hg => hg
  obtain ⟨hl, hr⟩ := join_inputs_lt hg.1.1 hg.1.2
  simp [Operator.helpers, hl, hr, hg.2]

theorem indexAggregate_valid (id eqFlags sortedKeys : NodeId) :
    Keeps Valid Valid (indexAggregate id eqFlags sortedKeys) := by
  refine Keeps.ask_bind (fun _ hg => hg) fun agg => ?_
  let P : Plan → Prop := fun g => g.Valid ∧ g.generalAggregation id = .ok agg
  refine Meets.bind (M := fun _ g => P g ∧ eqFlags < g.size)
    (Meets.require (fun _ hg h => ⟨hg, h⟩) fun _ hg _ => hg.1) fun _ => ?_
  refine Meets.bind (M := fun _ g => (P g ∧ eqFlags < g.size) ∧ sortedKeys < g.size)
    (Meets.require (fun _ hg h => ⟨hg, h⟩) fun _ hg _ => hg.1.1) fun _ => ?_
  have hsub := substitute_valid id (.indexAggregate agg.spec eqFlags sortedKeys) [agg.input] rfl
    fun h => nomatch h
  refine hsub.mono (fun g hg => ⟨hg.1.1.1, ?_⟩) (fun _ _ hg => hg) fun _ _ hg => hg
  have hinput := aggregation_input_lt hg.1.1.1 hg.1.1.2
  simp [Operator.helpers, hinput, hg.1.2, hg.2]

end Specialize

theorem Edit.upkeep_valid : Upkeep Valid Valid where
  refused := fun _ hg => hg
  source := by
    intro r _
    refine Meets.bind (addNode_alone (fun _ hg => hg) [] (fun _ _ _ h => nomatch h) .create r)
      fun id => ?_
    refine Meets.bind (M := fun _ => Valid) ?_ fun _ => Meets.pure fun _ hg => hg
    refine Meets.addRoot (fun g hg hid => hg.1.valid.addRoot hid fun p hp => ?_) fun _ hg _ => hg.1.valid
    obtain ⟨n, hn, _, hempty, _⟩ := hg.1.node
    rw [Plan.parentsOf_eq hn, hempty] at hp
    exact IdSet.not_mem_empty p hp
  attach := Build.attach_valid
  mark := fun id => setFlags_valid id _ _
  indexJoin := Specialize.indexJoin_valid
  revealJoin := Specialize.revealJoin_valid
  hybridJoin := Specialize.hybridJoin_valid
  indexAggregate := Specialize.indexAggregate_valid

namespace Splice
open Edit

/-- A node that is let in has a unary operator, no edges and no root. -/
theorem requireFresh_meets {P : Plan → Prop} (id : NodeId) :
    Meets P (requireFresh id) (fun _ g => P g ∧ ¬ id ∈ g.roots ∧
      ∃ n, g.get? id = some n ∧ n.op.arity = .unary ∧ n.parents = ∅ ∧ n.children = ∅) fun _ => P := by
  let S : Plan → Prop := fun g => ∃ n, g.get? id = some n ∧ n.op.arity = .unary
  have hshape : Meets P (requireUnaryShape id) (fun _ g => P g ∧ S g) fun _ => P := by
    refine Meets.bind (M := fun n g => P g ∧ g.get? id = some n)
      (Meets.node (fun _ _ hg hn => ⟨hg, hn⟩) fun _ hg _ => hg) fun n => ?_
    split
    · exact Meets.bind (Meets.plan (Q := fun _ => P) fun _ hg => hg.1) fun _ => Meets.throw fun _ hg => hg
    · next h =>
      have hunary : n.op.arity = .unary := by
        by_contra hne
        exact h (.inl hne)
      exact Meets.pure fun g hg => ⟨hg.1, n, hg.2, hunary⟩
  refine hshape.bind fun _ => ?_
  refine Meets.bind (M := fun n g => (P g ∧ S g) ∧ g.get? id = some n)
    (Meets.node (fun _ _ hg hn => ⟨hg, hn⟩) fun _ hg _ => hg.1) fun n => ?_
  refine Meets.bind (M := fun h g => h = g ∧ (P g ∧ S g) ∧ g.get? id = some n)
    (Meets.plan fun _ hg => ⟨rfl, hg⟩) fun h => ?_
  split
  · exact Meets.throw fun _ hg => hg.2.1.1
  · next hwired =>
    simp only [Bool.or_eq_true, Bool.not_eq_true', decide_eq_true_eq, not_or,
      Bool.not_eq_false, IdSet.isEmpty_iff] at hwired
    refine Meets.pure fun g hg => ?_
    obtain ⟨rfl, ⟨hP, m, hm, hunary⟩, hn⟩ := hg
    rw [hn] at hm
    cases hm
    exact ⟨hP, hwired.2, n, hn, hunary, hwired.1.1, hwired.1.2⟩

theorem requireLink_meets {P : Plan → Prop} (p c : NodeId) :
    Meets P (requireLink p c) (fun _ g => P g ∧ c ∈ g.childrenOf p) fun _ => P := by
  refine Meets.bind (M := fun h g => h = g ∧ P g) (Meets.plan fun _ hg => ⟨rfl, hg⟩) fun h => ?_
  split
  · exact Meets.throw fun _ hg => hg.2
  · next hedge =>
    refine Meets.pure fun g hg => ⟨hg.2, ?_⟩
    rw [← hg.1, ← Plan.hasEdge_iff]
    simpa using hedge

/-- A node that is let in stands alone. -/
theorem alone_of_fresh {g : Plan} (hl : g.Linked) (hv : g.Valid) {id : NodeId} {n : Node}
    (hroot : ¬ id ∈ g.roots) (hn : g.get? id = some n) (hp : n.parents = ∅) (hc : n.children = ∅) :
    g.Alone id n.op := by
  have hsound := hl.nodes id n hn
  have hinputs : n.inputs = .vacant n.op.arity := n.inputs_of_orphan hsound.named hsound.arity hp
  refine ⟨hv, hroot, fun c => ?_, n, hn, rfl, hp, hinputs⟩
  rw [Plan.childrenOf_eq hn, hc]
  exact IdSet.not_mem_empty c

theorem helpers_eq_nil {op : Operator} (hu : op.arity = .unary) (hk : op.kind ≠ .indexAggregate) :
    op.helpers = [] := by
  cases op <;> simp_all [Operator.arity, Operator.kind, Kind.arity, Operator.helpers]

/-- What is put below a parent does not have the children of that parent. A node put below itself has
none that it could share. -/
theorem link_alone (parent id : NodeId) (cs : List NodeId) {op : Operator} (hu : op.arity = .unary)
    (hh : op.helpers = []) :
    Meets (fun g => g.Alone id op ∧ ∀ c ∈ cs, c ∈ g.childrenOf parent) (link parent id)
      (fun _ g => g.Valid ∧ ∀ c ∈ cs, ¬ c ∈ g.childrenOf id) fun _ => Valid := by
  refine Meets.link (fun g hg hp _ => ⟨?_, fun c hc hin => ?_⟩) fun _ _ hg _ => hg.1.valid
  · have hseat : op.arity.Seats [parent] := by
      rw [hu]
      rfl
    have hin : ∀ p ∈ [parent] ++ op.helpers, p < g.size := by
      simpa [hh] using hp
    have hlinked := hg.1.linkAll hseat (fun _ => hh) hin
    rw [hh] at hlinked
    exact hlinked
  · rcases (Plan.mem_childrenOf_addEdge hp).mp hin with ⟨rfl, _⟩ | hin
    · exact hg.1.childless c (hg.2 c hc)
    · exact hg.1.childless c hin

theorem refresh_valid (C : (NodeId → NodeSet) → Prop) (id : NodeId) :
    Keeps (fun g => g.Valid ∧ C g.childrenOf) Valid (refresh id) :=
  (refreshColumns_valid C id).bind fun _ => refreshHolders_valid C id

end Splice

/-- What is put in must not refer to helpers it has no edge to. -/
def Plan.Insertable (g : Plan) (id : NodeId) : Prop :=
  (g.get? id).map Node.kind ≠ some .indexAggregate

namespace Splice
open Edit

theorem requireFresh_alone (id : NodeId) :
    Meets (fun g => (g.Linked ∧ g.Valid) ∧ g.Insertable id) (requireFresh id)
      (fun _ g => ∃ op : Operator, g.Alone id op ∧ op.arity = .unary ∧ op.helpers = [])
      fun _ => Valid := by
  refine (requireFresh_meets id).mono (fun _ hg => hg) (fun _ g hg => ?_) fun _ _ hg => hg.1.2
  obtain ⟨⟨⟨hl, hv⟩, hins⟩, hroot, n, hn, hunary, hp, hc⟩ := hg
  have hkind : n.op.kind ≠ .indexAggregate := by
    intro hk
    exact hins (by rw [hn]; exact congrArg some hk)
  exact ⟨n.op, alone_of_fresh hl hv hroot hn hp hc, hunary, helpers_eq_nil hunary hkind⟩

theorem insertBetween_valid (parent : NodeId) (child : Option NodeId) (id : NodeId) :
    Meets (fun g => (g.Linked ∧ g.Valid) ∧ g.Insertable id) (insertBetween parent child id)
      (fun _ => Valid) fun _ => Valid := by
  refine (requireFresh_alone id).bind fun _ => Meets.of_exists fun op => ?_
  refine Meets.of_fact fun ⟨hu, hh⟩ => ?_
  refine Meets.bind (M := fun _ g => g.Alone id op)
    (Keeps.require (fun _ hg => hg.valid) parent) fun _ => ?_
  have hend : Keeps Valid Valid (reportOn id "inserted " ""
      [("parent", nodeLabel parent), ("child", childDetail child)]) :=
    reportOn_keeps (fun _ hg => hg) _ _ _ _
  cases child with
  | none =>
    have hlink := link_alone parent id [] hu hh
    refine Meets.bind (hlink.mono (fun _ hg => ⟨hg, by simp⟩) (fun _ _ hg => hg) fun _ _ hg => hg)
      fun _ => ?_
    refine Meets.bind (refresh_valid (fun kids => ∀ c ∈ [], ¬ c ∈ kids id) id) fun _ => ?_
    exact hend.mono (fun _ hg => hg.1) (fun _ _ hg => hg) fun _ _ hg => hg
  | some c =>
    have hedge : Meets (fun g => g.Alone id op) (requireLink parent c)
        (fun _ g => g.Alone id op ∧ ∀ d ∈ [c], d ∈ g.childrenOf parent) fun _ => Valid :=
      (requireLink_meets parent c).mono (fun _ hg => hg) (fun _ _ hg => by simpa using hg)
        fun _ _ hg => hg.valid
    refine hedge.bind fun _ => (link_alone parent id [c] hu hh).bind fun _ => ?_
    refine Meets.bind (refresh_valid (fun kids => ∀ d ∈ [c], ¬ d ∈ kids id) id) fun _ => ?_
    have hadopt := adopt_valid parent id c []
    refine Meets.bind (hadopt.mono (fun _ hg => ⟨hg.1, by simp, hg.2⟩) (fun _ _ hg => hg)
      fun _ _ hg => hg) fun _ => ?_
    exact hend.mono (fun _ hg => hg.1) (fun _ _ hg => hg) fun _ _ hg => hg

theorem insertBetweenChildren_valid (parent id : NodeId) :
    Meets (fun g => (g.Linked ∧ g.Valid) ∧ g.Insertable id) (insertBetweenChildren parent id)
      (fun _ => Valid) fun _ => Valid := by
  refine (requireFresh_alone id).bind fun _ => Meets.of_exists fun op => ?_
  refine Meets.of_fact fun ⟨hu, hh⟩ => ?_
  refine Meets.bind (M := fun n g => g.Alone id op ∧ ∀ c ∈ n.children.toList, c ∈ g.childrenOf parent)
    (Meets.node (fun g n hg hn => ⟨hg, fun c hc => ?_⟩) fun _ hg _ => hg.valid) fun n => ?_
  · rw [Plan.childrenOf_eq hn]
    exact hc
  refine (link_alone parent id _ hu hh).bind fun _ => ?_
  refine Meets.bind (refresh_valid (fun kids => ∀ c ∈ n.children.toList, ¬ c ∈ kids id) id)
    fun _ => ?_
  have hnodup := IdSet.nodup_toList n.children
  exact Meets.bind (adoptAll_valid parent id hnodup) fun _ => reportOn_keeps (fun _ hg => hg) _ _ _ _

end Splice

/-- Calls that add to a plan or give a part of it another form. They cut no edge, and declare no root
but a new source. -/
def Call.Grows (d : Draft) : Call → Prop
  | .addNode .. | .build _ | .collect .. | .indexJoin .. | .revealJoin .. | .hybridJoin ..
  | .indexAggregate .. | .markMpc | .optimize _ => True
  | .insertBetween _ _ id | .insertBetweenChildren _ id => d.plan.Insertable id
  | _ => False

open Edit in
theorem Call.valid_after {c : Call} {d : Draft} (ha : c.Grows d) (hl : d.plan.Linked)
    (hv : d.plan.Valid) : (c.after d).plan.Valid := by
  have done : ∀ {α : Type} {x : Edit α}, Keeps Valid Valid x →
      Keeps Valid Valid (do let _ ← x) := fun hx => hx.bind fun _ => Keeps.pure _
  cases c with
  | addNode op name columns holders => exact (done (addNode_valid op _)).after hv
  | build b => exact (done (upkeep_valid.build b)).after hv
  | collect id party => exact (setHolders_valid id _).after hv
  | insertBetween parent child id =>
    exact Meets.after_any (Splice.insertBetween_valid parent child id) ⟨⟨hl, hv⟩, ha⟩
  | insertBetweenChildren parent id =>
    exact Meets.after_any (Splice.insertBetweenChildren_valid parent id) ⟨⟨hl, hv⟩, ha⟩
  | indexJoin id aligner => exact (done (Specialize.indexJoin_valid id aligner)).after hv
  | revealJoin id side recipient =>
    exact (done (Specialize.revealJoin_valid id side recipient)).after hv
  | hybridJoin id trusted => exact (done (Specialize.hybridJoin_valid id trusted)).after hv
  | indexAggregate id eqFlags sortedKeys =>
    exact (done (Specialize.indexAggregate_valid id eqFlags sortedKeys)).after hv
  | markMpc => exact (done upkeep_valid.markMpc).after hv
  | optimize cfg => exact (done (upkeep_valid.optimize cfg)).after hv
  | _ => exact absurd ha id

/-- However a plan is grown, and whatever was refused on the way, it passes validation: edges are known
at both ends, the parents of an attached node are its inputs and helpers, ordered inputs do not repeat,
and roots have no parents. -/
theorem reached_validates {d : Draft} (h : Reached Call.Grows d) :
    d.plan.validate = .ok () ∧ d.plan.Valid := by
  have hv : d.plan.Linked ∧ d.plan.Valid := by
    refine h.always (I := fun g => g.Linked ∧ g.Valid) ⟨.empty, .empty⟩ fun d c ha hd => ?_
    exact ⟨(Call.linked c).after hd.1, c.valid_after ha hd.1 hd.2⟩
  exact ⟨(Plan.validate_eq_ok_iff fun i n hn => (hv.1.nodes i n hn).id).mpr hv.2, hv.2⟩

/-- A join of a node with itself, and a node without columns put above it. The join moves below the new
node with both of its inputs before it is found to be without its keys, and the call is refused. -/
def selfJoin : List Call :=
  [.build (.create "l" [⟨"k", .integer, ∅⟩] (.singleton 1)), .build (.join 0 0 "j" ["k"] ["k"]),
    .addNode .shuffle "s" [] ∅, .insertBetweenChildren 0 2, .hybridJoin 1 1, .optimize {}]

theorem selfJoin_validates :
    let d := Call.afterAll (selfJoin.take 4) ⟨∅, []⟩
    let d' := Call.afterAll selfJoin ⟨∅, []⟩
    ((d.plan.get? 1).map Node.inputs = some (.binary (some 2) (some 2)) ∧
      (d.plan.get? 1).map Node.parents = some (.singleton 2)) ∧
    d'.plan.validate = .ok () ∧ d'.plan.Valid := by
  refine ⟨by decide, reached_validates (Reached.start.afterAll ?_)⟩
  refine ⟨trivial, trivial, trivial, ?_, trivial, trivial, trivial⟩
  show _ ≠ _
  decide

end PartyPlan
