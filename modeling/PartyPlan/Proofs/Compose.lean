import PartyPlan.Proofs.Call
import PartyPlan.Proofs.Seats

/-! Work that is put together from other work keeps what its parts keep. Adding an operator comes down
to a source or to a node below its inputs, special forms aside; the optimizing pass comes down to
special joins and marks. -/
namespace PartyPlan

def Arity.arrange : Arity → List Relation → InputRelations
  | .unary, [r] => { primary := some r }
  | .binary, [l, r] => { left := some l, right := some r }
  | _, _ => {}

structure Derived.Suits (inputs : List NodeId) (rels : List Relation) (d : Derived) : Prop where
  seats : d.op.arity.Seats inputs
  helpers : d.op.helpers = []
  output : d.output.WellFormed
  current : (∀ r ∈ rels, r.WellFormed) → d.op.Current (d.op.arity.arrange rels)

theorem Derived.Fits.suits {r : Relation} {d : Derived} (h : d.Fits r) (input : NodeId) :
    d.Suits [input] [r] where
  seats := by rw [h.arity]; rfl
  helpers := h.helpers
  output := h.output
  current := fun hr => by
    rw [h.arity]
    exact h.current (hr r (by simp))

theorem Derived.Suits.join {left right : NodeId} {l r : Relation} {d : Derived} {keys : JoinKeys}
    (hop : d.op = .join keys) (hout : d.output.WellFormed)
    (hkeys : l.WellFormed → r.WellFormed → keys.Current (some l) (some r)) :
    d.Suits [left, right] [l, r] where
  seats := by rw [hop]; rfl
  helpers := by rw [hop]; rfl
  output := hout
  current := fun hr => by
    rw [hop]
    exact hkeys (hr l (by simp)) (hr r (by simp))

theorem Derived.Suits.concat {inputs : List NodeId} {rels : List Relation} {d : Derived}
    (hop : d.op = .concat) (hout : d.output.WellFormed) (hnodup : inputs.Nodup) :
    d.Suits inputs rels where
  seats := by
    rw [hop]
    exact hnodup
  helpers := by rw [hop]; rfl
  output := hout
  current := fun _ => by rw [hop]; trivial

namespace Plan

variable {g : Plan} {id : NodeId}

theorem node_eq_ok {n : Node} : g.node id = .ok n ↔ g.get? id = some n := by
  unfold node
  cases g.get? id <;> simp

/-- A general join is a node that joins and names both of its inputs. -/
theorem generalJoin_eq_ok {join : GeneralJoin} (h : g.generalJoin id = .ok join) :
    ∃ n, g.get? id = some n ∧ n.op = .join join.keys ∧
      n.inputs = .binary (some join.left) (some join.right) := by
  obtain ⟨n, hn, h⟩ := except_bind_eq_ok.mp h
  rw [node_eq_ok] at hn
  split at h
  · next keys hop =>
    split at h
    · next left right hl hr =>
      cases h
      refine ⟨n, hn, hop, ?_⟩
      unfold Node.left? at hl
      unfold Node.right? at hr
      split at hl
      · next hi => simp_all
      · cases hl
    · cases h
  · cases h

theorem generalJoin_of_node {n : Node} {keys : JoinKeys} {left right : NodeId}
    (hn : g.get? id = some n) (hop : n.op = .join keys)
    (hi : n.inputs = .binary (some left) (some right)) : g.generalJoin id = .ok ⟨keys, left, right⟩ := by
  simp [generalJoin, node_eq_ok.mpr hn, bind, Except.bind, hop, Node.left?, Node.right?, hi, pure,
    Except.pure]

/-- A general aggregation is a node that aggregates and names its input. -/
theorem generalAggregation_eq_ok {agg : GeneralAggregation} (h : g.generalAggregation id = .ok agg) :
    ∃ n, g.get? id = some n ∧ n.op = .aggregate agg.spec ∧ n.inputs = .unary (some agg.input) := by
  obtain ⟨n, hn, h⟩ := except_bind_eq_ok.mp h
  rw [node_eq_ok] at hn
  split at h
  · next spec hop =>
    split at h
    · next input hi =>
      cases h
      refine ⟨n, hn, hop, ?_⟩
      unfold Node.input? at hi
      split at hi
      · next he => exact he.trans (congrArg _ hi)
      · cases hi
    · cases h
  · cases h

theorem generalAggregation_of_node {n : Node} {spec : Aggregation} {input : NodeId}
    (hn : g.get? id = some n) (hop : n.op = .aggregate spec) (hi : n.inputs = .unary (some input)) :
    g.generalAggregation id = .ok ⟨spec, input⟩ := by
  simp [generalAggregation, node_eq_ok.mpr hn, bind, Except.bind, hop, Node.input?, hi, pure, Except.pure]

def attached (g : Plan) (inputs : List NodeId) (d : Derived) : Plan :=
  (g.push d.op d.output).linkAll inputs g.size

variable {inputs : List NodeId} {d : Derived}

@[simp] theorem size_attached : (g.attached inputs d).size = g.size + 1 := by simp [attached]

@[simp] theorem roots_attached : (g.attached inputs d).roots = g.roots := by simp [attached]

theorem get?_attached_new (hin : ∀ p ∈ inputs, p < g.size) :
    (g.attached inputs d).get? g.size = some
      { Node.detached g.size d.op d.output with
        inputs := inputs.foldl Inputs.attach (.vacant d.op.arity)
        parents := inputs.foldl IdSet.insert ∅ } := by
  have hnew : ¬ g.size ∈ inputs := fun hp => Nat.lt_irrefl _ (hin _ hp)
  rw [attached, get?_linkAll, get?_push, if_pos rfl]
  simp [Node.linkedIn, Node.detached, hnew]

end Plan

namespace Edit

variable {I R : Plan → Prop}

def Produce (inputs : List NodeId) (rels : List Relation) (g : Plan) : Prop :=
  inputs.map g.output? = rels.map some

theorem Produce.lt_size {inputs : List NodeId} {rels : List Relation} {g : Plan}
    (h : Produce inputs rels g) {p : NodeId} (hp : p ∈ inputs) : p < g.size := by
  have hmem : g.output? p ∈ rels.map some := h ▸ List.mem_map_of_mem hp
  obtain ⟨r, _, hr⟩ := List.mem_map.mp hmem
  obtain ⟨n, hn, _⟩ := Option.map_eq_some_iff.mp hr.symm
  exact Plan.lt_size hn

theorem Produce.wellFormed {inputs : List NodeId} {rels : List Relation} {g : Plan}
    (h : Produce inputs rels g) (hl : g.Linked) {r : Relation} (hr : r ∈ rels) : r.WellFormed := by
  have hmem : some r ∈ inputs.map g.output? := h ▸ List.mem_map_of_mem hr
  obtain ⟨p, _, hp⟩ := List.mem_map.mp hmem
  obtain ⟨n, hn, rfl⟩ := Option.map_eq_some_iff.mp hp
  exact (hl.nodes p n hn).relation

theorem outputOf_meets {P : Plan → Prop} {R : Error → Plan → Prop} {id : NodeId}
    (hR : ∀ g, P g → ¬ id < g.size → R (.unknownNode id) g) :
    Meets P (Build.outputOf id) (fun r g => P g ∧ g.output? id = some r) R := by
  refine Meets.bind (M := fun n g => P g ∧ g.get? id = some n)
    (Meets.node (fun _ _ hg hn => ⟨hg, hn⟩) hR) fun n => ?_
  exact Meets.pure fun g hg => ⟨hg.1, by simp [Plan.output?, hg.2]⟩

theorem outputs_meets {P : Plan → Prop} {R : Error → Plan → Prop} {ids : List NodeId}
    (hR : ∀ p ∈ ids, ∀ g, P g → ¬ p < g.size → R (.unknownNode p) g) :
    Meets P (ids.mapM Build.outputOf) (fun rels g => P g ∧ Produce ids rels g) R := by
  induction ids with
  | nil => exact Meets.pure fun g hg => ⟨hg, rfl⟩
  | cons id ids ih =>
    rw [List.mapM_cons]
    have ih := ih fun p hp => hR p (by simp [hp])
    refine Meets.bind (outputOf_meets (hR id (by simp))) fun r => ?_
    -- the rest of the list leaves the plan alone, so the first output is still there
    have hrest : Meets (fun g => g.output? id = some r) (ids.mapM Build.outputOf)
        (fun _ g => g.output? id = some r) fun _ _ => True :=
      Keeps.mapM (fun a => (Keeps.node (fun _ _ => trivial) a).bind fun _ => Keeps.pure _) ids
    refine Meets.bind ((Meets.and ih hrest).mono (fun _ hg => hg) (fun _ _ hg => hg)
      fun _ _ hg => hg.1) fun rels => ?_
    refine Meets.pure fun g hg => ⟨hg.1.1, ?_⟩
    have hids : ids.map g.output? = rels.map some := hg.1.2
    simp [Produce, hids, hg.2]

/-- A node is put below inputs that are there, and this is never refused. -/
theorem attach_exact {g : Plan} {inputs : List NodeId} {d : Derived} {R : Error → Plan → Prop}
    (hin : ∀ p ∈ inputs, p < g.size) :
    Meets (· = g) (Build.attach inputs d) (fun id h => id = g.size ∧ h = g.attached inputs d) R := by
  refine Meets.bind (M := fun id h => id = g.size ∧ h = g.push d.op d.output) (Meets.addNode ?_)
    fun id => ?_
  · rintro h rfl
    exact ⟨rfl, rfl⟩
  refine Meets.bind (M := fun _ h => id = g.size ∧ h = g.attached inputs d) (Meets.linkAll ?_ ?_)
    fun _ => Meets.pure fun _ hh => hh
  · rintro h ⟨rfl, rfl⟩
    exact ⟨by simp, fun p hp => by simpa using Nat.lt_succ_of_lt (hin p hp)⟩
  · rintro h ⟨rfl, rfl⟩
    exact ⟨rfl, rfl⟩

/-- What has to be kept so that every builder and the optimizing pass keep it. -/
structure Upkeep (I R : Plan → Prop) : Prop where
  refused : ∀ g, I g → R g
  source : ∀ {r : Relation}, r.WellFormed →
    Keeps I R (do let id ← addNode .create r; addRoot id; return id)
  attach : ∀ {inputs : List NodeId} {rels : List Relation} {d : Derived}, d.Suits inputs rels →
    Meets (fun g => I g ∧ Produce inputs rels g) (Build.attach inputs d) (fun _ => I) fun _ => R
  mark : ∀ id, Keeps I R (setFlags id none (some true))
  indexJoin : ∀ id aligner, Keeps I R (Specialize.indexJoin id aligner)
  revealJoin : ∀ id side recipient, Keeps I R (Specialize.revealJoin id side recipient)
  hybridJoin : ∀ id trusted, Keeps I R (Specialize.hybridJoin id trusted)
  indexAggregate : ∀ id eqFlags sortedKeys,
    Keeps I R (Specialize.indexAggregate id eqFlags sortedKeys)

namespace Upkeep

variable (h : Upkeep I R)
include h

theorem create (name : String) (columns : List ColumnSpec) (holders : PartySet) :
    Keeps I R (Build.create name columns holders) := by
  refine Keeps.settle_bind h.refused fun d hd => ?_
  obtain ⟨hop, hout⟩ := Derive.create_wellFormed hd
  rw [hop]
  exact h.source hout

theorem unary (input : NodeId) {derive : Relation → Except Error Derived}
    (hd : ∀ r d, derive r = .ok d → d.Fits r) : Keeps I R (Build.unary input derive) := by
  refine Meets.bind (outputOf_meets fun g hg _ => h.refused g hg) fun r => ?_
  refine Meets.bind (M := fun d g => (I g ∧ g.output? input = some r) ∧ derive r = .ok d)
    (Meets.settle (fun _ hr _ hg => ⟨hg, hr⟩) fun _ _ g hg => h.refused g hg.1) fun d => ?_
  refine Meets.of_fact fun hr => (h.attach ((hd r d hr).suits input)).mono (fun g hg => ?_)
    (fun _ _ hg => hg) fun _ _ hg => hg
  exact ⟨hg.1, by simp [Produce, hg.2]⟩

theorem join (left right : NodeId) (name : String) (leftKeys rightKeys : List String) :
    Keeps I R (Build.join left right name leftKeys rightKeys) := by
  unfold Build.join
  split
  · exact Keeps.throw h.refused _
  refine Meets.bind (outputOf_meets fun g hg _ => h.refused g hg) fun l => ?_
  refine Meets.bind (outputOf_meets fun g hg _ => h.refused g hg.1) fun r => ?_
  refine Meets.bind (M := fun d g => ((I g ∧ g.output? left = some l) ∧ g.output? right = some r) ∧
      Derive.join l r name leftKeys rightKeys = .ok d)
    (Meets.settle (fun _ hd _ hg => ⟨hg, hd⟩) fun _ _ g hg => h.refused g hg.1.1) fun d => ?_
  refine Meets.of_fact fun hd => ?_
  obtain ⟨keys, hop, hout, hkeys⟩ := Derive.join_eq_ok hd
  have hs : d.Suits [left, right] [l, r] := .join hop hout hkeys
  refine (h.attach hs).mono (fun g hg => ⟨hg.1.1, ?_⟩) (fun _ _ hg => hg) fun _ _ hg => hg
  simp [Produce, hg.1.2, hg.2]

theorem concat (inputs : List NodeId) (name : String) (names : Option (List String)) :
    Keeps I R (Build.concat inputs name names) := by
  unfold Build.concat
  dsimp only
  split
  · exact Keeps.throw h.refused _
  split
  · exact Keeps.throw h.refused _
  · next hnodup =>
    refine Meets.bind (outputs_meets fun _ _ g hg _ => h.refused g hg) fun rels => ?_
    refine Meets.bind (M := fun d g => (I g ∧ Produce inputs rels g) ∧
        Derive.concat rels name names = .ok d)
      (Meets.settle (fun _ hd _ hg => ⟨hg, hd⟩) fun _ _ g hg => h.refused g hg.1) fun d => ?_
    refine Meets.of_fact fun hd => h.attach ?_
    obtain ⟨hop, hout⟩ := Derive.concat_eq_ok hd
    exact .concat hop hout (not_not.mp hnodup)

theorem build (b : Builder) : Keeps I R b.run := by
  refine b.run_cases (S := Keeps I R) h.create (fun input derive hd => h.unary input hd) ?_ h.join ?_
    h.concat
  · intro input name groupBy folded aggregator result eqFlags sortedKeys
    refine (Keeps.require h.refused eqFlags).bind fun _ => ?_
    refine (Keeps.require h.refused sortedKeys).bind fun _ => ?_
    refine (h.unary input fun _ _ hd => Derive.aggregate_fits hd).bind fun id => ?_
    exact h.indexAggregate id eqFlags sortedKeys
  · intro left right name leftKeys rightKeys aligner
    refine (Keeps.require h.refused aligner).bind fun _ => ?_
    exact (h.join left right name leftKeys rightKeys).bind fun id => h.indexJoin id aligner

theorem markAll (ids : List NodeId) : Keeps I R (Optimize.markAll ids) := by
  induction ids with
  | nil => exact Keeps.pure _
  | cons id ids ih =>
    refine Keeps.bind ?_ fun _ => ih.bind fun _ => Keeps.pure _
    refine (Keeps.fetch h.refused id).bind fun n => ?_
    split
    · exact Keeps.pure _
    refine (Keeps.ask h.refused _).bind fun needed => ?_
    split
    · exact (h.mark id).bind fun _ => Keeps.pure _
    · exact Keeps.pure _

theorem markMpc : Keeps I R Optimize.markMpc :=
  (Keeps.ask h.refused _).bind fun order => (h.markAll order).bind fun _ =>
    (Keeps.report _).bind fun _ => Keeps.pure _

theorem choose (cfg : Config) (id : NodeId) : Keeps I R (Optimize.choose cfg id) := by
  have hverify : Keeps I R (Optimize.verify cfg) := by
    unfold Optimize.verify
    split
    · exact Keeps.ask h.refused _
    · exact Keeps.pure _
  have hhybrid : Keeps I R (Optimize.tryHybrid cfg id) := by
    unfold Optimize.tryHybrid
    split
    · exact Keeps.pure _
    refine (Keeps.ask h.refused _).bind fun candidate => ?_
    cases candidate with
    | none => exact Keeps.pure _
    | some party => exact (h.hybridJoin id party).bind fun _ => hverify.bind fun _ => Keeps.pure _
  have hreveal : Keeps I R (Optimize.tryReveal cfg id) := by
    unfold Optimize.tryReveal
    split
    · exact Keeps.pure _
    refine (Keeps.ask h.refused _).bind fun candidate => ?_
    cases candidate with
    | none => exact Keeps.pure _
    | some sp => exact (h.revealJoin id sp.1 sp.2).bind fun _ => hverify.bind fun _ => Keeps.pure _
  have hwarn : Keeps I R (Optimize.warnOf id) := by
    refine (Keeps.ask h.refused _).bind fun needed => ?_
    split
    · exact (Keeps.fetch h.refused id).bind fun _ => Keeps.report _
    · exact Keeps.pure _
  refine (Keeps.fetch h.refused id).bind fun n => ?_
  split
  · exact Keeps.pure _
  refine hhybrid.bind fun new => ?_
  cases new with
  | some new => exact Keeps.pure _
  | none =>
    refine hreveal.bind fun new => ?_
    cases new with
    | some new => exact Keeps.pure _
    | none => exact hwarn.bind fun _ => Keeps.pure _

theorem optimize (cfg : Config) : Keeps I R (Optimize.run cfg) := by
  have hall : ∀ ids r, Keeps I R (Optimize.chooseAll cfg ids r) := by
    intro ids
    induction ids with
    | nil => exact fun r => Keeps.pure _
    | cons id ids ih => exact fun r => (h.choose cfg id).bind fun _ => ih _
  refine (Keeps.settle h.refused _).bind fun _ => (Keeps.ask h.refused _).bind fun order => ?_
  exact (hall order {}).bind fun _ => h.markMpc.bind fun _ => (Keeps.report _).bind fun _ =>
    Keeps.pure _

end Upkeep
end Edit
end PartyPlan
