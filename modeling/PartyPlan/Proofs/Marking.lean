import PartyPlan.Optimize
import PartyPlan.Proofs.Mirror
import PartyPlan.Proofs.Reach

/-! Marks for nodes that need a secure protocol. Whether a node needs one does not hang on any mark, so it
does not matter in which order nodes are marked: in the end just those of a list that need one have got
it, and the others are as they were. -/
namespace PartyPlan

namespace Plan

variable {g g' : Plan} {i id : NodeId} {ids done : List NodeId} {n : Node}

namespace Marked

theorem get?_eq_none (h : g.Marked g') (hn : g.get? i = none) : g'.get? i = none := by
  have hout : ¬ i < g'.size := by simp [h.size, lt_size_iff, hn]
  simpa [lt_size_iff, Option.eq_none_iff_forall_ne_some] using hout

theorem of_get? (h : g.Marked g') (hn : g'.get? i = some n) :
    ∃ m b, g.get? i = some m ∧ n = { m with isMpc := b } := by
  obtain ⟨m, hm⟩ := lt_size_iff.mp (h.size ▸ lt_size hn)
  obtain ⟨b, hb, _⟩ := h.nodes i m hm
  exact ⟨m, b, hm, Option.some.inj (hn.symm.trans hb)⟩

/-- What does not look at marks sees the same. -/
theorem view {α : Type} (h : g.Marked g') {k : Node → α} (hk : ∀ n b, k { n with isMpc := b } = k n)
    (i : NodeId) : (g'.get? i).map k = (g.get? i).map k := by
  cases hn : g.get? i with
  | none => rw [h.get?_eq_none hn]
  | some n =>
    obtain ⟨b, hb, _⟩ := h.nodes i n hn
    rw [hb, Option.map_some, Option.map_some, hk]

theorem output? (h : g.Marked g') : g'.output? = g.output? := funext (h.view fun _ _ => rfl)

theorem parentsOf (h : g.Marked g') : g'.parentsOf = g.parentsOf :=
  funext fun i => congrArg (Option.getD · ∅) (h.view (k := (·.parents)) (fun _ _ => rfl) i)

theorem childrenOf (h : g.Marked g') : g'.childrenOf = g.childrenOf :=
  funext fun i => congrArg (Option.getD · ∅) (h.view (k := (·.children)) (fun _ _ => rfl) i)

theorem operatorInputs (h : g.Marked g') (i : NodeId) : g'.operatorInputs i = g.operatorInputs i := by
  unfold Plan.operatorInputs inputRelation? leftRelation? rightRelation?
  rw [h.output?]
  cases hn : g.get? i with
  | none => rw [h.get?_eq_none hn]
  | some n =>
    obtain ⟨b, hb, _⟩ := h.nodes i n hn
    rw [hb]
    rfl

/-- Marks do not make a node need a secure protocol, nor keep it from needing one. -/
theorem requiresMpc (h : g.Marked g') (i : NodeId) : g'.requiresMpc i = g.requiresMpc i := by
  have hinput : g'.inputRelation? i = g.inputRelation? i :=
    congrArg InputRelations.primary (h.operatorInputs i)
  unfold Plan.requiresMpc
  rw [hinput, h.output?, fetch, fetch, h.size]
  cases hn : g.get? i with
  | none => rw [h.get?_eq_none hn]
  | some n =>
    obtain ⟨b, hb, _⟩ := h.nodes i n hn
    rw [hb]
    rfl

end Marked

def unmarked (g : Plan) (i : NodeId) : Bool :=
  decide (g.requiresMpc i = .ok true) && (g.get? i).any (!·.isMpc)

def marking (g : Plan) (ids : List NodeId) : Plan :=
  { g with nodes := g.nodes.mapIdx fun i n =>
      if i ∈ ids ∧ g.requiresMpc i = .ok true then { n with isMpc := true } else n }

theorem get?_marking (g : Plan) (ids : List NodeId) (i : NodeId) : (g.marking ids).get? i =
    (g.get? i).map fun n =>
      if i ∈ ids ∧ g.requiresMpc i = .ok true then { n with isMpc := true } else n := by
  simp [marking, get?]

theorem marked_marking (g : Plan) (ids : List NodeId) : g.Marked (g.marking ids) where
  roots := rfl
  size := by simp [marking, size]
  nodes i n hn := by
    rw [get?_marking, hn, Option.map_some]
    split
    · exact ⟨true, rfl, fun _ => rfl⟩
    · exact ⟨n.isMpc, rfl, fun hm => hm⟩

theorem marking_nil (g : Plan) : g.marking [] = g := by
  refine ext_get? rfl fun i => ?_
  rw [get?_marking]
  cases g.get? i <;> simp

/-- Where nothing is left to be marked, nothing changes. -/
theorem marking_append_eq (h : ∀ i ∈ ids, g.unmarked i = false) :
    g.marking (done ++ ids) = g.marking done := by
  refine ext_get? rfl fun i => ?_
  rw [get?_marking, get?_marking]
  cases hn : g.get? i with
  | none => rfl
  | some n =>
    by_cases hneeds : g.requiresMpc i = .ok true
    · by_cases hi : i ∈ ids
      · have hmark : n.isMpc = true := by simpa [unmarked, hneeds, hn] using h i hi
        simp [hneeds, hi, ← hmark]
      · simp [hi]
    · simp [hneeds]

theorem marking_eq_self (h : ∀ i ∈ ids, g.unmarked i = false) : g.marking ids = g := by
  have happend : g.marking ([] ++ ids) = g.marking [] := marking_append_eq h
  rwa [List.nil_append, marking_nil] at happend

theorem marking_concat (hneeds : g.requiresMpc id = .ok true) : g.marking (done ++ [id]) =
    (g.marking done).update id fun n =>
      { n with isLocal := none.getD n.isLocal, isMpc := (some true).getD n.isMpc } := by
  refine ext_get? rfl fun i => ?_
  rw [get?_update, get?_marking, get?_marking]
  by_cases hi : id = i
  · subst hi
    rw [if_pos rfl, Option.map_map]
    congr 1
    funext n
    by_cases hd : id ∈ done <;> simp [hneeds, hd]
  · simp [hi, Ne.symm hi]

/-- What was marked needs no further mark. -/
theorem unmarked_marking (hi : i ∈ ids) : (g.marking ids).unmarked i = false := by
  rw [unmarked, (marked_marking g ids).requiresMpc, get?_marking]
  by_cases hneeds : g.requiresMpc i = .ok true
  · cases g.get? i <;> simp [hi, hneeds]
  · simp [hneeds]

end Plan

namespace Optimize
open Edit Plan

variable {g : Plan} {id : NodeId} {ids done : List NodeId}

theorem markNode_exact (hid : id < g.size) (hnew : ¬ id ∈ done) :
    Meets (· = g.marking done) (markNode id)
      (fun c h => h = g.marking (done ++ [id]) ∧ c = [id].countP g.unmarked) fun _ _ => False := by
  obtain ⟨n, hn⟩ := lt_size_iff.mp hid
  obtain ⟨needs, hneeds⟩ := requiresMpc_eq_ok hid
  have hget : (g.marking done).get? id = some n := by
    rw [get?_marking, hn, Option.map_some, if_neg fun h => hnew h.1]
  have hask : (g.marking done).requiresMpc id = .ok needs := by
    rw [(marked_marking g done).requiresMpc, hneeds]
  have hidle : g.unmarked id = false → g.marking done = g.marking (done ++ [id]) ∧
      0 = [id].countP g.unmarked := by
    intro h
    exact ⟨(marking_append_eq (by simpa using h)).symm, by simp [h]⟩
  refine Meets.bind (Meets.ask_known (fetch_eq_ok.mpr hget)) fun m => Meets.of_fact fun hm => ?_
  subst hm
  split
  · next hmark =>
    obtain ⟨hsame, hcount⟩ := hidle (by simp [unmarked, hn, hmark])
    exact Meets.pure fun h hh => ⟨hh.trans hsame, hcount⟩
  next hmark =>
  refine Meets.bind (Meets.ask_known hask) fun b => Meets.of_fact fun hb => ?_
  subst hb
  split
  · next hb =>
    subst hb
    refine Meets.bind (M := fun _ h => h = g.marking (done ++ [id])) (Meets.setFlags ?_ ?_) fun _ =>
      Meets.pure fun h hh => ⟨hh, by simp [unmarked, hneeds, hn, hmark]⟩
    · rintro h rfl _
      exact (marking_concat hneeds).symm
    · rintro h rfl hlt
      exact hlt (lt_size hget)
  · next hb =>
    obtain ⟨hsame, hcount⟩ := hidle (by simp [unmarked, hneeds, hb])
    exact Meets.pure fun h hh => ⟨hh.trans hsame, hcount⟩

/-- Nodes of a list are marked one after the other. -/
theorem markAll_exact (done : List NodeId) (hids : ∀ x ∈ ids, x < g.size)
    (hnodup : (done ++ ids).Nodup) :
    Meets (· = g.marking done) (markAll ids)
      (fun c h => h = g.marking (done ++ ids) ∧ c = ids.countP g.unmarked) fun _ _ => False := by
  induction ids generalizing done with
  | nil => exact Meets.pure fun h hh => ⟨by rw [hh, List.append_nil], rfl⟩
  | cons id ids ih =>
    have hnew : ¬ id ∈ done := fun hmem =>
      List.disjoint_of_nodup_append hnodup hmem List.mem_cons_self
    have hsplit : done ++ id :: ids = (done ++ [id]) ++ ids := by simp
    rw [hsplit] at hnodup ⊢
    refine Meets.bind (markNode_exact (hids id (by simp)) hnew) fun first => Meets.of_fact fun hfirst => ?_
    refine Meets.bind (ih (done ++ [id]) (fun x hx => hids x (by simp [hx])) hnodup) fun rest =>
      Meets.of_fact fun hrest => Meets.pure fun h hh => ⟨hh, ?_⟩
    rw [hfirst, hrest, ← List.countP_append]
    rfl

/-- Marking a plan that can be sorted is not refused. Every node some root leads to has the mark it needs
then, and the answer is the number of marks that were missing. -/
theorem markMpc_exact (hg : g.InRange) {order : List NodeId} (horder : g.topSort true = .ok order) :
    Meets (· = g) markMpc (fun c h => h = g.marking order ∧ c = order.countP g.unmarked)
      fun _ _ => False := by
  obtain ⟨hnodup, hmem⟩ := topSort_places horder
  refine Meets.bind (Meets.ask_known horder) fun o => Meets.of_fact fun ho => ?_
  subst ho
  have hmark := markAll_exact [] (fun x hx => hg.reaches_lt ((hmem x).mp hx)) hnodup
  rw [marking_nil, List.nil_append] at hmark
  refine Meets.bind hmark fun c => ?_
  exact Meets.bind (Meets.report fun _ hh => hh) fun _ => Meets.pure fun _ hh => hh

end Optimize
end PartyPlan
