import PartyPlan.Proofs.Validity

/-! What validation checks, said of the plan as a whole. The checks go from node to node and stop at the
first fault; together they say that the records of the plan agree, no more and no less. -/
namespace PartyPlan

/-- The records of a plan agree. Numbers lead to nodes and both ends of an edge know it. A node stands
below the inputs it names and its helpers and below nothing else; one that stands below nothing names
nothing, though it may refer to helpers it once had. Ordered inputs do not repeat, and roots stand below
nothing. -/
structure Plan.Coherent (g : Plan) : Prop where
  parents : ∀ i n, g.get? i = some n → ∀ p ∈ n.parents, p < g.size
  children : ∀ i n, g.get? i = some n → ∀ c ∈ n.children, c < g.size
  roots : ∀ r ∈ g.roots, r < g.size
  edges : ∀ p c parent child, g.get? p = some parent → g.get? c = some child →
    (p ∈ child.parents ↔ c ∈ parent.children)
  sources : ∀ i n, g.get? i = some n → n.parents ≠ ∅ → IdSet.ofList n.sources = n.parents
  detached : ∀ i n, g.get? i = some n → n.parents = ∅ → n.inputs.ids = []
  ordered : ∀ i n, g.get? i = some n → ∀ ids, n.inputs = .nary ids → ids.Nodup
  tops : ∀ r ∈ g.roots, ∀ n, g.get? r = some n → n.parents = ∅

theorem Inputs.distinct_iff {inputs : Inputs} :
    inputs.Distinct ↔ ∀ ids, inputs = .nary ids → ids.Nodup := by
  cases inputs <;> simp [Distinct]

namespace Node

variable {n : Node}

/-- Tied to some parents, a node has just its sources as parents. -/
theorem Tied.ofList_sources (h : n.Tied) (hne : n.parents ≠ ∅) : IdSet.ofList n.sources = n.parents := by
  rw [ne_eq, IdSet.eq_empty_iff, not_forall_not] at hne
  obtain ⟨q, hq⟩ := hne
  ext p
  rw [IdSet.mem_ofList, sources, List.mem_append]
  refine ⟨fun hp => ?_, h.covered p⟩
  rcases hp with hp | hp
  · exact h.named p hp
  · exact h.bound q hq p hp

theorem Tied.ids_eq_nil (h : n.Tied) (hnone : n.parents = ∅) : n.inputs.ids = [] := by
  refine List.eq_nil_iff_forall_not_mem.mpr fun p hp => ?_
  exact IdSet.eq_empty_iff.mp hnone p (h.named p hp)

theorem tied_of_sources (hsome : n.parents ≠ ∅ → IdSet.ofList n.sources = n.parents)
    (hnone : n.parents = ∅ → n.inputs.ids = []) (hd : n.inputs.Distinct) : n.Tied := by
  by_cases hp : n.parents = ∅
  · exact ⟨by simp [hnone hp], by simp [hp], by simp [hp], hd⟩
  · have hmem : ∀ p, p ∈ n.parents ↔ p ∈ n.inputs.ids ∨ p ∈ n.op.helpers := by
      intro p
      rw [← hsome hp, IdSet.mem_ofList, sources, List.mem_append]
    exact ⟨fun p h => (hmem p).mpr (.inl h), fun p => (hmem p).mp,
      fun _ _ p h => (hmem p).mpr (.inr h), hd⟩

end Node

namespace Plan

variable {g : Plan}

/-- A number without a node lists nothing, so mutual edges have nodes at both ends. -/
theorem mutual_of_nodes (hp : ∀ i n, g.get? i = some n → ∀ p ∈ n.parents, p < g.size)
    (hc : ∀ i n, g.get? i = some n → ∀ c ∈ n.children, c < g.size)
    (he : ∀ p c parent child, g.get? p = some parent → g.get? c = some child →
      (p ∈ child.parents ↔ c ∈ parent.children)) : g.Mutual := by
  intro p c
  constructor
  · intro h
    obtain ⟨child, hchild, hmem⟩ := mem_parentsOf.mp h
    obtain ⟨parent, hparent⟩ := lt_size_iff.mp (hp c child hchild p hmem)
    exact mem_childrenOf.mpr ⟨parent, hparent, (he p c parent child hparent hchild).mp hmem⟩
  · intro h
    obtain ⟨parent, hparent, hmem⟩ := mem_childrenOf.mp h
    obtain ⟨child, hchild⟩ := lt_size_iff.mp (hc p parent hparent c hmem)
    exact mem_parentsOf.mpr ⟨child, hchild, (he p c parent child hparent hchild).mpr hmem⟩

theorem Valid.coherent (h : g.Valid) : g.Coherent where
  parents i n hn p hp := h.edges.parent_lt (mem_parentsOf.mpr ⟨n, hn, hp⟩)
  children i n hn c hc := h.edges.child_lt (mem_childrenOf.mpr ⟨n, hn, hc⟩)
  roots r hr := (h.roots r hr).1
  edges p c parent child hp hc := by
    rw [← parentsOf_eq hc, ← childrenOf_eq hp]
    exact h.edges p c
  sources i n hn := (h.nodes i n hn).ofList_sources
  detached i n hn := (h.nodes i n hn).ids_eq_nil
  ordered i n hn := Inputs.distinct_iff.mp (h.nodes i n hn).distinct
  tops r hr n hn := by
    rw [IdSet.eq_empty_iff, ← parentsOf_eq hn]
    exact (h.roots r hr).2

theorem Coherent.valid (h : g.Coherent) : g.Valid where
  edges := mutual_of_nodes h.parents h.children h.edges
  nodes i n hn := Node.tied_of_sources (h.sources i n hn) (h.detached i n hn)
    (Inputs.distinct_iff.mpr (h.ordered i n hn))
  roots r hr := by
    obtain ⟨n, hn⟩ := lt_size_iff.mp (h.roots r hr)
    rw [parentsOf_eq hn, h.tops r hr n hn]
    exact ⟨h.roots r hr, IdSet.not_mem_empty⟩

end Plan

/-- Validation accepts a plan whose nodes know their numbers just when its records agree. -/
theorem validate_iff_coherent (g : Plan) (hid : ∀ i n, g.get? i = some n → n.id = i) :
    g.validate = .ok () ↔ g.Coherent :=
  (Plan.validate_eq_ok_iff hid).trans ⟨Plan.Valid.coherent, Plan.Coherent.valid⟩

def alignedJoin : List Call :=
  [.build (.create "l" [⟨"k", .integer, ∅⟩] (.singleton 1)),
    .build (.create "r" [⟨"k", .integer, ∅⟩] (.singleton 2)), .build (.index 0 "rows" "row"),
    .build (.indexJoin 0 1 "j" ["k"] ["k"] 2)]

/-- Without any parents the join may refer to its index; with all parents but the index it may not. -/
theorem alignedJoin_validate_iff_coherent :
    let cut := (Call.afterAll (alignedJoin ++ [.makeOrphan 4]) ⟨∅, []⟩).plan
    let frayed := (Call.afterAll (alignedJoin ++ [.removeParent 4 2]) ⟨∅, []⟩).plan
    (∃ n, cut.get? 4 = some n ∧ n.parents = ∅ ∧ n.op.helpers = [2]) ∧ cut.Coherent ∧
      ¬ frayed.Coherent := by
  intro cut frayed
  have hplace : ∀ cs i n, (Call.afterAll cs ⟨∅, []⟩).plan.get? i = some n → n.id = i :=
    fun cs i n hn => ((Call.linked_afterAll cs).nodes i n hn).id
  refine ⟨?_, (validate_iff_coherent cut (hplace _)).mp (by decide +kernel), fun h => ?_⟩
  · have hcut : (cut.get? 4).any (fun n => n.parents.isEmpty && n.op.helpers == [2]) = true := by
      decide +kernel
    obtain ⟨n, hn, hboth⟩ := Option.any_eq_true .. |>.mp hcut
    rw [Bool.and_eq_true, IdSet.isEmpty_iff, beq_iff_eq] at hboth
    exact ⟨n, hn, hboth⟩
  · have hfrayed : (frayed.validate).toOption = none := by decide +kernel
    rw [(validate_iff_coherent frayed (hplace _)).mpr h] at hfrayed
    cases hfrayed

end PartyPlan
