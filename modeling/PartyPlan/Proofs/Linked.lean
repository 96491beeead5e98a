import PartyPlan.Proofs.Links

/-! The records of a plan that every edit keeps in step: the number of a node is its place, edges are
known at both ends, a node names only its parents and in the places its operator has, and its columns
stand where they say. -/
namespace PartyPlan

structure Node.Sound (i : NodeId) (n : Node) : Prop where
  id : n.id = i
  named : ∀ p ∈ n.inputs.ids, p ∈ n.parents
  arity : n.inputs.arity = n.op.arity
  relation : n.output.WellFormed

structure Plan.Linked (g : Plan) : Prop where
  edges : g.Mutual
  roots : ∀ r ∈ g.roots, r < g.size
  nodes : ∀ i n, g.get? i = some n → n.Sound i

theorem Inputs.eq_vacant {inputs : Inputs} (h : inputs.ids = []) : inputs = .vacant inputs.arity := by
  cases inputs <;> simp_all [ids, vacant, arity]

/-- A node that names only parents, and has none, names nothing. -/
theorem Node.inputs_of_orphan {n : Node} (hnamed : ∀ p ∈ n.inputs.ids, p ∈ n.parents)
    (harity : n.inputs.arity = n.op.arity) (hp : n.parents = ∅) : n.inputs = .vacant n.op.arity := by
  have hids : n.inputs.ids = [] := by
    refine List.eq_nil_iff_forall_not_mem.mpr fun p hmem => ?_
    exact IdSet.not_mem_empty p (hp ▸ hnamed p hmem)
  rw [← harity]
  exact Inputs.eq_vacant hids

namespace Relation

theorem WellFormed.heldBy {r : Relation} (h : r.WellFormed) (s : PartySet) :
    (r.heldBy s).WellFormed := h

end Relation

namespace Node.Sound

variable {i c p old new : NodeId} {n : Node}

theorem detached (i : NodeId) (op : Operator) {r : Relation} (hr : r.WellFormed) :
    (Node.detached i op r).Sound i where
  id := rfl
  named := by simp [Node.detached]
  arity := by simp [Node.detached]
  relation := hr

theorem withChild (h : n.Sound i) : (n.withChild c).Sound i := ⟨h.id, h.named, h.arity, h.relation⟩

theorem withoutChild (h : n.Sound i) : (n.withoutChild c).Sound i :=
  ⟨h.id, h.named, h.arity, h.relation⟩

theorem withParent (h : n.Sound i) : (n.withParent p).Sound i where
  id := h.id
  named := by
    intro q hq
    rcases Inputs.mem_ids_attach hq with rfl | hq
    · simp [Node.withParent]
    · simp [Node.withParent, h.named q hq]
  arity := (Inputs.arity_attach ..).trans h.arity
  relation := h.relation

theorem withoutParent (h : n.Sound i) {rest : Inputs} (hd : n.inputs.detach p = .ok rest) :
    (n.withoutParent p rest).Sound i where
  id := h.id
  named := by
    intro q hq
    obtain ⟨hq, hne⟩ := (Inputs.mem_ids_of_detach hd).mp hq
    simp [Node.withoutParent, h.named q hq, hne]
  arity := (Inputs.arity_of_detach hd).trans h.arity
  relation := h.relation

theorem withParentReplaced (h : n.Sound i) : (n.withParentReplaced old new).Sound i where
  id := h.id
  named := by
    intro q hq
    simp only [Node.withParentReplaced, Inputs.ids_replace, List.mem_map] at hq
    obtain ⟨a, ha, rfl⟩ := hq
    unfold Operator.swap
    split
    · simp [Node.withParentReplaced]
    · next hne => simp [Node.withParentReplaced, h.named a ha, hne]
  arity := by
    simpa [Node.withParentReplaced, Operator.arity] using h.arity
  relation := h.relation

theorem orphan (h : n.Sound i) : n.withoutParents.withoutInputs.Sound i where
  id := h.id
  named := by simp [Node.withoutInputs]
  arity := by simp [Node.withoutInputs, Node.withoutParents]
  relation := h.relation

theorem heldBy (h : n.Sound i) (s : PartySet) : (n.heldBy s).Sound i :=
  ⟨h.id, h.named, h.arity, h.relation.heldBy s⟩

theorem withOp (h : n.Sound i) {op : Operator} (hk : op.kind = n.op.kind) :
    ({ n with op } : Node).Sound i :=
  ⟨h.id, h.named, h.arity.trans (congrArg Kind.arity hk.symm), h.relation⟩

theorem withFlags (h : n.Sound i) (isLocal isMpc : Bool) :
    ({ n with isLocal, isMpc } : Node).Sound i := ⟨h.id, h.named, h.arity, h.relation⟩

end Node.Sound

namespace Plan

variable {g : Plan} {id p c old new : NodeId} {f : Node → Node}

/-- What holds of every node still does when one is changed in a way that keeps it. -/
theorem forall_update {S : NodeId → Node → Prop} (h : ∀ i n, g.get? i = some n → S i n)
    (hf : ∀ n, g.get? id = some n → S id (f n)) :
    ∀ i n, (g.update id f).get? i = some n → S i n := by
  intro i n hn
  rw [get?_update] at hn
  split at hn
  · next hi =>
    subst hi
    obtain ⟨m, hm, rfl⟩ := Option.map_eq_some_iff.mp hn
    exact hf m hm
  · exact h i n hn

namespace Linked

theorem empty : (∅ : Plan).Linked where
  edges := fun p c => by simp [mem_parentsOf, mem_childrenOf]
  roots := by simp [EmptyCollection.emptyCollection, Plan.empty, IdSet.mem_def, IdSet.empty]
  nodes := by simp

theorem push (h : g.Linked) (op : Operator) {r : Relation} (hr : r.WellFormed) :
    (g.push op r).Linked where
  edges := by
    intro p c
    rw [parentsOf_push, childrenOf_push]
    exact h.edges p c
  roots := fun i hi => Nat.lt_of_lt_of_le (h.roots i hi) (by simp)
  nodes := by
    intro i n hn
    rw [get?_push] at hn
    split at hn
    · next hi =>
      cases hn
      exact hi ▸ .detached _ op hr
    · exact h.nodes i n hn

/-- A change of one node that leaves its edges alone. -/
theorem update (h : g.Linked) (hp : ∀ n, (f n).parents = n.parents)
    (hc : ∀ n, (f n).children = n.children)
    (hf : ∀ n, g.get? id = some n → n.Sound id → (f n).Sound id) : (g.update id f).Linked where
  edges := by
    intro p c
    rw [parentsOf_update_of_eq hp, childrenOf_update_of_eq hc]
    exact h.edges p c
  roots := by simpa using h.roots
  nodes := forall_update h.nodes fun n hn => hf n hn (h.nodes id n hn)

theorem addRoot (h : g.Linked) (hid : id < g.size) :
    ({ g with roots := g.roots.insert id } : Plan).Linked where
  edges := h.edges
  roots := by
    intro r hr
    rcases IdSet.mem_insert.mp hr with rfl | hr
    · exact hid
    · exact h.roots r hr
  nodes := h.nodes

theorem eraseRoot (h : g.Linked) : ({ g with roots := g.roots.erase id } : Plan).Linked where
  edges := h.edges
  roots := fun r hr => h.roots r (IdSet.mem_erase.mp hr).1
  nodes := h.nodes

theorem addEdge (h : g.Linked) (hp : p < g.size) (hc : c < g.size) : (g.addEdge p c).Linked where
  edges := by
    intro q d
    rw [mem_parentsOf_addEdge hc, mem_childrenOf_addEdge hp, h.edges q d]
    tauto
  roots := by simpa [Plan.addEdge] using h.roots
  nodes := by
    have h₁ := forall_update (f := .withChild c) h.nodes fun n hn => (h.nodes p n hn).withChild
    exact forall_update h₁ fun n hn => (h₁ c n hn).withParent

theorem dropEdge (h : g.Linked) {n : Node} {rest : Inputs} (hn : g.get? c = some n)
    (hd : n.inputs.detach p = .ok rest) : (g.dropEdge p c rest).Linked where
  edges := by
    intro q d
    rw [mem_parentsOf_dropEdge, mem_childrenOf_dropEdge, h.edges q d]
    tauto
  roots := by simpa [Plan.dropEdge] using h.roots
  nodes := by
    have h₁ := forall_update (f := .withoutParent p rest) h.nodes fun m hm => by
      rw [hn] at hm
      cases hm
      exact (h.nodes c n hn).withoutParent hd
    exact forall_update h₁ fun m hm => (h₁ p m hm).withoutChild

theorem moveEdge (h : g.Linked) (hc : c < g.size) (hn : new < g.size) :
    (g.moveEdge c old new).Linked where
  edges := h.edges.moveEdge hc hn
  roots := by simpa [Plan.moveEdge] using h.roots
  nodes := by
    have h₁ := forall_update (f := .withoutChild c) h.nodes fun n hn => (h.nodes old n hn).withoutChild
    have h₂ := forall_update (f := .withChild c) h₁ fun n hn => (h₁ new n hn).withChild
    exact forall_update h₂ fun n hn => (h₂ c n hn).withParentReplaced

theorem orphaned (h : g.Linked) : (g.orphaned id).Linked where
  edges := h.edges.orphaned
  roots := by simpa using h.roots
  nodes := by
    intro i n hn
    rw [get?_orphaned] at hn
    obtain ⟨m, hm, rfl⟩ := Option.map_eq_some_iff.mp hn
    split
    · exact (h.nodes i m hm).withoutChild.orphan
    · exact (h.nodes i m hm).withoutChild

end Linked
end Plan

namespace Edit

open Plan (Linked)

theorem addNode_linked (op : Operator) {r : Relation} (hr : r.WellFormed) :
    Keeps Linked Linked (addNode op r) := Meets.addNode fun _ hg => hg.push op hr

theorem addRoot_linked (id : NodeId) : Keeps Linked Linked (addRoot id) :=
  Meets.addRoot (fun _ hg hid => hg.addRoot hid) fun _ hg _ => hg

theorem removeRoot_linked (id : NodeId) : Keeps Linked Linked (removeRoot id) :=
  Keeps.bind Keeps.plan fun _ =>
    Keeps.bind (Meets.change fun _ hg => hg.eraseRoot) fun _ => Keeps.pure _

theorem setFlags_linked (id : NodeId) (isLocal isMpc : Option Bool) :
    Keeps Linked Linked (setFlags id isLocal isMpc) :=
  Meets.setFlags (fun _ hg _ => hg.update (fun _ => rfl) (fun _ => rfl) fun _ _ hn =>
    hn.withFlags _ _)
    fun _ hg _ => hg

theorem setHolders_linked (id : NodeId) (s : PartySet) : Keeps Linked Linked (setHolders id s) :=
  Meets.setHolders (fun _ hg _ => hg.update (fun _ => rfl) (fun _ => rfl) fun _ _ hn => hn.heldBy s)
    fun _ hg _ => hg

theorem link_linked (p c : NodeId) : Keeps Linked Linked (link p c) :=
  Meets.link (fun _ hg hp hc => hg.addEdge hp hc) fun _ _ hg _ => hg

theorem removeParent_linked (c p : NodeId) : Keeps Linked Linked (removeParent c p) :=
  Meets.removeParent (fun _ _ _ hg _ _ hn hd => hg.dropEdge hn hd) fun _ _ hg _ => hg

theorem replaceParent_linked (c old new : NodeId) : Keeps Linked Linked (replaceParent c old new) :=
  Meets.replaceParent (fun _ hg _ hc hn _ => hg.moveEdge hc hn) fun _ _ hg _ => hg

theorem replaceChild_linked (p old new : NodeId) : Keeps Linked Linked (replaceChild p old new) :=
  (removeParent_linked old p).bind fun _ => link_linked p new

theorem makeOrphan_linked (id : NodeId) : Keeps Linked Linked (makeOrphan id) :=
  Meets.makeOrphan (fun _ hg => hg.edges) (fun _ hg _ => hg.orphaned) fun _ hg _ => hg

theorem isolate_linked (id : NodeId) : Keeps Linked Linked (isolate id) :=
  (makeOrphan_linked id).bind fun _ => (Keeps.node (fun _ hg => hg) id).bind fun _ =>
    Keeps.forM (fun c => removeParent_linked c id) _

/-- Refreshed references are those of an operator of the same kind. -/
theorem refreshColumns_linked (id : NodeId) : Keeps Linked Linked (refreshColumns id) := by
  have hkeep : ∀ {g : Plan} {n : Node} {op : Operator} {x : Except Error Unit}, g.Linked →
      g.get? id = some n → n.op.refresh (g.operatorInputs id) = ⟨op, x⟩ →
      (g.update id ({ · with op })).Linked := by
    intro g n op x hg hn hr
    have hk : op.kind = n.op.kind := by simpa [hr] using n.op.kind_refresh (g.operatorInputs id)
    refine hg.update (fun _ => rfl) (fun _ => rfl) fun m hm hs => ?_
    rw [hn] at hm
    cases hm
    exact hs.withOp hk
  exact Meets.refreshColumns (fun _ _ _ hg hn hr => hkeep hg hn hr)
    (fun _ _ _ _ hg hn hr => hkeep hg hn hr) fun _ hg _ => hg

theorem refreshHolders_linked (id : NodeId) : Keeps Linked Linked (refreshHolders id) :=
  Meets.refreshHolders (fun _ _ hg _ _ => hg)
    (fun _ _ s hg _ _ => hg.update (fun _ => rfl) (fun _ => rfl) fun _ _ hn => hn.heldBy s)
    fun _ hg _ => hg

theorem refresh_linked (id : NodeId) : Keeps Linked Linked (refresh id) :=
  (refreshColumns_linked id).bind fun _ => refreshHolders_linked id

end Edit
end PartyPlan
