import Mathlib.Tactic.Tauto
import PartyPlan.Proofs.Outcome

/-! Edges are known at both ends. An edit touches the two ends one after the other, so what it does is
said here of whole edges: which parents and which children each node has afterwards. -/
namespace PartyPlan

theorem IdSet.erase_eq_self {s : IdSet} {a : Nat} (h : ¬ a ∈ s) : s.erase a = s := by
  ext b
  simp only [IdSet.mem_erase, and_iff_left_iff_imp]
  rintro hb rfl
  exact h hb

theorem Node.withoutChild_of_not_mem {n : Node} {c : NodeId} (hc : ¬ c ∈ n.children) :
    n.withoutChild c = n := by
  simp [withoutChild, IdSet.erase_eq_self hc]

namespace Inputs

@[simp] theorem arity_vacant (a : Arity) : (vacant a).arity = a := by cases a <;> rfl

@[simp] theorem arity_attach (inputs : Inputs) (p : NodeId) :
    (inputs.attach p).arity = inputs.arity := by
  unfold attach; split <;> rfl

@[simp] theorem arity_replace (inputs : Inputs) (old new : NodeId) :
    (inputs.replace old new).arity = inputs.arity := by cases inputs <;> rfl

theorem mem_ids_attach {inputs : Inputs} {p q : NodeId} (h : q ∈ (inputs.attach p).ids) :
    q = p ∨ q ∈ inputs.ids := by
  unfold attach at h
  split at h <;> simp_all [ids]
  · tauto
  · tauto

theorem arity_of_detach {inputs rest : Inputs} {p : NodeId} (h : inputs.detach p = .ok rest) :
    rest.arity = inputs.arity := by
  cases inputs <;> simp only [detach, reduceCtorEq, Except.ok.injEq] at h <;> subst h <;> rfl

theorem mem_ids_of_detach {inputs rest : Inputs} {p q : NodeId} (h : inputs.detach p = .ok rest) :
    q ∈ rest.ids ↔ q ∈ inputs.ids ∧ q ≠ p := by
  have hdrop : ∀ slot : Option NodeId, q ∈ (drop p slot).toList ↔ q ∈ slot.toList ∧ q ≠ p := by
    intro slot
    unfold drop
    split <;> simp_all [Option.mem_toList]
    rintro rfl rfl
    contradiction
  cases inputs with
  | unary input =>
    simp only [detach, Except.ok.injEq] at h
    subst h
    exact hdrop input
  | binary left right =>
    simp only [detach, Except.ok.injEq] at h
    subst h
    simp only [ids, List.mem_append, hdrop]
    tauto
  | nary ordered => simp [detach] at h

end Inputs

/-- A property of the whole and of every part taken over holds of the outcome. -/
theorem Refreshed.value_ofExcept {α β : Type} {S : α → Prop} {whole : α} {f : β → α}
    (x : Except Error β) (hw : S whole) (hf : ∀ b, S (f b)) : S (ofExcept whole f x).value := by
  cases x with
  | ok b => exact hf b
  | error e => exact hw

namespace Operator

def Alike (a b : Operator) : Prop := a.kind = b.kind ∧ a.helpers = b.helpers

theorem refreshUnary_alike (op : Operator) (input : Relation) :
    Alike (op.refreshUnary input).value op := by
  cases op with
  | project columns =>
    exact Refreshed.value_ofExcept (S := (Alike · (.project columns))) _ ⟨rfl, rfl⟩ fun _ => ⟨rfl, rfl⟩
  | distinct columns =>
    exact Refreshed.value_ofExcept (S := (Alike · (.distinct columns))) _ ⟨rfl, rfl⟩ fun _ => ⟨rfl, rfl⟩
  | sortBy column =>
    exact Refreshed.value_ofExcept (S := (Alike · (.sortBy column))) _ ⟨rfl, rfl⟩ fun _ => ⟨rfl, rfl⟩
  | compareNeighbours column =>
    exact Refreshed.value_ofExcept (S := (Alike · (.compareNeighbours column))) _ ⟨rfl, rfl⟩
      fun _ => ⟨rfl, rfl⟩
  | _ => exact ⟨rfl, rfl⟩

/-- Refreshing an operator changes column references only. -/
theorem refresh_alike (op : Operator) (inputs : InputRelations) :
    Alike (op.refresh inputs).value op := by
  cases op with
  | join | indexJoin | hybridJoin => exact ⟨rfl, rfl⟩
  | revealJoin keys revealed =>
    simp only [refresh]
    split <;> exact ⟨rfl, rfl⟩
  | _ =>
    simp only [refresh]
    split
    · exact refreshUnary_alike _ _
    · exact ⟨rfl, rfl⟩

@[simp] theorem kind_refresh (op : Operator) (inputs : InputRelations) :
    (op.refresh inputs).value.kind = op.kind := (refresh_alike op inputs).1

@[simp] theorem helpers_refresh (op : Operator) (inputs : InputRelations) :
    (op.refresh inputs).value.helpers = op.helpers := (refresh_alike op inputs).2

end Operator

namespace Plan

variable {g : Plan} {id p q c d old new : NodeId} {n : Node} {f : Node → Node}

/-- Plans with the same roots and the same node in every place are equal. -/
theorem ext_get? {g h : Plan} (hr : g.roots = h.roots) (hn : ∀ i, g.get? i = h.get? i) : g = h := by
  obtain ⟨nodes, roots⟩ := g
  obtain ⟨nodes', roots'⟩ := h
  have hnodes : nodes = nodes' := Array.ext_getElem? hn
  subst hnodes hr
  rfl

theorem update_eq_self {f : Node → Node} (hn : g.get? id = some n) (hf : f n = n) : g.update id f = g := by
  refine ext_get? rfl fun j => ?_
  rw [get?_update]
  by_cases h : id = j
  · subst h
    simp [hn, hf]
  · simp [h]

theorem update_op_self (hn : g.get? id = some n) : g.update id ({ · with op := n.op }) = g :=
  update_eq_self hn rfl

@[simp] theorem get?_empty (i : NodeId) : (∅ : Plan).get? i = none := by
  simp [get?, EmptyCollection.emptyCollection, Plan.empty]

theorem get?_push (g : Plan) (op : Operator) (r : Relation) (i : NodeId) :
    (g.push op r).get? i = if i = g.size then some (.detached g.size op r) else g.get? i := by
  simp only [push, get?, size, Array.getElem?_push]
  rfl

theorem get?_size (g : Plan) : g.get? g.size = none := by simp [get?, size]

def parentsOf (g : Plan) (id : NodeId) : NodeSet := ((g.get? id).map (·.parents)).getD ∅

def childrenOf (g : Plan) (id : NodeId) : NodeSet := ((g.get? id).map (·.children)).getD ∅

theorem parentsOf_eq (h : g.get? id = some n) : g.parentsOf id = n.parents := by simp [parentsOf, h]

theorem childrenOf_eq (h : g.get? id = some n) : g.childrenOf id = n.children := by
  simp [childrenOf, h]

theorem mem_parentsOf : q ∈ g.parentsOf id ↔ ∃ n, g.get? id = some n ∧ q ∈ n.parents := by
  unfold parentsOf
  cases g.get? id <;> simp

theorem mem_childrenOf : q ∈ g.childrenOf id ↔ ∃ n, g.get? id = some n ∧ q ∈ n.children := by
  unfold childrenOf
  cases g.get? id <;> simp

theorem hasEdge_iff : g.hasEdge p c = true ↔ c ∈ g.childrenOf p := by
  simp [hasEdge, mem_childrenOf, Option.any_eq_true_iff_get, Option.isSome_iff_exists]
  constructor
  · rintro ⟨⟨n, hn⟩, h⟩
    exact ⟨n, hn, by simpa [hn] using h⟩
  · rintro ⟨n, hn, h⟩
    exact ⟨⟨n, hn⟩, by simpa [hn] using h⟩

/-- Both ends of every edge know it. A node that lists a missing one breaks this too, since a missing
node lists nothing. -/
def Mutual (g : Plan) : Prop := ∀ p c, p ∈ g.parentsOf c ↔ c ∈ g.childrenOf p

theorem Mutual.parent_lt (h : g.Mutual) (hp : p ∈ g.parentsOf c) : p < g.size := by
  obtain ⟨n, hn, _⟩ := mem_childrenOf.mp ((h p c).mp hp)
  exact lt_size hn

theorem Mutual.child_lt (h : g.Mutual) (hc : c ∈ g.childrenOf p) : c < g.size := by
  obtain ⟨n, hn, _⟩ := mem_parentsOf.mp ((h p c).mpr hc)
  exact lt_size hn

theorem parentsOf_push (g : Plan) (op : Operator) (r : Relation) :
    (g.push op r).parentsOf = g.parentsOf := by
  funext i
  simp only [parentsOf, get?_push]
  split
  · next h => subst h; rw [get?_size]; rfl
  · rfl

theorem childrenOf_push (g : Plan) (op : Operator) (r : Relation) :
    (g.push op r).childrenOf = g.childrenOf := by
  funext i
  simp only [childrenOf, get?_push]
  split
  · next h => subst h; rw [get?_size]; rfl
  · rfl

theorem mem_parentsOf_update :
    q ∈ (g.update id f).parentsOf d ↔
      ∃ n, g.get? d = some n ∧ q ∈ (if id = d then f n else n).parents := by
  rw [mem_parentsOf, get?_update]
  split <;> simp

theorem mem_childrenOf_update :
    q ∈ (g.update id f).childrenOf d ↔
      ∃ n, g.get? d = some n ∧ q ∈ (if id = d then f n else n).children := by
  rw [mem_childrenOf, get?_update]
  split <;> simp

/-- A change that leaves parents alone leaves all of them alone. -/
theorem parentsOf_update_of_eq (h : ∀ n, (f n).parents = n.parents) :
    (g.update id f).parentsOf = g.parentsOf := by
  funext d
  simp only [parentsOf, get?_update]
  split <;> cases g.get? d <;> simp [h]

/-- A change that leaves children alone leaves all of them alone. -/
theorem childrenOf_update_of_eq (h : ∀ n, (f n).children = n.children) :
    (g.update id f).childrenOf = g.childrenOf := by
  funext d
  simp only [childrenOf, get?_update]
  split <;> cases g.get? d <;> simp [h]

@[simp] theorem parentsOf_withChild : (g.update p (.withChild c)).parentsOf = g.parentsOf :=
  parentsOf_update_of_eq fun _ => rfl
@[simp] theorem parentsOf_withoutChild : (g.update p (.withoutChild c)).parentsOf = g.parentsOf :=
  parentsOf_update_of_eq fun _ => rfl
@[simp] theorem childrenOf_withParent : (g.update c (.withParent p)).childrenOf = g.childrenOf :=
  childrenOf_update_of_eq fun _ => rfl
@[simp] theorem childrenOf_withoutParent {inputs : Inputs} :
    (g.update c (.withoutParent p inputs)).childrenOf = g.childrenOf :=
  childrenOf_update_of_eq fun _ => rfl
@[simp] theorem childrenOf_withParentReplaced :
    (g.update c (.withParentReplaced old new)).childrenOf = g.childrenOf :=
  childrenOf_update_of_eq fun _ => rfl

@[simp] theorem childrenOf_withOp {op : Operator} :
    (g.update id ({ · with op })).childrenOf = g.childrenOf :=
  childrenOf_update_of_eq fun _ => rfl
@[simp] theorem childrenOf_heldBy {s : PartySet} :
    (g.update id (.heldBy s)).childrenOf = g.childrenOf :=
  childrenOf_update_of_eq fun _ => rfl

theorem mem_childrenOf_withChild (hp : p < g.size) :
    q ∈ (g.update p (.withChild c)).childrenOf d ↔ (d = p ∧ q = c) ∨ q ∈ g.childrenOf d := by
  obtain ⟨m, hm⟩ := lt_size_iff.mp hp
  rw [mem_childrenOf_update]
  by_cases hd : p = d
  · subst hd
    simp [childrenOf_eq hm, hm, Node.withChild]
  · simp [mem_childrenOf, hd, Ne.symm hd]

theorem mem_childrenOf_withoutChild :
    q ∈ (g.update p (.withoutChild c)).childrenOf d ↔ q ∈ g.childrenOf d ∧ ¬ (d = p ∧ q = c) := by
  rw [mem_childrenOf_update, mem_childrenOf]
  by_cases hd : p = d
  · subst hd
    simp [Node.withoutChild, ← and_assoc]
  · simp [hd, Ne.symm hd]

theorem mem_parentsOf_withParent (hc : c < g.size) :
    q ∈ (g.update c (.withParent p)).parentsOf d ↔ (d = c ∧ q = p) ∨ q ∈ g.parentsOf d := by
  obtain ⟨m, hm⟩ := lt_size_iff.mp hc
  rw [mem_parentsOf_update]
  by_cases hd : c = d
  · subst hd
    simp [parentsOf_eq hm, hm, Node.withParent]
  · simp [mem_parentsOf, hd, Ne.symm hd]

theorem mem_parentsOf_withParentReplaced (hc : c < g.size) :
    q ∈ (g.update c (.withParentReplaced old new)).parentsOf d ↔
      (d = c ∧ q = new) ∨ (q ∈ g.parentsOf d ∧ ¬ (d = c ∧ q = old)) := by
  obtain ⟨m, hm⟩ := lt_size_iff.mp hc
  rw [mem_parentsOf_update]
  by_cases hd : c = d
  · subst hd
    simp [parentsOf_eq hm, hm, Node.withParentReplaced]
  · simp [mem_parentsOf, hd, Ne.symm hd]

theorem mem_parentsOf_addEdge (hc : c < g.size) :
    q ∈ (g.addEdge p c).parentsOf d ↔ (d = c ∧ q = p) ∨ q ∈ g.parentsOf d := by
  rw [addEdge, mem_parentsOf_withParent (by simpa using hc), parentsOf_withChild]

theorem mem_childrenOf_addEdge (hp : p < g.size) :
    q ∈ (g.addEdge p c).childrenOf d ↔ (d = p ∧ q = c) ∨ q ∈ g.childrenOf d := by
  rw [addEdge, childrenOf_withParent]
  exact mem_childrenOf_withChild hp

theorem mem_parentsOf_dropEdge {inputs : Inputs} :
    q ∈ (g.dropEdge p c inputs).parentsOf d ↔ q ∈ g.parentsOf d ∧ ¬ (d = c ∧ q = p) := by
  rw [dropEdge, parentsOf_withoutChild, mem_parentsOf_update, mem_parentsOf]
  by_cases hd : c = d
  · subst hd
    simp [Node.withoutParent, ← and_assoc]
  · simp [hd, Ne.symm hd]

theorem mem_childrenOf_dropEdge {inputs : Inputs} :
    q ∈ (g.dropEdge p c inputs).childrenOf d ↔ q ∈ g.childrenOf d ∧ ¬ (d = p ∧ q = c) := by
  rw [dropEdge, mem_childrenOf_withoutChild, childrenOf_withoutParent]

theorem mem_parentsOf_moveEdge (hc : c < g.size) :
    q ∈ (g.moveEdge c old new).parentsOf d ↔
      (d = c ∧ q = new) ∨ (q ∈ g.parentsOf d ∧ ¬ (d = c ∧ q = old)) := by
  rw [moveEdge, mem_parentsOf_withParentReplaced (by simpa using hc), parentsOf_withChild,
    parentsOf_withoutChild]

theorem mem_childrenOf_moveEdge (hn : new < g.size) :
    q ∈ (g.moveEdge c old new).childrenOf d ↔
      (d = new ∧ q = c) ∨ (q ∈ g.childrenOf d ∧ ¬ (d = old ∧ q = c)) := by
  rw [moveEdge, childrenOf_withParentReplaced, mem_childrenOf_withChild (by simpa using hn),
    mem_childrenOf_withoutChild]

theorem Mutual.moveEdge (h : g.Mutual) (hc : c < g.size) (hn : new < g.size) :
    (g.moveEdge c old new).Mutual := by
  intro q d
  rw [mem_parentsOf_moveEdge hc, mem_childrenOf_moveEdge hn, h q d]
  tauto

/-- Without its parents a node, and the parents without it; nothing else changes. -/
def orphaned (g : Plan) (id : NodeId) : Plan :=
  { g with nodes := g.nodes.mapIdx fun i n =>
      if i = id then (n.withoutChild id).withoutParents.withoutInputs else n.withoutChild id }

theorem get?_orphaned (g : Plan) (id i : NodeId) :
    (g.orphaned id).get? i = (g.get? i).map fun n =>
      if i = id then (n.withoutChild id).withoutParents.withoutInputs else n.withoutChild id := by
  simp [orphaned, get?]

@[simp] theorem size_orphaned (g : Plan) (id : NodeId) : (g.orphaned id).size = g.size := by
  simp [orphaned, size]

@[simp] theorem roots_orphaned (g : Plan) (id : NodeId) : (g.orphaned id).roots = g.roots := rfl

theorem mem_parentsOf_orphaned :
    q ∈ (g.orphaned id).parentsOf d ↔ q ∈ g.parentsOf d ∧ d ≠ id := by
  rw [mem_parentsOf, mem_parentsOf, get?_orphaned]
  by_cases hd : d = id
  · simp [hd, Node.withoutInputs, Node.withoutParents]
  · simp [hd, Node.withoutChild]

theorem mem_childrenOf_orphaned :
    q ∈ (g.orphaned id).childrenOf d ↔ q ∈ g.childrenOf d ∧ q ≠ id := by
  rw [mem_childrenOf, mem_childrenOf, get?_orphaned]
  by_cases hd : d = id <;>
    simp [hd, Node.withoutInputs, Node.withoutParents, Node.withoutChild, ← and_assoc]

theorem Mutual.orphaned (h : g.Mutual) : (g.orphaned id).Mutual := by
  intro q d
  rw [mem_parentsOf_orphaned, mem_childrenOf_orphaned, h q d]

def disown (g : Plan) (ps : List NodeId) (id : NodeId) : Plan :=
  ps.foldl (fun g p => g.update p (.withoutChild id)) g

@[simp] theorem size_disown (g : Plan) (ps : List NodeId) (id : NodeId) :
    (g.disown ps id).size = g.size := by
  induction ps generalizing g with
  | nil => rfl
  | cons p ps ih => exact (ih _).trans (size_update ..)

@[simp] theorem roots_disown (g : Plan) (ps : List NodeId) (id : NodeId) :
    (g.disown ps id).roots = g.roots := by
  induction ps generalizing g with
  | nil => rfl
  | cons p ps ih => exact (ih _).trans (roots_update ..)

theorem get?_disown (g : Plan) (ps : List NodeId) (id i : NodeId) :
    (g.disown ps id).get? i = if i ∈ ps then (g.get? i).map (.withoutChild id) else g.get? i := by
  induction ps generalizing g with
  | nil => simp [disown]
  | cons p ps ih =>
    rw [disown, List.foldl_cons, ← disown, ih, get?_update]
    by_cases hp : p = i
    · subst hp
      cases g.get? p <;> simp [Node.withoutChild, IdSet.erase_eq_self]
    · simp [hp, Ne.symm hp]

def bereft (g : Plan) (id : NodeId) (n : Node) : Plan :=
  ((g.update id .withoutParents).disown n.parents.toList id).update id .withoutInputs

/-- Where edges are mutual, the parents a node lists are all the nodes that list it. -/
theorem bereft_eq_orphaned (h : g.Mutual) (hn : g.get? id = some n) :
    g.bereft id n = g.orphaned id := by
  have hkeep : ∀ i m, g.get? i = some m → ¬ i ∈ n.parents.toList → m.withoutChild id = m := by
    intro i m hm hi
    have hc : ¬ id ∈ m.children := by
      rw [← childrenOf_eq hm, ← h i id, parentsOf_eq hn]
      exact hi
    exact Node.withoutChild_of_not_mem hc
  refine ext_get? (by simp [bereft]) fun i => ?_
  rw [bereft, get?_update, get?_disown, get?_update, get?_orphaned]
  by_cases hi : id = i
  · subst hi
    rw [hn]
    by_cases hs : id ∈ n.parents.toList
    · simp [hs, Node.withoutChild, Node.withoutParents, Node.withoutInputs]
    · have := hkeep id n hn hs
      simp [hs, this]
  · cases hm : g.get? i with
    | none => simp
    | some m =>
      by_cases hs : i ∈ n.parents.toList
      · simp [hi, Ne.symm hi, hs]
      · simp [hi, Ne.symm hi, hs, hkeep i m hm hs]

end Plan

namespace Edit

variable {P : Plan → Prop} {Q : Unit → Plan → Prop} {R : Error → Plan → Prop} {id : NodeId}

/-- Dropping every edge into a node is refused for no node whose parents are there. -/
theorem Meets.makeOrphan_bereft (hlt : ∀ g, P g → ∀ p ∈ g.parentsOf id, p < g.size)
    (hok : ∀ g n, P g → g.get? id = some n → Q () (g.bereft id n))
    (hno : ∀ g, P g → ¬ id < g.size → R (.unknownNode id) g) : Meets P (makeOrphan id) Q R := by
  refine Meets.bind (M := fun n g => P g ∧ g.get? id = some n)
    (Meets.node (fun _ _ hg hn => ⟨hg, hn⟩) hno) fun n => ?_
  -- the invariant of the loop: the parents before the current one have forgotten the node
  let I : List NodeId → Plan → Prop := fun rest g' => ∃ g done, (P g ∧ g.get? id = some n) ∧
    n.parents.toList = done ++ rest ∧ g' = (g.update id .withoutParents).disown done id
  refine Meets.bind (M := fun _ => I n.parents.toList)
    (Meets.change fun g hg => ⟨g, [], hg, rfl, rfl⟩) fun _ => ?_
  refine Meets.bind (M := fun _ => I []) (Meets.forM (I := I) (fun p rest => ?_) _) fun _ => ?_
  · refine Meets.bind (M := fun _ => I (p :: rest))
      (Meets.require (fun _ hg _ => hg) fun g' hg' hp => ?_) fun _ => Meets.change fun g' hg' => ?_
    · obtain ⟨g, done, ⟨hg, hn⟩, hps, rfl⟩ := hg'
      have hmem : p ∈ n.parents := IdSet.mem_def.mpr (hps ▸ by simp)
      rw [← Plan.parentsOf_eq hn] at hmem
      exact absurd (by simpa using hlt g hg p hmem) hp
    · obtain ⟨g, done, hg, hps, rfl⟩ := hg'
      refine ⟨g, done ++ [p], hg, by simpa using hps, ?_⟩
      simp [Plan.disown, List.foldl_append]
  · refine Meets.change fun g' hg' => ?_
    obtain ⟨g, done, ⟨hg, hn⟩, hps, rfl⟩ := hg'
    rw [List.append_nil] at hps
    rw [← hps]
    exact hok g n hg hn

/-- Dropping every edge into a node of a plan with mutual edges is refused for no node it has. -/
theorem Meets.makeOrphan (hm : ∀ g, P g → g.Mutual)
    (hok : ∀ g, P g → id < g.size → Q () (g.orphaned id))
    (hno : ∀ g, P g → ¬ id < g.size → R (.unknownNode id) g) : Meets P (makeOrphan id) Q R := by
  refine makeOrphan_bereft (fun g hg p hp => (hm g hg).parent_lt hp) (fun g n hg hn => ?_) hno
  rw [Plan.bereft_eq_orphaned (hm g hg) hn]
  exact hok g hg (Plan.lt_size hn)

end Edit
end PartyPlan
