import Mathlib.Data.List.Nodup
import PartyPlan.Proofs.Integrity

/-! Plans that pass validation. Validation ties together four records of the same edges: the parents of
a node, the children of those, the inputs the node names and the helpers its operator refers to. -/
namespace PartyPlan

def Inputs.Distinct : Inputs → Prop
  | .nary ordered => ordered.Nodup
  | _ => True

/-- The parents of a node are just the inputs it names and the helpers it refers to; without parents
it may still refer to helpers. -/
structure Node.Tied (n : Node) : Prop where
  named : ∀ p ∈ n.inputs.ids, p ∈ n.parents
  covered : ∀ p ∈ n.parents, p ∈ n.inputs.ids ∨ p ∈ n.op.helpers
  bound : ∀ q ∈ n.parents, ∀ p ∈ n.op.helpers, p ∈ n.parents
  distinct : n.inputs.Distinct

structure Plan.Valid (g : Plan) : Prop where
  edges : g.Mutual
  nodes : ∀ i n, g.get? i = some n → n.Tied
  roots : ∀ r ∈ g.roots, r < g.size ∧ ∀ p, ¬ p ∈ g.parentsOf r

def Plan.Numbered (g : Plan) : Prop := ∀ i n, g.get? i = some n → n.id = i

theorem IdSet.isEmpty_iff {s : IdSet} : s.isEmpty = true ↔ s = ∅ := by
  obtain ⟨l, hl⟩ := s
  cases l with
  | nil => exact ⟨fun _ => rfl, fun _ => rfl⟩
  | cons a l =>
    refine ⟨fun h => by simp [isEmpty] at h, fun h => ?_⟩
    simpa using congrArg toList h

theorem IdSet.nodup_toList (s : IdSet) : s.toList.Nodup := s.increasing.imp Nat.ne_of_lt

theorem IdSet.eq_empty_iff {s : IdSet} : s = ∅ ↔ ∀ a, ¬ a ∈ s :=
  ⟨fun h a => h ▸ not_mem_empty a, fun h => by ext a; simp [h a]⟩

theorem except_seq_eq_ok {ε : Type} {x y : Except ε Unit} :
    (do x; y) = .ok () ↔ x = .ok () ∧ y = .ok () := by
  cases x <;> simp [bind, Except.bind]

namespace Plan

variable {g : Plan} {n : Node} {id p c r : NodeId}

theorem checkParent_eq_ok : g.checkParent id p = .ok () ↔ id ∈ g.childrenOf p := by
  rw [mem_childrenOf, checkParent, node]
  cases g.get? p with
  | none => simp
  | some m => simp [refuseInconsistent]

theorem checkChild_eq_ok : g.checkChild id c = .ok () ↔ id ∈ g.parentsOf c := by
  rw [mem_parentsOf, checkChild, node]
  cases g.get? c with
  | none => simp
  | some m => simp [refuseInconsistent]

theorem checkRoot_eq_ok : g.checkRoot r = .ok () ↔ r < g.size ∧ ∀ p, ¬ p ∈ g.parentsOf r := by
  rw [lt_size_iff, checkRoot, node]
  cases h : g.get? r with
  | none => simp
  | some m =>
    rw [parentsOf_eq h, ← IdSet.eq_empty_iff, ← IdSet.isEmpty_iff]
    simp [refuseInconsistent]

theorem checkNamed_eq_ok :
    g.checkNamed n = .ok () ↔ ∀ p ∈ n.inputs.ids ++ boundHelpers n, p ∈ n.parents := by
  unfold checkNamed
  split
  · next p h =>
    have hp := List.find?_some h
    simp only [refuseInconsistent, reduceCtorEq, false_iff]
    exact fun hall => of_decide_eq_true hp (hall p (List.mem_of_find?_eq_some h))
  · next h => simpa using List.find?_eq_none.mp h

theorem checkUnnamed_eq_ok :
    g.checkUnnamed n = .ok () ↔ ∀ p ∈ n.parents, p ∈ n.inputs.ids ++ boundHelpers n := by
  unfold checkUnnamed
  split
  · next p h =>
    have hp := List.find?_some h
    simp only [refuseInconsistent, reduceCtorEq, false_iff]
    exact fun hall => of_decide_eq_true hp (hall p (List.mem_of_find?_eq_some h))
  · next h =>
    simp only [true_iff]
    intro p hp
    exact Decidable.not_not.mp fun hn => List.find?_eq_none.mp h p hp (decide_eq_true hn)

theorem checkOrdered_eq_ok : g.checkOrdered n = .ok () ↔ n.inputs.Distinct := by
  unfold checkOrdered
  cases n.inputs <;> simp [Inputs.Distinct, refuseInconsistent]

/-- The last three checks of a node are about its own records only. -/
theorem tied_iff : n.Tied ↔ (∀ p ∈ n.inputs.ids ++ boundHelpers n, p ∈ n.parents) ∧
    (∀ p ∈ n.parents, p ∈ n.inputs.ids ++ boundHelpers n) ∧ n.inputs.Distinct := by
  have hbound : ∀ q ∈ n.parents, boundHelpers n = n.op.helpers := by
    intro q hq
    have : ¬ n.parents.isEmpty = true := by
      rw [IdSet.isEmpty_iff, IdSet.eq_empty_iff]
      exact fun h => h q hq
    simp [boundHelpers, this]
  constructor
  · intro h
    refine ⟨fun p hp => ?_, fun p hp => ?_, h.distinct⟩
    · rcases List.mem_append.mp hp with hp | hp
      · exact h.named p hp
      · unfold boundHelpers at hp
        split at hp
        · simp at hp
        · next hne =>
          rw [IdSet.isEmpty_iff, IdSet.eq_empty_iff, not_forall_not] at hne
          obtain ⟨q, hq⟩ := hne
          exact h.bound q hq p hp
    · rw [hbound p hp, List.mem_append]
      exact h.covered p hp
  · rintro ⟨hnamed, hcovered, hdistinct⟩
    refine ⟨fun p hp => hnamed p (by simp [hp]), fun p hp => ?_, fun q hq p hp => ?_, hdistinct⟩
    · have := hcovered p hp
      rwa [hbound p hp, List.mem_append] at this
    · exact hnamed p (by simp [hbound q hq, hp])

theorem checkNode_eq_ok : g.checkNode n = .ok () ↔ (∀ p ∈ n.parents, n.id ∈ g.childrenOf p) ∧
    (∀ c ∈ n.children, n.id ∈ g.parentsOf c) ∧ n.Tied := by
  unfold checkNode
  rw [except_seq_eq_ok, except_seq_eq_ok, except_seq_eq_ok, except_seq_eq_ok, checkEach_eq_ok,
    checkEach_eq_ok, checkNamed_eq_ok, checkUnnamed_eq_ok, checkOrdered_eq_ok, tied_iff]
  simp only [checkParent_eq_ok, checkChild_eq_ok, IdSet.mem_def]

/-- Where every node knows its number, validation accepts the valid plans and no others. -/
theorem validate_eq_ok_iff (hid : ∀ i n, g.get? i = some n → n.id = i) :
    g.validate = .ok () ↔ g.Valid := by
  have hmem : ∀ n, n ∈ g.nodes.toList ↔ ∃ i, g.get? i = some n := fun n => by
    rw [Array.mem_toList_iff, Array.mem_iff_getElem?]
    rfl
  unfold validate
  rw [except_seq_eq_ok, checkEach_eq_ok, checkEach_eq_ok]
  simp only [checkNode_eq_ok, checkRoot_eq_ok]
  constructor
  · rintro ⟨hnodes, hroots⟩
    refine ⟨fun p c => ⟨fun hp => ?_, fun hc => ?_⟩, fun i n hn => ?_, hroots⟩
    · obtain ⟨n, hn, hp⟩ := mem_parentsOf.mp hp
      exact hid c n hn ▸ (hnodes n ((hmem n).mpr ⟨c, hn⟩)).1 p hp
    · obtain ⟨n, hn, hc⟩ := mem_childrenOf.mp hc
      exact hid p n hn ▸ (hnodes n ((hmem n).mpr ⟨p, hn⟩)).2.1 c hc
    · exact (hnodes n ((hmem n).mpr ⟨i, hn⟩)).2.2
  · intro h
    refine ⟨fun n hn => ?_, h.roots⟩
    obtain ⟨i, hn⟩ := (hmem n).mp hn
    rw [hid i n hn]
    refine ⟨fun p hp => ?_, fun c hc => ?_, h.nodes i n hn⟩
    · exact (h.edges p i).mp (mem_parentsOf.mpr ⟨n, hn, hp⟩)
    · exact (h.edges i c).mpr (mem_childrenOf.mpr ⟨n, hn, hc⟩)

/-! A plan that passes validation, whether its nodes know their numbers or not. -/

section Validated

variable {i p c : NodeId} (hv : g.validate = .ok ())
include hv

theorem checkNode_of_validate (hn : g.get? i = some n) : (∀ p ∈ n.parents, n.id ∈ g.childrenOf p) ∧
    (∀ c ∈ n.children, n.id ∈ g.parentsOf c) ∧ n.Tied := by
  rw [validate, except_seq_eq_ok, checkEach_eq_ok] at hv
  exact checkNode_eq_ok.mp (hv.1 n (Array.mem_toList_iff.mpr (Array.mem_of_getElem? hn)))

theorem exists_parent_of_validate (hc : g.Edge p c) : ∃ q, q ∈ g.parentsOf c := by
  obtain ⟨n, hn, hmem⟩ := mem_childrenOf.mp hc
  exact ⟨n.id, (checkNode_of_validate hv hn).2.1 c hmem⟩

theorem inRange_of_validate : g.InRange where
  parents c p hp := by
    obtain ⟨n, hn, hmem⟩ := mem_parentsOf.mp hp
    obtain ⟨m, hm, _⟩ := mem_childrenOf.mp ((checkNode_of_validate hv hn).1 p hmem)
    exact lt_size hm
  children p c hc := by
    obtain ⟨q, hq⟩ := exists_parent_of_validate hv hc
    obtain ⟨m, hm, _⟩ := mem_parentsOf.mp hq
    exact lt_size hm
  roots r hr := by
    rw [validate, except_seq_eq_ok, checkEach_eq_ok, checkEach_eq_ok] at hv
    exact (checkRoot_eq_ok.mp (hv.2 r hr)).1

end Validated

end Plan

namespace Node.Tied

variable {n : Node} {old new : NodeId}

theorem detached (i : NodeId) (op : Operator) (r : Relation) : (Node.detached i op r).Tied where
  named := by simp [Node.detached]
  covered := by simp [Node.detached]
  bound := by simp [Node.detached]
  distinct := by
    unfold Node.detached
    cases op.arity <;> simp [Inputs.vacant, Inputs.Distinct]

/-- The parents of a node without helpers are the inputs it names. -/
theorem mem_ids_iff (h : n.Tied) (hnone : n.op.helpers = []) {p : NodeId} :
    p ∈ n.inputs.ids ↔ p ∈ n.parents := by
  refine ⟨h.named p, fun hp => ?_⟩
  simpa [hnone] using h.covered p hp

/-- Only parents, inputs and helpers matter. -/
theorem of_eq (h : n.Tied) {m : Node} (hp : m.parents = n.parents) (hi : m.inputs = n.inputs)
    (hh : m.op.helpers = n.op.helpers) : m.Tied where
  named := by rw [hp, hi]; exact h.named
  covered := by rw [hp, hi, hh]; exact h.covered
  bound := by rw [hp, hh]; exact h.bound
  distinct := by rw [hi]; exact h.distinct

theorem orphan (h : n.parents = ∅) (hi : n.inputs = .vacant n.op.arity) : n.Tied where
  named := by simp [hi]
  covered := by simp [h]
  bound := by simp [h]
  distinct := by
    rw [hi]
    cases n.op.arity <;> simp [Inputs.vacant, Inputs.Distinct]

theorem swap_mem {l : List NodeId} {q : NodeId} (hq : q ∈ l) (hne : q ≠ old) :
    q ∈ l.map (Operator.swap old new) :=
  List.mem_map.mpr ⟨q, hq, if_neg hne⟩

theorem new_mem {l : List NodeId} (h : old ∈ l) : new ∈ l.map (Operator.swap old new) :=
  List.mem_map.mpr ⟨old, h, if_pos rfl⟩

/-- A list without repetition names nothing twice after a swap, unless it names both. -/
theorem nodup_map_swap_iff {l : List NodeId} (hd : l.Nodup) :
    (l.map (Operator.swap old new)).Nodup ↔ old = new ∨ ¬ (old ∈ l ∧ new ∈ l) := by
  rw [List.nodup_map_iff_inj_on hd]
  constructor
  · intro hinj
    by_contra hboth
    simp only [not_or, not_not] at hboth
    obtain ⟨hne, hold, hnew⟩ := hboth
    exact hne (hinj old hold new hnew (by simp [Operator.swap]))
  · intro h a ha b hb hab
    -- two members become one only when both names stand in the list
    have hsame : old ∈ l → new ∈ l → old = new := fun ho hn => h.resolve_right (not_not.mpr ⟨ho, hn⟩)
    unfold Operator.swap at hab
    split at hab <;> split at hab
    · next h₁ h₂ => exact h₁.trans h₂.symm
    · next h₁ _ => exact h₁.trans ((hsame (h₁ ▸ ha) (hab ▸ hb)).trans hab)
    · next _ h₂ => exact hab.trans ((hsame (h₂ ▸ hb) (hab ▸ ha)).symm.trans h₂.symm)
    · exact hab

/-- Another parent in every place of an old one keeps a node tied, as long as nothing is named twice
in an order. -/
theorem withParentReplaced_iff (h : n.Tied) (hold : old ∈ n.parents) :
    (n.withParentReplaced old new).Tied ↔ (n.inputs.replace old new).Distinct := by
  have hswap : ∀ q ∈ n.parents, Operator.swap old new q ∈ (n.withParentReplaced old new).parents := by
    intro q hq
    unfold Operator.swap Node.withParentReplaced
    split
    · simp
    · next hne => simp [hq, hne]
  refine ⟨fun h => h.distinct, fun hd => ⟨fun p hp => ?_, fun p hp => ?_, fun q hq p hp => ?_, hd⟩⟩
  · rw [Node.withParentReplaced, Inputs.ids_replace] at hp
    obtain ⟨q, hq, rfl⟩ := List.mem_map.mp hp
    exact hswap q (h.named q hq)
  · simp only [Node.withParentReplaced, IdSet.mem_insert, IdSet.mem_erase] at hp
    simp only [Node.withParentReplaced, Inputs.ids_replace, Operator.helpers_replaceHelper]
    rcases hp with rfl | ⟨hp, hne⟩
    · exact (h.covered old hold).imp new_mem new_mem
    · exact (h.covered p hp).imp (swap_mem · hne) (swap_mem · hne)
  · rw [Node.withParentReplaced, Operator.helpers_replaceHelper] at hp
    obtain ⟨a, ha, rfl⟩ := List.mem_map.mp hp
    exact hswap a (h.bound old hold a ha)

/-- A parent that the node does not have yet is named nowhere in its order. -/
theorem distinct_replace (h : n.Tied) (hnew : ¬ new ∈ n.parents) :
    (n.inputs.replace old new).Distinct := by
  have hd := h.distinct
  have hnamed := h.named
  cases hi : n.inputs with
  | unary input => simp [Inputs.replace, Inputs.Distinct]
  | binary left right => simp [Inputs.replace, Inputs.Distinct]
  | nary ordered =>
    rw [hi] at hd hnamed
    exact (nodup_map_swap_iff hd).mpr (.inr fun hboth => hnew (hnamed new hboth.2))

end Node.Tied

namespace Plan.Valid

variable {g : Plan} {id p c old new : NodeId} {f : Node → Node}

theorem empty : (∅ : Plan).Valid where
  edges := Linked.empty.edges
  nodes := by simp
  roots := by simp [EmptyCollection.emptyCollection, Plan.empty, IdSet.mem_def, IdSet.empty]

theorem push (h : g.Valid) (op : Operator) (r : Relation) : (g.push op r).Valid where
  edges := by
    intro p c
    rw [parentsOf_push, childrenOf_push]
    exact h.edges p c
  nodes := by
    intro i n hn
    rw [get?_push] at hn
    split at hn
    · cases hn
      exact .detached _ op r
    · exact h.nodes i n hn
  roots := by
    intro r hr
    obtain ⟨hlt, hp⟩ := h.roots r hr
    rw [size_push, parentsOf_push]
    exact ⟨Nat.lt_succ_of_lt hlt, hp⟩

/-- A change of one node that leaves its edges and helpers alone. -/
theorem update (h : g.Valid) (hp : ∀ n, (f n).parents = n.parents)
    (hc : ∀ n, (f n).children = n.children) (hi : ∀ n, (f n).inputs = n.inputs)
    (hh : ∀ n, g.get? id = some n → (f n).op.helpers = n.op.helpers) : (g.update id f).Valid where
  edges := by
    intro p c
    rw [parentsOf_update_of_eq hp, childrenOf_update_of_eq hc]
    exact h.edges p c
  nodes := forall_update h.nodes fun n hn => (h.nodes id n hn).of_eq (hp n) (hi n) (hh n hn)
  roots := by
    rw [parentsOf_update_of_eq hp]
    simpa using h.roots

theorem addRoot (h : g.Valid) (hid : id < g.size) (hp : ∀ p, ¬ p ∈ g.parentsOf id) :
    ({ g with roots := g.roots.insert id } : Plan).Valid where
  edges := h.edges
  nodes := h.nodes
  roots := by
    intro r hr
    rcases IdSet.mem_insert.mp hr with rfl | hr
    · exact ⟨hid, hp⟩
    · exact h.roots r hr

theorem orphaned (h : g.Valid) : (g.orphaned id).Valid where
  edges := h.edges.orphaned
  nodes := by
    intro i n hn
    rw [get?_orphaned] at hn
    obtain ⟨m, hm, rfl⟩ := Option.map_eq_some_iff.mp hn
    split
    · exact .orphan rfl rfl
    · exact (h.nodes i m hm).of_eq rfl rfl rfl
  roots := by
    intro r hr
    obtain ⟨hlt, hp⟩ := h.roots r hr
    exact ⟨by simpa using hlt, fun p hp' => hp p (mem_parentsOf_orphaned.mp hp').1⟩

/-- An edge that starts elsewhere keeps a plan valid, as long as its end names nothing twice. -/
theorem moveEdge_of_distinct (h : g.Valid) (hedge : c ∈ g.childrenOf old) (hn : new < g.size)
    (hd : ∀ n, g.get? c = some n → (n.inputs.replace old new).Distinct) :
    (g.moveEdge c old new).Valid := by
  have hc := h.edges.child_lt hedge
  refine ⟨h.edges.moveEdge hc hn, fun i n hi => ?_, fun r hr => ?_⟩
  · revert i n
    have h₀ : ∀ i n, g.get? i = some n → n.Tied ∧ (i = c → old ∈ n.parents ∧
        (n.inputs.replace old new).Distinct) := by
      intro i n hi
      refine ⟨h.nodes i n hi, ?_⟩
      rintro rfl
      rw [← parentsOf_eq hi, h.edges]
      exact ⟨hedge, hd n hi⟩
    have h₁ := forall_update (f := .withoutChild c) h₀ fun n hn =>
      ⟨(h₀ old n hn).1.of_eq rfl rfl rfl, (h₀ old n hn).2⟩
    have h₂ := forall_update (f := .withChild c) h₁ fun n hn =>
      ⟨(h₁ new n hn).1.of_eq rfl rfl rfl, (h₁ new n hn).2⟩
    refine forall_update (fun i n hi => (h₂ i n hi).1) fun n hn => ?_
    obtain ⟨htied, hkept⟩ := h₂ c n hn
    exact (htied.withParentReplaced_iff (hkept rfl).1).mpr (hkept rfl).2
  · obtain ⟨hlt, hp⟩ := h.roots r hr
    have hne : r ≠ c := by
      rintro rfl
      exact hp old ((h.edges old r).mpr hedge)
    refine ⟨by simpa [Plan.moveEdge] using hlt, fun p hp' => ?_⟩
    rw [mem_parentsOf_moveEdge hc] at hp'
    exact hp p (hp'.resolve_left fun h => hne h.1).1

theorem moveEdge (h : g.Valid) (hedge : c ∈ g.childrenOf old) (hn : new < g.size)
    (hnew : ¬ c ∈ g.childrenOf new) : (g.moveEdge c old new).Valid := by
  refine h.moveEdge_of_distinct hedge hn fun n hc => (h.nodes c n hc).distinct_replace ?_
  rw [← parentsOf_eq hc, h.edges]
  exact hnew

end Plan.Valid

/-- In a valid plan, a node with an operator that has no place yet: no edges, no inputs, no root. -/
structure Plan.Alone (g : Plan) (id : NodeId) (op : Operator) : Prop where
  valid : g.Valid
  root : ¬ id ∈ g.roots
  childless : ∀ c, ¬ c ∈ g.childrenOf id
  node : ∃ n, g.get? id = some n ∧ n.op = op ∧ n.parents = ∅ ∧ n.inputs = .vacant op.arity

namespace Plan.Alone

variable {g : Plan} {id : NodeId} {op : Operator} {ps : List NodeId}

theorem push (h : g.Valid) (op : Operator) (r : Relation) : (g.push op r).Alone g.size op where
  valid := h.push op r
  root := fun hroot => absurd (h.roots _ hroot).1 (Nat.lt_irrefl _)
  childless := by
    rw [childrenOf_push]
    intro c hc
    obtain ⟨n, hn, _⟩ := mem_childrenOf.mp hc
    exact absurd (lt_size hn) (Nat.lt_irrefl _)
  node := ⟨_, by rw [get?_push, if_pos rfl], rfl, rfl, rfl⟩

/-- The node is tied to the inputs and helpers it is linked to. -/
theorem tied (h : g.Alone id op) (hs : op.arity.Seats ps) (hh : op.arity = .nary → op.helpers = [])
    {n : Node} (hn : g.get? id = some n) : (n.linkedIn id id (ps ++ op.helpers)).Tied := by
  obtain ⟨m, hm, rfl, hp, hi⟩ := h.node
  rw [hn] at hm
  cases hm
  have hinputs : (n.linkedIn id id (ps ++ n.op.helpers)).inputs = .seated n.op.arity ps := by
    simp only [Node.linkedIn, if_true, hi]
    exact Inputs.foldl_attach_vacant hs hh
  have hparents : ∀ q, q ∈ (n.linkedIn id id (ps ++ n.op.helpers)).parents ↔
      q ∈ ps ∨ q ∈ n.op.helpers := by
    intro q
    simp only [Node.linkedIn, if_true, IdSet.mem_foldl_insert, hp, List.mem_append]
    simp
  refine ⟨fun p hp => ?_, fun p hp => ?_, fun q _ p hp => (hparents p).mpr (.inr hp), ?_⟩
  · rw [hinputs, Inputs.ids_seated hs] at hp
    exact (hparents p).mpr (.inl hp)
  · rw [hinputs, Inputs.ids_seated hs]
    exact (hparents p).mp hp
  · rw [hinputs]
    revert hs
    cases n.op.arity <;> simp [Inputs.seated, Inputs.Distinct, Arity.Seats]

/-- Below its inputs and then its helpers the node has its place. -/
theorem linkAll (h : g.Alone id op) (hs : op.arity.Seats ps) (hh : op.arity = .nary → op.helpers = [])
    (hin : ∀ p ∈ ps ++ op.helpers, p < g.size) : (g.linkAll (ps ++ op.helpers) id).Valid := by
  obtain ⟨m, hm, _⟩ := h.node
  have hid := lt_size hm
  refine ⟨fun q d => ?_, fun i n hn => ?_, fun r hr => ?_⟩
  · rw [mem_parentsOf_linkAll hid, mem_childrenOf_linkAll hin, h.valid.edges q d]
    tauto
  · rw [get?_linkAll] at hn
    obtain ⟨k, hk, rfl⟩ := Option.map_eq_some_iff.mp hn
    by_cases hi : i = id
    · subst hi
      exact h.tied hs hh hk
    · have hp : (k.linkedIn i id (ps ++ op.helpers)).parents = k.parents := by
        simp [Node.linkedIn, hi]
      have hinputs : (k.linkedIn i id (ps ++ op.helpers)).inputs = k.inputs := by
        simp [Node.linkedIn, hi]
      exact (h.valid.nodes i k hk).of_eq hp hinputs rfl
  · rw [roots_linkAll] at hr
    obtain ⟨hlt, hp⟩ := h.valid.roots r hr
    refine ⟨by simpa using hlt, fun p hp' => ?_⟩
    rcases (mem_parentsOf_linkAll hid).mp hp' with ⟨rfl, _⟩ | hp'
    · exact h.root hr
    · exact hp p hp'

end Plan.Alone

end PartyPlan
