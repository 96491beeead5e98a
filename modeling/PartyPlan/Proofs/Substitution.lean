import PartyPlan.Proofs.Growth
import PartyPlan.Proofs.Mirror

/-! A special form takes the place of a join. In a plan where all is in order this is never refused:
the new node produces what the join produced, so whoever reads it finds every column where it was. The
plan that comes out is the old one with the join renamed. -/
open Relation (TransGen)

namespace PartyPlan

theorem IdSet.mem_foldl_erase {s : IdSet} {l : List Nat} {a : Nat} :
    a ∈ l.foldl IdSet.erase s ↔ a ∈ s ∧ ¬ a ∈ l := by
  induction l generalizing s with
  | nil => simp
  | cons b l ih =>
    rw [List.foldl_cons, ih, IdSet.mem_erase, List.mem_cons]
    tauto

theorem Refreshed.eq_of_map {α β : Type} {f : α → β} (hf : Function.Injective f) {r : Refreshed α} {a : α}
    {outcome : Except Error Unit} (h : r.map f = ⟨f a, outcome⟩) : r = ⟨a, outcome⟩ := by
  obtain ⟨value, _⟩ := r
  simp only [map, mk.injEq] at h
  rw [hf h.1, h.2]

/-- The keys of a join that is up to date are up to date. -/
theorem JoinKeys.refresh_of_join {keys : JoinKeys} {inputs : InputRelations}
    (h : (Operator.join keys).refresh inputs = ⟨.join keys, .ok ()⟩) :
    keys.refresh inputs.left inputs.right = ⟨keys, .ok ()⟩ :=
  Refreshed.eq_of_map (fun _ _ he => Operator.join.inj he) h

/-- Renaming one member of a set. -/
theorem Operator.exists_swap_iff {s : IdSet} {old new p : NodeId} :
    (∃ q ∈ s, swap old new q = p) ↔ (old ∈ s ∧ p = new) ∨ (p ∈ s ∧ p ≠ old) := by
  unfold swap
  constructor
  · rintro ⟨q, hq, rfl⟩
    by_cases h : q = old
    · exact .inl ⟨h ▸ hq, by simp [h]⟩
    · exact .inr (by simp [h, hq])
  · rintro (⟨ho, rfl⟩ | ⟨hp, hne⟩)
    · exact ⟨old, ho, by simp⟩
    · exact ⟨p, hp, by simp [hne]⟩

theorem Operator.exists_swap_of_not_mem {s : IdSet} {old new p : NodeId} (h : ¬ old ∈ s) :
    (∃ q ∈ s, swap old new q = p) ↔ p ∈ s := by
  rw [exists_swap_iff]
  refine ⟨fun hp => ?_, fun hp => .inr ⟨hp, fun he => h (he ▸ hp)⟩⟩
  rcases hp with ⟨ho, _⟩ | ⟨hp, _⟩
  · exact absurd ho h
  · exact hp

/-- The node in place `i` after the edges from `old` to the nodes of a list were moved to `new`. -/
def Node.movedIn (i old new : NodeId) (cs : List NodeId) (n : Node) : Node :=
  { n with
    children := if i = old then cs.foldl IdSet.erase n.children
      else if i = new then cs.foldl IdSet.insert n.children else n.children
    parents := if i ∈ cs then (n.parents.erase old).insert new else n.parents
    inputs := if i ∈ cs then n.inputs.replace old new else n.inputs
    op := if i ∈ cs then n.op.replaceHelper old new else n.op }

/-- Edges that are moved one after the other are moved together. -/
theorem Node.movedIn_cons {i old new c : NodeId} {cs : List NodeId} (hc : ¬ c ∈ cs) (n : Node) :
    (n.movedIn i old new [c]).movedIn i old new cs = n.movedIn i old new (c :: cs) := by
  have hkids : (n.movedIn i old new [c] |>.movedIn i old new cs).children =
      (n.movedIn i old new (c :: cs)).children := by
    by_cases ho : i = old
    · simp [movedIn, ho]
    · by_cases hn : i = new
      · subst hn
        simp [movedIn, ho]
      · simp [movedIn, ho, hn]
  by_cases hi : i = c
  · subst hi
    simpa [movedIn, hc] using hkids
  · simpa [movedIn, hi] using hkids

namespace Plan

variable {g : Plan} {old new c i l r : NodeId} {cs ps : List NodeId} {n m : Node} {op : Operator}

def moveAll (g : Plan) (cs : List NodeId) (old new : NodeId) : Plan :=
  cs.foldl (fun g c => g.moveEdge c old new) g

theorem moveAll_nil (g : Plan) (old new : NodeId) : g.moveAll [] old new = g := rfl

@[simp] theorem size_moveAll (g : Plan) (cs : List NodeId) (old new : NodeId) :
    (g.moveAll cs old new).size = g.size := by
  induction cs generalizing g with
  | nil => rfl
  | cons c cs ih => exact (ih _).trans (by simp [moveEdge])

@[simp] theorem roots_moveAll (g : Plan) (cs : List NodeId) (old new : NodeId) :
    (g.moveAll cs old new).roots = g.roots := by
  induction cs generalizing g with
  | nil => rfl
  | cons c cs ih => exact ih _

theorem get?_moveEdge (hne : old ≠ new) :
    (g.moveEdge c old new).get? i = (g.get? i).map (.movedIn i old new [c]) := by
  rw [moveEdge, get?_update, get?_update, get?_update]
  cases g.get? i with
  | none => simp
  | some n =>
    by_cases ho : old = i
    · have hn : new ≠ i := fun h => hne (ho.trans h.symm)
      by_cases hc : c = i <;> simp [ho, hn, hc, Ne.symm, Node.movedIn, Node.withoutChild,
        Node.withParentReplaced]
    · by_cases hn : new = i <;> by_cases hc : c = i <;>
        simp [ho, hn, hc, Ne.symm ho, Ne.symm, Node.movedIn, Node.withChild, Node.withParentReplaced]

theorem get?_moveAll (hne : old ≠ new) (hcs : cs.Nodup) :
    (g.moveAll cs old new).get? i = (g.get? i).map (.movedIn i old new cs) := by
  induction cs generalizing g with
  | nil => cases h : g.get? i <;> simp [moveAll, Node.movedIn, h]
  | cons c cs ih =>
    obtain ⟨hc, hcs⟩ := List.nodup_cons.mp hcs
    rw [moveAll, List.foldl_cons, ← moveAll, ih hcs, get?_moveEdge hne, Option.map_map]
    congr 1
    funext n
    exact Node.movedIn_cons hc n

/-- All is in order: nodes know their numbers, edges and inputs fit together, every column reference is
as a look-up would leave it, and there is no cycle below a root. -/
structure Settled (g : Plan) : Prop where
  places : ∀ i n, g.get? i = some n → n.id = i
  valid : g.Valid
  current : ∀ i n, g.get? i = some n → n.op.refresh (g.operatorInputs i) = ⟨n.op, .ok ()⟩
  acyclic : g.Acyclic

theorem Valid.inRange (h : g.Valid) : g.InRange where
  parents _ _ hp := h.edges.parent_lt hp
  children _ _ hc := h.edges.child_lt hc
  roots r hr := (h.roots r hr).1

/-- A join with both inputs that some root leads to and that no party can do alone. -/
structure JoinAt (g : Plan) (id : NodeId) (n : Node) (join : GeneralJoin) : Prop where
  general : g.generalJoin id = .ok join
  node : g.get? id = some n
  op : n.op = .join join.keys
  inputs : n.inputs = .binary (some join.left) (some join.right)
  reaches : g.Reaches id
  shared : n.isLocal = false

namespace JoinAt

variable {id p : NodeId} {join : GeneralJoin}

theorem mem_parents (h : g.JoinAt id n join) (hg : g.Settled) :
    p ∈ n.parents ↔ p = join.left ∨ p = join.right := by
  have hnone : n.op.helpers = [] := by rw [h.op]; rfl
  rw [← (hg.valid.nodes id n h.node).mem_ids_iff hnone]
  simp [h.inputs, Inputs.ids]

theorem mem_children_iff (h : g.JoinAt id n join) (hg : g.Settled) (hm : g.get? i = some m) :
    id ∈ m.children ↔ i = join.left ∨ i = join.right := by
  rw [← h.mem_parents hg, ← childrenOf_eq hm, ← hg.valid.edges, parentsOf_eq h.node]

theorem mem_parents_iff (h : g.JoinAt id n join) (hg : g.Settled) (hm : g.get? i = some m) :
    id ∈ m.parents ↔ i ∈ n.children := by
  rw [← parentsOf_eq hm, hg.valid.edges, childrenOf_eq h.node]

theorem not_mem_children (h : g.JoinAt id n join) (hg : g.Settled) : ¬ id ∈ n.children :=
  fun hc => hg.acyclic id h.reaches (.single (mem_childrenOf.mpr ⟨n, h.node, hc⟩))

theorem not_mem_parents (h : g.JoinAt id n join) (hg : g.Settled) : ¬ id ∈ n.parents :=
  fun hp => h.not_mem_children hg ((h.mem_parents_iff hg h.node).mp hp)

theorem input_ne (h : g.JoinAt id n join) (hg : g.Settled) (hp : p = join.left ∨ p = join.right) :
    p ≠ id := by
  rintro rfl
  exact h.not_mem_parents hg ((h.mem_parents hg).mpr hp)

theorem input_lt (h : g.JoinAt id n join) (hg : g.Settled) (hp : p = join.left ∨ p = join.right) :
    p < g.size :=
  hg.valid.edges.parent_lt (mem_parentsOf.mpr ⟨n, h.node, (h.mem_parents hg).mpr hp⟩)

theorem ne_size (h : g.JoinAt id n join) : id ≠ g.size := Nat.ne_of_lt (lt_size h.node)

theorem not_root (h : g.JoinAt id n join) (hg : g.Settled) : ¬ id ∈ g.roots := by
  intro hr
  refine (hg.valid.roots id hr).2 join.left (mem_parentsOf.mpr ⟨n, h.node, ?_⟩)
  exact (h.mem_parents hg).mpr (.inl rfl)

theorem operatorInputs (h : g.JoinAt id n join) :
    g.operatorInputs id = { left := g.output? join.left, right := g.output? join.right } := by
  rw [operatorInputs_eq h.node, h.inputs]
  rfl

theorem keys_current (h : g.JoinAt id n join) (hg : g.Settled) :
    join.keys.refresh (g.operatorInputs id).left (g.operatorInputs id).right =
      ⟨join.keys, .ok ()⟩ := by
  have hcur := hg.current id n h.node
  rw [h.op] at hcur
  exact JoinKeys.refresh_of_join hcur

end JoinAt

/-- A join took this special form under a new number, the plan grew by one node, and all is still in
order. -/
structure Takes (g : Plan) (id new : NodeId) (op : Operator) (h : Plan) : Prop where
  settled : h.Settled
  mirrors : g.Mirrors (Operator.swap id new) h
  fresh : new = g.size
  form : ∃ m, h.get? new = some m ∧ m.op = op
  size : h.size = g.size + 1

/-- The plan with the new node in place, before it takes over the children. -/
def planted (g : Plan) (old : NodeId) (n : Node) (op : Operator) (ps : List NodeId) : Plan :=
  (((g.orphaned old).push op n.output).update g.size fun m =>
    { m with isLocal := none.getD m.isLocal,
             isMpc := (if n.isMpc then some true else none).getD m.isMpc }).linkAll ps g.size

def substituted (g : Plan) (old : NodeId) (n : Node) (op : Operator) (ps : List NodeId) : Plan :=
  (g.planted old n op ps).moveAll n.children.toList old g.size

@[simp] theorem size_planted : (g.planted old n op ps).size = g.size + 1 := by simp [planted]

@[simp] theorem roots_planted : (g.planted old n op ps).roots = g.roots := by simp [planted]

@[simp] theorem size_substituted : (g.substituted old n op ps).size = g.size + 1 := by
  simp [substituted]

theorem get?_planted_new (hps : ¬ g.size ∈ ps) : (g.planted old n op ps).get? g.size = some
    { Node.detached g.size op n.output with
      isMpc := (if n.isMpc then some true else none).getD op.kind.isMpc
      inputs := ps.foldl Inputs.attach (.vacant op.arity)
      parents := ps.foldl IdSet.insert ∅ } := by
  rw [planted, get?_linkAll, get?_update, get?_push]
  simp [Node.detached, Node.linkedIn, hps]

theorem get?_planted (hi : i ≠ g.size) : (g.planted old n op ps).get? i = (g.get? i).map fun m =>
    (if i = old then (m.withoutChild old).withoutParents.withoutInputs
      else m.withoutChild old).linkedIn i g.size ps := by
  rw [planted, get?_linkAll, get?_update, get?_push, if_neg (Ne.symm hi), size_orphaned, if_neg hi,
    get?_orphaned, Option.map_map]
  rfl

theorem output?_planted_new (hps : ¬ g.size ∈ ps) :
    (g.planted old n op ps).output? g.size = some n.output := by
  simp [output?, get?_planted_new hps, Node.detached]

theorem output?_planted (hi : i ≠ g.size) : (g.planted old n op ps).output? i = g.output? i := by
  rw [output?, get?_planted hi, output?, Option.map_map]
  congr 1
  funext m
  by_cases ho : i = old <;>
    simp [ho, Node.linkedIn, Node.withoutChild, Node.withoutParents, Node.withoutInputs]

theorem output?_moveAll (hne : old ≠ new) (hcs : cs.Nodup) :
    (g.moveAll cs old new).output? i = g.output? i := by
  rw [output?, get?_moveAll hne hcs, output?, Option.map_map]
  rfl

/-- A node whose place another can take, below the nodes of a list: edges and inputs fit together, all
columns are as a look-up would leave them, and the node is neither its own child nor in the list. -/
structure Replaceable (g : Plan) (old : NodeId) (n : Node) (ps : List NodeId) : Prop where
  node : g.get? old = some n
  valid : g.Valid
  current : ∀ i m, g.get? i = some m → m.op.refresh (g.operatorInputs i) = ⟨m.op, .ok ()⟩
  apart : ¬ old ∈ n.children
  known : ∀ p ∈ ps, p < g.size
  other : ¬ old ∈ ps

end Plan

/-- The node in place `i` after `new`, below the nodes of a list, has taken the place of `old`. -/
def Node.handedOver (i old new : NodeId) (ps : List NodeId) (n : Node) : Node :=
  { n with
    children := if i ∈ ps then (n.children.erase old).insert new else n.children.erase old
    parents := if old ∈ n.parents then (n.parents.erase old).insert new else n.parents
    inputs := n.inputs.replace old new
    op := if old ∈ n.parents then n.op.replaceHelper old new else n.op }

theorem Operator.swap_of_ne {old p : NodeId} (new : NodeId) (h : p ≠ old) : swap old new p = p :=
  if_neg h

theorem Inputs.replace_of_not_mem {inputs : Inputs} {old : NodeId} (new : NodeId)
    (h : ¬ old ∈ inputs.ids) : inputs.replace old new = inputs := by
  have hsame : ∀ p ∈ inputs.ids, Operator.swap old new p = p := fun p hp =>
    Operator.swap_of_ne new fun he => h (he ▸ hp)
  rw [replace_eq_rename, rename_congr hsame, rename_id]

namespace Plan

variable {g : Plan} {old new c i l r : NodeId} {cs ps : List NodeId} {n m : Node} {op : Operator}

namespace Replaceable

variable (hr : g.Replaceable old n ps)
include hr

theorem ne_size : old ≠ g.size := Nat.ne_of_lt (lt_size hr.node)

theorem size_not_mem : ¬ g.size ∈ ps := fun hmem => absurd (hr.known _ hmem) (Nat.lt_irrefl _)

theorem child_lt (hc : c ∈ n.children) : c < g.size :=
  hr.valid.edges.child_lt (mem_childrenOf.mpr ⟨n, hr.node, hc⟩)

theorem child_ne (hc : c ∈ n.children) : c ≠ old := fun he => hr.apart (he ▸ hc)

theorem mem_parents_iff (hm : g.get? i = some m) : old ∈ m.parents ↔ i ∈ n.children := by
  rw [← parentsOf_eq hm, hr.valid.edges, childrenOf_eq hr.node]

theorem mem_children_iff (hm : g.get? i = some m) : old ∈ m.children ↔ i ∈ n.parents := by
  rw [← childrenOf_eq hm, ← hr.valid.edges, parentsOf_eq hr.node]

/-- The new node stands where the old one stood. -/
theorem get?_new (op : Operator) : (g.substituted old n op ps).get? g.size = some
    { Node.detached g.size op n.output with
      isMpc := n.isMpc || op.kind.isMpc
      inputs := ps.foldl Inputs.attach (.vacant op.arity)
      parents := .ofList ps
      children := n.children } := by
  have hnew : ¬ g.size ∈ n.children.toList := fun hc =>
    absurd (hr.child_lt (IdSet.mem_def.mpr hc)) (Nat.lt_irrefl _)
  have hkids : n.children.toList.foldl IdSet.insert ∅ = n.children := by
    ext c
    rw [IdSet.mem_foldl_insert, ← IdSet.mem_def]
    simp
  have hmark : (if n.isMpc then some true else none).getD op.kind.isMpc = (n.isMpc || op.kind.isMpc) := by
    cases n.isMpc <;> rfl
  rw [substituted, get?_moveAll hr.ne_size (IdSet.nodup_toList _), get?_planted_new hr.size_not_mem,
    Option.map_some]
  simp [Node.movedIn, Node.detached, hnew, Ne.symm hr.ne_size, hkids, hmark, IdSet.ofList]

/-- The old node is left without edges. -/
theorem get?_old (op : Operator) : (g.substituted old n op ps).get? old =
    some { n with parents := ∅, children := ∅, inputs := .vacant n.op.arity } := by
  have hold : ¬ old ∈ n.children.toList := hr.apart
  have hkids : n.children.toList.foldl IdSet.erase (n.children.erase old) = ∅ := by
    rw [IdSet.eq_empty_iff]
    intro c hc
    rw [IdSet.mem_foldl_erase, IdSet.mem_erase] at hc
    exact hc.2 hc.1.1
  rw [substituted, get?_moveAll hr.ne_size (IdSet.nodup_toList _), get?_planted hr.ne_size, hr.node,
    Option.map_some, Option.map_some, if_pos rfl]
  simp [Node.movedIn, hold, Node.linkedIn, hr.ne_size, hr.other, Node.withoutParents,
    Node.withoutInputs, Node.withoutChild, hkids]

/-- Every other node has the new one wherever it had the old one. -/
theorem get?_other (op : Operator) (hi : i ≠ old) (hm : g.get? i = some m) :
    (g.substituted old n op ps).get? i = some (m.handedOver i old g.size ps) := by
  have hsize : i ≠ g.size := Nat.ne_of_lt (lt_size hm)
  have hkid : i ∈ n.children.toList ↔ old ∈ m.parents := (hr.mem_parents_iff hm).symm
  rw [substituted, get?_moveAll hr.ne_size (IdSet.nodup_toList _), get?_planted hsize, hm,
    Option.map_some, Option.map_some, if_neg hi]
  by_cases hc : old ∈ m.parents
  · simp [Node.movedIn, Node.handedOver, hkid, hc, hi, hsize, Node.linkedIn, Node.withoutChild]
  · have hsame := Inputs.replace_of_not_mem g.size fun h =>
      hc ((hr.valid.nodes i m hm).named old h)
    simp [Node.movedIn, Node.handedOver, hkid, hc, hi, hsize, Node.linkedIn, Node.withoutChild, hsame]

/-- A child that was moved to the new node reads what it read from the old one. -/
theorem current_moveAll (op : Operator) (hcs : cs.Nodup) (hsub : ∀ c ∈ cs, c ∈ n.children)
    (hc : c ∈ cs) : ∃ m, ((g.planted old n op ps).moveAll cs old g.size).get? c = some m ∧
      m.op.refresh (((g.planted old n op ps).moveAll cs old g.size).operatorInputs c) =
        ⟨m.op, .ok ()⟩ := by
  have hlt := hr.child_lt (hsub c hc)
  obtain ⟨m, hm⟩ := lt_size_iff.mp hlt
  have hget : ((g.planted old n op ps).moveAll cs old g.size).get? c =
      some (((m.withoutChild old).linkedIn c g.size ps).movedIn c old g.size cs) := by
    rw [get?_moveAll hr.ne_size hcs, get?_planted (Nat.ne_of_lt hlt), hm, Option.map_some,
      Option.map_some, if_neg (hr.child_ne (hsub c hc))]
  have hread : (m.inputs.rename (Operator.swap old g.size)).read
      ((g.planted old n op ps).moveAll cs old g.size).output? = m.inputs.read g.output? := by
    refine Inputs.read_rename fun p hp => ?_
    have hpar : p ∈ g.parentsOf c :=
      mem_parentsOf.mpr ⟨m, hm, (hr.valid.nodes c m hm).named p hp⟩
    rw [output?_moveAll hr.ne_size hcs]
    by_cases hpo : p = old
    · rw [hpo, Operator.swap, if_pos rfl, output?_planted_new hr.size_not_mem]
      simp [output?, hr.node]
    · rw [Operator.swap, if_neg hpo]
      exact output?_planted (Nat.ne_of_lt (hr.valid.edges.parent_lt hpar))
  refine ⟨_, hget, ?_⟩
  have hcur := hr.current c m hm
  rw [operatorInputs_eq hm] at hcur
  rw [operatorInputs_eq hget]
  have hop := Operator.refresh_renameHelpers_self (f := Operator.swap old g.size) hcur
  simpa [Node.movedIn, hc, Node.linkedIn, Nat.ne_of_lt hlt, Node.withoutChild,
    Inputs.replace_eq_rename, Operator.replaceHelper_eq_renameHelpers, hread] using hop

/-- A child that is still to be moved is a child of the old node. -/
theorem mem_childrenOf_moveAll {done : List NodeId} (hnd : (done ++ [c]).Nodup)
    (hsub : ∀ x ∈ done ++ [c], x ∈ n.children) :
    c ∈ ((g.planted old n op ps).moveAll done old g.size).childrenOf old := by
  have hck : c ∈ n.children := hsub c (by simp)
  have hdone : ¬ c ∈ done := fun h =>
    (List.nodup_append.mp hnd).2.2 c h c (by simp) rfl
  rw [mem_childrenOf, get?_moveAll hr.ne_size hnd.of_append_left, get?_planted hr.ne_size, hr.node,
    Option.map_some, Option.map_some, if_pos rfl]
  refine ⟨_, rfl, ?_⟩
  simp only [Node.movedIn, if_true, Node.linkedIn, hr.other, if_false, IdSet.mem_foldl_erase,
    Node.withoutInputs, Node.withoutParents, Node.withoutChild, IdSet.mem_erase]
  exact ⟨⟨hck, hr.child_ne hck⟩, hdone⟩

/-- The new node reads what the nodes above it produced before. -/
theorem operatorInputs_new (op : Operator)
    (hids : ∀ p ∈ (ps.foldl Inputs.attach (.vacant op.arity)).ids, p ∈ ps) :
    (g.substituted old n op ps).operatorInputs g.size =
      (ps.foldl Inputs.attach (.vacant op.arity)).read g.output? := by
  rw [operatorInputs_eq (hr.get?_new op)]
  refine Inputs.read_congr fun p hp => ?_
  rw [substituted, output?_moveAll hr.ne_size (IdSet.nodup_toList _)]
  exact output?_planted (Nat.ne_of_lt (hr.known p (hids p hp)))

end Replaceable

theorem JoinAt.replaceable {join : GeneralJoin} (hj : g.JoinAt old n join) (hg : g.Settled) :
    g.Replaceable old n [join.left, join.right] where
  node := hj.node
  valid := hg.valid
  current := hg.current
  apart := hj.not_mem_children hg
  known p hp := hj.input_lt hg (by simpa using hp)
  other hmem := hj.input_ne hg (by simpa using hmem) rfl

section Substituted

variable {join : GeneralJoin} (hg : g.Settled) (hj : g.JoinAt old n join)
include hg hj

/-- The new node stands where the join stood. -/
theorem get?_substituted_new (op : Operator) (ha : op.arity = .binary) :
    ∃ m, (g.substituted old n op [join.left, join.right]).get? g.size = some m ∧
      m.id = g.size ∧ m.op = op ∧ m.output = n.output ∧ m.isLocal = op.kind.isLocal ∧
      (n.isMpc = true → m.isMpc = true) ∧ m.inputs = n.inputs ∧
      (∀ p, p ∈ m.parents ↔ p ∈ n.parents) ∧ ∀ c, c ∈ m.children ↔ c ∈ n.children := by
  refine ⟨_, (hj.replaceable hg).get?_new op, rfl, rfl, rfl, rfl, fun h => ?_, ?_, fun p => ?_,
    fun c => Iff.rfl⟩
  · simp [h]
  · simp [ha, hj.inputs, Inputs.vacant, Inputs.attach]
  · rw [hj.mem_parents hg]
    simp

/-- The join itself is left bare. -/
theorem get?_substituted_old (op : Operator) :
    ∃ m, (g.substituted old n op [join.left, join.right]).get? old = some m ∧ m.id = n.id ∧
      m.isMpc = n.isMpc ∧ m.Bare :=
  ⟨_, (hj.replaceable hg).get?_old op, rfl, rfl, rfl, rfl⟩

/-- Every other node has the new one wherever it had the join. -/
theorem get?_substituted (op : Operator) (hi : i ≠ old) (hm : g.get? i = some m) :
    ∃ m', (g.substituted old n op [join.left, join.right]).get? i = some m' ∧ m'.id = m.id ∧
      m.Mirrors (Operator.swap old g.size) m' ∧ m'.op = m.opAlong (Operator.swap old g.size) := by
  have ht := hg.valid.nodes i m hm
  refine ⟨_, (hj.replaceable hg).get?_other op hi hm, rfl,
    ⟨rfl, rfl, fun h => h, Inputs.replace_eq_rename _ _ _, fun p => ?_, fun c => ?_⟩, ?_⟩
  · rw [Operator.exists_swap_iff]
    by_cases hc : old ∈ m.parents
    · simp [Node.handedOver, hc]
    · have hne : p ∈ m.parents → p ≠ old := fun hp he => hc (he ▸ hp)
      simpa [Node.handedOver, hc] using hne
  · rw [Operator.exists_swap_iff, hj.mem_children_iff hg hm]
    by_cases hp : i = join.left ∨ i = join.right <;> simp [Node.handedOver, hp]
  · by_cases hc : old ∈ m.parents
    · have hne : m.parents ≠ ∅ := fun h => IdSet.not_mem_empty old (h ▸ hc)
      simp [Node.handedOver, hc, Node.opAlong, hne, Operator.replaceHelper_eq_renameHelpers]
    · -- the node does not know the join, so renaming the join does not concern it
      have hsame : ∀ q ∈ m.parents, ∀ p ∈ m.op.helpers, Operator.swap old g.size p = p :=
        fun q hq p hp => Operator.swap_of_ne g.size fun he => hc (he ▸ ht.bound q hq p hp)
      simp only [Node.handedOver, hc, if_false, Node.opAlong]
      split
      · rfl
      · next hp =>
        obtain ⟨q, hq⟩ := not_forall_not.mp (mt IdSet.eq_empty_iff.mpr hp)
        rw [Operator.renameHelpers_congr (hsame q hq), Operator.renameHelpers_id]

/-- With a special form in the place of a join the plan is the same but for the number of the join. -/
theorem mirrors_substituted (hop : n.op.Specializes op) :
    g.Mirrors (Operator.swap old g.size) (g.substituted old n op [join.left, join.right]) := by
  have hold : Operator.swap old g.size old = g.size := if_pos rfl
  have hother : ∀ i, i ≠ old → Operator.swap old g.size i = i := fun i hi => if_neg hi
  have hmoved : ∀ i, Operator.swap old g.size i ≠ i → i = old := fun i h => by
    by_contra hi
    exact h (hother i hi)
  obtain ⟨m, hm, _, hmop, hout, hloc, hmpc, hin, hpar, hkid⟩ :=
    get?_substituted_new hg hj op hop.arity
  have hbare := get?_substituted_old hg hj op
  constructor
  case inj =>
    intro i j hi hj he
    unfold Operator.swap at he
    split at he <;> split at he
    · next h h' => exact h.trans h'.symm
    · exact absurd he (Nat.ne_of_gt hj)
    · exact absurd he (Nat.ne_of_lt hi)
    · exact he
  case nodes =>
    intro i k hk
    by_cases hi : i = old
    · subst hi
      cases hj.node.symm.trans hk
      refine ⟨m, by rw [hold]; exact hm, hout, ?_, hmpc, ?_, fun p => ?_, fun c => ?_⟩
      · rw [hloc, hop.isLocal, hj.shared]
      · have hl := hother _ (hj.input_ne hg (.inl rfl))
        have hr := hother _ (hj.input_ne hg (.inr rfl))
        simp [hin, hj.inputs, Inputs.rename, hl, hr]
      · rw [hpar, Operator.exists_swap_of_not_mem (hj.not_mem_parents hg)]
      · rw [hkid, Operator.exists_swap_of_not_mem (hj.not_mem_children hg)]
    · obtain ⟨k', hk', _, hmirror, _⟩ := get?_substituted hg hj op hi hk
      exact ⟨k', (hother i hi).symm ▸ hk', hmirror⟩
  case kept =>
    intro i k k' hk hi hk'
    have hne : i ≠ old := by
      rintro rfl
      exact hj.ne_size (hi.symm.trans hold)
    obtain ⟨m', hm', _, _, hkop⟩ := get?_substituted hg hj op hne hk
    cases hk'.symm.trans hm'
    exact hkop
  case special =>
    intro i k k' hk hi hk'
    cases hmoved i hi
    cases hj.node.symm.trans hk
    rw [hold] at hk'
    cases hk'.symm.trans hm
    exact hmop ▸ hop
  case moved =>
    intro i hi
    cases hmoved i hi
    obtain ⟨m', hm', _, hmark, hb⟩ := hbare
    exact ⟨hj.reaches, hj.not_root hg, hold.ge, n, m', hj.node, hm', hb, fun h => hmark.trans h⟩
  case roots => simp [substituted]

/-- A special form in the place of a join leaves all in order, if it is itself up to date. -/
theorem settled_substituted (hop : n.op.Specializes op)
    (hcur : op.refresh (g.operatorInputs old) = ⟨op, .ok ()⟩)
    (hv : (g.substituted old n op [join.left, join.right]).Valid) :
    (g.substituted old n op [join.left, join.right]).Settled := by
  have hmirror := mirrors_substituted hg hj hop
  obtain ⟨m, hm, hid, hmop, _⟩ := get?_substituted_new hg hj op hop.arity
  obtain ⟨b, hb, hbid, _, hbare⟩ := get?_substituted_old hg hj op
  have hold : Operator.swap old g.size old = g.size := if_pos rfl
  have hother : ∀ i, i ≠ old → Operator.swap old g.size i = i := fun i hi => if_neg hi
  have hcases : ∀ x k, (g.substituted old n op [join.left, join.right]).get? x = some k →
      (x = g.size ∧ k = m) ∨ (x = old ∧ k = b) ∨ (x ≠ old ∧ ∃ k₀, g.get? x = some k₀) := by
    intro x k hk
    have hlt : x < g.size + 1 := by simpa using lt_size hk
    by_cases hsize : x = g.size
    · subst hsize
      exact .inl ⟨rfl, Option.some.inj (hk.symm.trans hm)⟩
    by_cases hx : x = old
    · subst hx
      exact .inr (.inl ⟨rfl, Option.some.inj (hk.symm.trans hb)⟩)
    · have hlt : x < g.size := Nat.lt_of_le_of_ne (Nat.le_of_lt_succ hlt) hsize
      exact .inr (.inr ⟨hx, lt_size_iff.mp hlt⟩)
  refine ⟨fun x k hk => ?_, hv, fun x k hk => ?_, hmirror.acyclic hg.valid.inRange hg.acyclic⟩
  · rcases hcases x k hk with ⟨rfl, rfl⟩ | ⟨rfl, rfl⟩ | ⟨hx, k₀, hk₀⟩
    · exact hid
    · exact hbid.trans (hg.places _ _ hj.node)
    · obtain ⟨k', hk', hkid, _⟩ := get?_substituted hg hj op hx hk₀
      cases hk.symm.trans hk'
      exact hkid.trans (hg.places x k₀ hk₀)
  · rcases hcases x k hk with ⟨rfl, rfl⟩ | ⟨rfl, rfl⟩ | ⟨hx, k₀, hk₀⟩
    · have hin := hmirror.operatorInputs hg.valid hj.node
      rw [hold] at hin
      rw [hin, hmop, hcur]
    · have hids : k.inputs.ids = [] := by
        refine List.eq_nil_iff_forall_not_mem.mpr fun p hp => ?_
        exact IdSet.eq_empty_iff.mp hbare.1 p ((hv.nodes _ _ hk).named p hp)
      rw [operatorInputs_eq hk, Inputs.read_of_ids_nil hids]
      exact Operator.refresh_of_none _
    · obtain ⟨k', hk', _, _, hkop⟩ := get?_substituted hg hj op hx hk₀
      cases hk.symm.trans hk'
      have hin := hmirror.operatorInputs hg.valid hk₀
      rw [hother x hx] at hin
      rw [hin, hkop, Node.opAlong]
      split
      · exact hg.current x k₀ hk₀
      · exact Operator.refresh_renameHelpers_self (hg.current x k₀ hk₀)

end Substituted

end Plan

namespace Edit
open Plan

variable {g : Plan} {id old c : NodeId} {n : Node} {op : Operator} {join : GeneralJoin}

/-- A look-up that finds all as it is changes nothing. -/
theorem Meets.refreshColumns_same (hn : g.get? id = some n)
    (hcur : n.op.refresh (g.operatorInputs id) = ⟨n.op, .ok ()⟩) :
    Meets (· = g) (Edit.refreshColumns id) (fun _ h => h = g) fun _ _ => False := by
  refine Meets.refreshColumns (fun h m op hh hm hr => ?_) (fun h m op e hh hm hr => ?_)
    fun h hh hlt => ?_
  · subst hh
    cases hn.symm.trans hm
    cases hcur.symm.trans hr
    exact update_op_self hn
  · subst hh
    cases hn.symm.trans hm
    cases hcur.symm.trans hr
  · subst hh
    exact hlt (lt_size hn)

/-- A substitution plants the new node before it takes over any child. -/
theorem substitute_planted {ps : List NodeId} {Q : NodeId → Plan → Prop} {R : Error → Plan → Prop}
    (hg : g.Mutual) (hn : g.get? old = some n) (hps : ∀ p ∈ ps, p < g.size)
    (hrest : Meets (· = g.planted old n op ps) (do
      n.children.toList.forM fun c => do replaceParent c old g.size; refreshColumns c
      refreshColumns g.size
      Specialize.reportSpecialized old g.size n.children.size
      return g.size) Q R) :
    Meets (· = g) (Specialize.substitute old op ps) Q R := by
  refine Meets.bind (Meets.ask_known (node_eq_ok.mpr hn)) fun m => Meets.of_fact fun hm => ?_
  subst hm
  refine Meets.bind (M := fun _ h => h = g.orphaned old) (Meets.makeOrphan ?_ ?_ ?_) fun _ => ?_
  · rintro h rfl
    exact hg
  · rintro h rfl _
    rfl
  · rintro h rfl hlt
    exact absurd (lt_size hn) hlt
  refine Meets.bind (M := fun new h => h = (g.orphaned old).push op m.output ∧ new = g.size)
    (Meets.addNode ?_) fun new => Meets.of_fact fun hnew => ?_
  · rintro h rfl
    exact ⟨rfl, size_orphaned g old⟩
  subst hnew
  refine Meets.bind (M := fun _ h => h = ((g.orphaned old).push op m.output).update g.size fun k =>
    { k with isLocal := none.getD k.isLocal,
             isMpc := (if m.isMpc then some true else none).getD k.isMpc })
    (Meets.setFlags ?_ ?_) fun _ => ?_
  · rintro h rfl _
    rfl
  · rintro h rfl hlt
    exact absurd (by simp) hlt
  refine Meets.bind (M := fun _ h => h = g.planted old m op ps) (Meets.linkAll ?_ ?_) fun _ => hrest
  · rintro h rfl
    exact ⟨by simp, fun p hp => by simpa using Nat.lt_succ_of_lt (hps p hp)⟩
  · rintro h rfl
    rfl

/-- The last step of a substitution only reports. -/
theorem reportSpecialized_meets {I : Plan → Prop} {R : Error → Plan → Prop} {new : NodeId}
    (hI : ∀ g, I g → new < g.size) (old : NodeId) (moved : Nat) :
    Meets I (do Specialize.reportSpecialized old new moved; return new)
      (fun id h => I h ∧ id = new) R := by
  refine Meets.bind (M := fun _ => I) (Meets.bind (M := fun _ => I)
    (Meets.fetch (fun _ _ hg _ => hg) fun h hh hlt => absurd (hI h hh) hlt) fun _ =>
      Meets.report fun _ hh => hh) fun _ => Meets.pure fun _ hh => ⟨hh, rfl⟩

section Replacing

variable {ps : List NodeId} (hr : g.Replaceable old n ps)
include hr

/-- A child is moved, and does not notice. -/
theorem adopt_exact (op : Operator) {done : List NodeId} (hnd : (done ++ [c]).Nodup)
    (hsub : ∀ x ∈ done ++ [c], x ∈ n.children) :
    Meets (· = (g.planted old n op ps).moveAll done old g.size)
      (do replaceParent c old g.size; refreshColumns c)
      (fun _ h => h = (g.planted old n op ps).moveAll (done ++ [c]) old g.size) fun _ _ => False := by
  obtain ⟨m, hm, hcur⟩ := hr.current_moveAll op hnd hsub (c := c) (by simp)
  refine Meets.bind (M := fun _ h => h = (g.planted old n op ps).moveAll (done ++ [c]) old g.size) ?_
    fun _ => Meets.refreshColumns_same hm hcur
  refine Meets.replaceParent (fun h hh _ _ _ _ => ?_) fun h _ hh hno => ?_
  · subst hh
    simp [Plan.moveAll, List.foldl_append]
  · subst hh
    have hlt := lt_size hm
    rw [size_moveAll] at hlt
    refine hno ⟨by rwa [size_moveAll], by simp, ?_⟩
    exact hasEdge_iff.mpr (hr.mem_childrenOf_moveAll hnd hsub)

/-- One child after the other is moved. -/
theorem adoptAll_exact (op : Operator) : Meets (· = g.planted old n op ps)
    (n.children.toList.forM fun c => do replaceParent c old g.size; refreshColumns c)
    (fun _ h => h = g.substituted old n op ps) fun _ _ => False := by
  -- the invariant of the loop: the children before the current one are moved
  let I : List NodeId → Plan → Prop := fun rest h => ∃ done,
    h = (g.planted old n op ps).moveAll done old g.size ∧ n.children.toList = done ++ rest
  have hnodup := IdSet.nodup_toList n.children
  have hstep : ∀ c rest, Meets (I (c :: rest)) (do replaceParent c old g.size; refreshColumns c)
      (fun _ => I rest) fun _ _ => False := by
    intro c rest
    refine Meets.of_exists fun done => Meets.of_fact fun hkids => ?_
    have hcs : n.children.toList = (done ++ [c]) ++ rest := by simp [hkids]
    have hnd : (done ++ [c]).Nodup := by
      rw [hcs] at hnodup
      exact hnodup.of_append_left
    have hsub : ∀ x ∈ done ++ [c], x ∈ n.children := fun x hx => by
      rw [IdSet.mem_def, hcs]
      exact List.mem_append_left _ hx
    have hadopt := adopt_exact hr op hnd hsub
    exact hadopt.mono (fun _ hh => hh) (fun _ _ hh => ⟨done ++ [c], hh, hcs⟩) fun _ _ hh => hh
  have hloop := Meets.forM (I := I) hstep n.children.toList
  have hfirst : ∀ h, h = g.planted old n op ps → I n.children.toList h :=
    fun h hh => ⟨[], by rw [hh, moveAll_nil], (List.nil_append _).symm⟩
  have hlast : ∀ h, I [] h → h = g.substituted old n op ps := by
    rintro h ⟨done, hh, hcs⟩
    rw [List.append_nil] at hcs
    rw [hh, substituted, hcs]
  exact hloop.mono hfirst (fun _ => hlast) fun _ _ hh => hh

/-- Putting a node that is up to date in the place of another is not refused. -/
theorem substitute_exact (hids : ∀ p ∈ (ps.foldl Inputs.attach (.vacant op.arity)).ids, p ∈ ps)
    (hcur : op.refresh ((ps.foldl Inputs.attach (.vacant op.arity)).read g.output?) = ⟨op, .ok ()⟩) :
    Meets (· = g) (Specialize.substitute old op ps)
      (fun new h => h = g.substituted old n op ps ∧ new = g.size) fun _ _ => False := by
  refine substitute_planted hr.valid.edges hr.node hr.known
    (Meets.bind (adoptAll_exact hr op) fun _ => ?_)
  have hnew := hr.get?_new op
  have hsame := hcur
  rw [← hr.operatorInputs_new op hids] at hsame
  refine Meets.bind (Meets.refreshColumns_same hnew hsame) fun _ => reportSpecialized_meets ?_ _ _
  rintro h rfl
  exact lt_size hnew

end Replacing

variable (hg : g.Settled) (hj : g.JoinAt old n join)
include hg hj

/-- Putting a special form that is up to date in the place of a join is not refused. -/
theorem substitute_join (hop : n.op.Specializes op)
    (hcur : op.refresh (g.operatorInputs old) = ⟨op, .ok ()⟩) :
    Meets (· = g) (Specialize.substitute old op [join.left, join.right])
      (fun new h => h = g.substituted old n op [join.left, join.right] ∧ new = g.size)
      fun _ _ => False := by
  have hinputs : [join.left, join.right].foldl Inputs.attach (.vacant op.arity) = n.inputs := by
    rw [hop.arity, hj.inputs]
    rfl
  rw [operatorInputs_eq hj.node, ← hinputs] at hcur
  refine substitute_exact (hj.replaceable hg) (fun p hp => ?_) hcur
  rw [hinputs, hj.inputs] at hp
  exact hp

/-- Work that puts a special form in the place of a join leaves all in order and the plan the same but
for one number. -/
theorem takes_of_exact {x : Edit NodeId} (hop : n.op.Specializes op)
    (hcur : op.refresh (g.operatorInputs old) = ⟨op, .ok ()⟩)
    (hexact : Meets (· = g) x
      (fun new h => h = g.substituted old n op [join.left, join.right] ∧ new = g.size)
      fun _ _ => False) (hvalid : Keeps Valid Valid x) :
    Meets (· = g) x (fun new h => g.Takes old new op h) fun _ _ => False := by
  obtain ⟨m, hm, _, hmop, _⟩ := get?_substituted_new hg hj op hop.arity
  refine (hexact.and hvalid).mono ?_ ?_ fun _ _ hh => hh.1
  · rintro h rfl
    exact ⟨rfl, hg.valid⟩
  · rintro new h ⟨⟨rfl, rfl⟩, hv⟩
    exact ⟨settled_substituted hg hj hop hcur hv, mirrors_substituted hg hj hop, rfl, ⟨m, hm, hmop⟩,
      size_substituted⟩

theorem hybridJoin_takes (trusted : Party) : Meets (· = g) (Specialize.hybridJoin old trusted)
    (fun new h => g.Takes old new (.hybridJoin join.keys trusted) h) fun _ _ => False := by
  let op := Operator.hybridJoin join.keys trusted
  have hop : n.op.Specializes op := ⟨join.keys, hj.op, .inl ⟨trusted, rfl⟩⟩
  have hcur : op.refresh (g.operatorInputs old) = ⟨op, .ok ()⟩ := by
    simp [op, Operator.refresh, hj.keys_current hg, Refreshed.map]
  refine takes_of_exact hg hj hop hcur ?_ (Specialize.hybridJoin_valid old trusted)
  refine Meets.bind (Meets.ask_known hj.general) fun j => Meets.of_fact fun he => ?_
  subst he
  exact substitute_join hg hj hop hcur

theorem revealJoin_takes (side : Side) (recipient : Party) {shown : Node}
    (hshown : g.get? (side.pick join.left join.right) = some shown) :
    Meets (· = g) (Specialize.revealJoin old side recipient)
      (fun new h => g.Takes old new (.revealJoin join.keys ⟨side, shown.output, recipient⟩) h)
      fun _ _ => False := by
  let op := Operator.revealJoin join.keys ⟨side, shown.output, recipient⟩
  have hop : n.op.Specializes op := ⟨join.keys, hj.op, .inr ⟨_, rfl⟩⟩
  have hcur : op.refresh (g.operatorInputs old) = ⟨op, .ok ()⟩ := by
    have hnow : Revelation.refresh ⟨side, shown.output, recipient⟩ (g.operatorInputs old).left
        (g.operatorInputs old).right = ⟨side, shown.output, recipient⟩ := by
      have hout := congrArg (Option.map Node.output) hshown
      rw [hj.operatorInputs]
      cases side <;> simp_all [Revelation.refresh, output?]
    simp [op, Operator.refresh, hj.keys_current hg, Refreshed.done, hnow]
  refine takes_of_exact hg hj hop hcur ?_ (Specialize.revealJoin_valid old side recipient)
  refine Meets.bind (Meets.ask_known hj.general) fun j => Meets.of_fact fun he => ?_
  subst he
  refine Meets.bind (Meets.ask_known (node_eq_ok.mpr hshown)) fun m => Meets.of_fact fun he => ?_
  subst he
  exact substitute_join hg hj hop hcur

end Edit
end PartyPlan
