import Mathlib.Data.Set.Function
import PartyPlan.Proofs.Current
import PartyPlan.Proofs.Validity

/-! Plans that are the same but for the numbers of some nodes. A renaming sends every node to one that
reads and feeds the same nodes, under their new numbers, and produces the same relation; a join that
got a new number may have got a special form with it. What was found out about one plan can then be
read off the other. -/
open Relation (TransGen)

namespace PartyPlan

namespace Inputs

def rename (f : NodeId → NodeId) : Inputs → Inputs
  | unary input => unary (input.map f)
  | binary left right => binary (left.map f) (right.map f)
  | nary ordered => nary (ordered.map f)

variable {f s : NodeId → NodeId}

theorem rename_rename (inputs : Inputs) :
    (inputs.rename f).rename s = inputs.rename fun i => s (f i) := by
  cases inputs <;> simp [rename, Function.comp_def]

theorem rename_id (inputs : Inputs) : inputs.rename (fun i => i) = inputs := by
  cases inputs <;> simp [rename]

theorem replace_eq_rename (inputs : Inputs) (old new : NodeId) :
    inputs.replace old new = inputs.rename (Operator.swap old new) := by cases inputs <;> rfl

theorem rename_congr {inputs : Inputs} (h : ∀ p ∈ inputs.ids, f p = s p) :
    inputs.rename f = inputs.rename s := by
  cases inputs with
  | unary input =>
    cases input with
    | none => rfl
    | some p => simp [rename, h p (by simp [ids])]
  | binary left right =>
    have hslot : ∀ slot : Option NodeId, (∀ p ∈ slot.toList, f p = s p) → slot.map f = slot.map s := by
      intro slot hs
      cases slot with
      | none => rfl
      | some p => simp [hs p (by simp)]
    have hl := hslot left fun p hp => h p (by simp [ids, hp])
    have hr := hslot right fun p hp => h p (by simp [ids, hp])
    simp [rename, hl, hr]
  | nary ordered => exact congrArg nary (List.map_congr_left h)

/-- Renamed inputs read the same where the renamed nodes produce the same. -/
theorem read_rename {h h' : NodeId → Option Relation} {inputs : Inputs}
    (hf : ∀ p ∈ inputs.ids, h' (f p) = h p) : (inputs.rename f).read h' = inputs.read h := by
  have hslot : ∀ slot : Option NodeId, (∀ p ∈ slot.toList, h' (f p) = h p) →
      (slot.map f).bind h' = slot.bind h := by
    intro slot hs
    cases slot with
    | none => rfl
    | some p => exact hs p (by simp)
  cases inputs with
  | unary input =>
    simp only [rename, read]
    rw [hslot input fun p hp => hf p (by simpa [ids] using hp)]
  | binary left right =>
    simp only [rename, read]
    rw [hslot left fun p hp => hf p (by simp_all [ids]),
      hslot right fun p hp => hf p (by simp_all [ids])]
  | nary ordered => rfl

theorem read_of_ids_nil {inputs : Inputs} (h : inputs.ids = []) (f : NodeId → Option Relation) :
    inputs.read f = {} := by
  cases inputs with
  | unary input =>
    cases input with
    | none => rfl
    | some p => simp [ids] at h
  | binary left right => cases left <;> cases right <;> first | rfl | simp [ids] at h
  | nary ordered => rfl

end Inputs

namespace Operator

variable {f s : NodeId → NodeId} {op special other : Operator}

def renameHelpers (f : NodeId → NodeId) : Operator → Operator
  | indexAggregate spec eqFlags sortedKeys => indexAggregate spec (f eqFlags) (f sortedKeys)
  | indexJoin keys aligner => indexJoin keys (f aligner)
  | op => op

theorem replaceHelper_eq_renameHelpers (op : Operator) (old new : NodeId) :
    op.replaceHelper old new = op.renameHelpers (swap old new) := by cases op <;> rfl

theorem renameHelpers_renameHelpers (op : Operator) :
    (op.renameHelpers f).renameHelpers s = op.renameHelpers fun i => s (f i) := by cases op <;> rfl

theorem renameHelpers_id (op : Operator) : op.renameHelpers (fun i => i) = op := by cases op <;> rfl

@[simp] theorem kind_renameHelpers (op : Operator) : (op.renameHelpers f).kind = op.kind := by
  cases op <;> rfl

theorem renameHelpers_congr (h : ∀ p ∈ op.helpers, f p = s p) :
    op.renameHelpers f = op.renameHelpers s := by
  cases op with
  | indexAggregate spec eqFlags sortedKeys =>
    simp [renameHelpers, h eqFlags (by simp [helpers]), h sortedKeys (by simp [helpers])]
  | indexJoin keys aligner => simp [renameHelpers, h aligner (by simp [helpers])]
  | _ => rfl

theorem renameHelpers_eq_join {keys : JoinKeys} (h : op.renameHelpers f = .join keys) :
    op = .join keys := by
  cases op with
  | indexAggregate => cases h
  | indexJoin => cases h
  | _ => exact h

theorem renameHelpers_of_helpers_nil (h : op.helpers = []) : op.renameHelpers f = op := by
  cases op with
  | indexAggregate | indexJoin => cases h
  | _ => rfl

/-- A look-up does not hang on the numbers of the helpers. -/
theorem refresh_renameHelpers (op : Operator) (inputs : InputRelations) :
    (op.renameHelpers f).refresh inputs = (op.refresh inputs).map (renameHelpers f) := by
  have hnil : op.helpers = [] →
      (op.renameHelpers f).refresh inputs = (op.refresh inputs).map (renameHelpers f) := by
    intro h
    have hvalue : (op.refresh inputs).value.renameHelpers f = (op.refresh inputs).value :=
      renameHelpers_of_helpers_nil (by rw [helpers_refresh, h])
    rw [renameHelpers_of_helpers_nil h, Refreshed.map, hvalue]
  cases op with
  | indexAggregate spec eqFlags sortedKeys =>
    simp only [renameHelpers, refresh]
    cases inputs.primary <;> rfl
  | indexJoin keys aligner => rfl
  | _ => exact hnil rfl

/-- Whether an operator is up to date does not hang on the numbers of its helpers. -/
theorem refresh_renameHelpers_self {inputs : InputRelations} (h : op.refresh inputs = ⟨op, .ok ()⟩) :
    (op.renameHelpers f).refresh inputs = ⟨op.renameHelpers f, .ok ()⟩ := by
  rw [refresh_renameHelpers, h, Refreshed.map]

/-- An operator that reads nothing is up to date. -/
theorem refresh_of_none (op : Operator) : op.refresh {} = ⟨op, .ok ()⟩ := by
  cases op with
  | revealJoin keys revealed => obtain ⟨side, relation, recipient⟩ := revealed; cases side <;> rfl
  | _ => rfl

def Specializes (op special : Operator) : Prop :=
  ∃ keys, op = .join keys ∧
    ((∃ trusted, special = .hybridJoin keys trusted) ∨ ∃ revealed, special = .revealJoin keys revealed)

theorem Specializes.arity (h : op.Specializes special) : special.arity = .binary := by
  obtain ⟨_, _, ⟨_, rfl⟩ | ⟨_, rfl⟩⟩ := h <;> rfl

theorem Specializes.isLocal (h : op.Specializes special) : special.kind.isLocal = false := by
  obtain ⟨_, _, ⟨_, rfl⟩ | ⟨_, rfl⟩⟩ := h <;> rfl

theorem Specializes.renameHelpers (h : op.Specializes special) :
    special.renameHelpers f = special := by
  obtain ⟨keys, _, ⟨_, rfl⟩ | ⟨_, rfl⟩⟩ := h <;> rfl

theorem Specializes.not_specializes (h : op.Specializes special) :
    ¬ special.Specializes other := by
  rintro ⟨keys', hjoin, _⟩
  obtain ⟨keys, _, ⟨_, rfl⟩ | ⟨_, rfl⟩⟩ := h <;> cases hjoin

end Operator

namespace Node

/-- The other node stands where this one does once nodes are renamed. -/
structure Mirrors (f : NodeId → NodeId) (n n' : Node) : Prop where
  output : n'.output = n.output
  isLocal : n'.isLocal = n.isLocal
  isMpc : n.isMpc = true → n'.isMpc = true
  inputs : n'.inputs = n.inputs.rename f
  parents : ∀ p, p ∈ n'.parents ↔ ∃ q ∈ n.parents, f q = p
  children : ∀ c, c ∈ n'.children ↔ ∃ d ∈ n.children, f d = c

def Bare (n : Node) : Prop := n.parents = ∅ ∧ n.children = ∅

/-- The operator of a node once nodes are renamed. Without parents a node is left out of renamings, so
helpers it still refers to keep their numbers. -/
def opAlong (f : NodeId → NodeId) (n : Node) : Operator :=
  if n.parents = ∅ then n.op else n.op.renameHelpers f

variable {f s : NodeId → NodeId} {n n' n'' : Node}

theorem Mirrors.parents_eq_empty (h : n.Mirrors f n') : n'.parents = ∅ ↔ n.parents = ∅ := by
  simp [IdSet.eq_empty_iff, h.parents]

theorem Mirrors.bare (h : n.Mirrors f n') (hn : n.Bare) : n'.Bare := by
  refine ⟨h.parents_eq_empty.mpr hn.1, ?_⟩
  simp [IdSet.eq_empty_iff, h.children, hn.2]

theorem Mirrors.trans (h : n.Mirrors f n') (h' : n'.Mirrors s n'') :
    n.Mirrors (fun i => s (f i)) n'' where
  output := h'.output.trans h.output
  isLocal := h'.isLocal.trans h.isLocal
  isMpc hn := h'.isMpc (h.isMpc hn)
  inputs := by rw [h'.inputs, h.inputs, Inputs.rename_rename]
  parents p := by simp [h'.parents, h.parents]
  children c := by simp [h'.children, h.children]

theorem opAlong_trans (h : n.Mirrors f n') (hop : n'.op = n.opAlong f) :
    n'.opAlong s = n.opAlong fun i => s (f i) := by
  by_cases hp : n.parents = ∅
  · simp [opAlong, hp, h.parents_eq_empty, hop]
  · simp [opAlong, hp, h.parents_eq_empty, hop, Operator.renameHelpers_renameHelpers]

theorem opAlong_eq_join {keys : JoinKeys} (h : n.opAlong f = .join keys) : n.op = .join keys := by
  unfold opAlong at h
  split at h
  · exact h
  · exact Operator.renameHelpers_eq_join h

end Node

namespace Plan

/-- The second plan is the first with nodes renamed. Only joins that some root leads to get new
numbers, from beyond the first plan; they take a special form with it and leave a bare node behind. -/
structure Mirrors (f : NodeId → NodeId) (g g' : Plan) : Prop where
  inj : ∀ i j, i < g.size → j < g.size → f i = f j → i = j
  nodes : ∀ i n, g.get? i = some n → ∃ n', g'.get? (f i) = some n' ∧ n.Mirrors f n'
  kept : ∀ i n n', g.get? i = some n → f i = i → g'.get? i = some n' → n'.op = n.opAlong f
  special : ∀ i n n', g.get? i = some n → f i ≠ i → g'.get? (f i) = some n' →
    n.op.Specializes n'.op
  moved : ∀ i, f i ≠ i → g.Reaches i ∧ ¬ i ∈ g.roots ∧ g.size ≤ f i ∧
    ∃ n n', g.get? i = some n ∧ g'.get? i = some n' ∧ n'.Bare ∧ (n.isMpc = true → n'.isMpc = true)
  roots : g'.roots = g.roots

namespace Mirrors

variable {f s : NodeId → NodeId} {g g' g'' : Plan} {i x y : NodeId} {n : Node}

theorem lt_size (h : g.Mirrors f g') (hi : i < g.size) : i < g'.size := by
  by_cases hf : f i = i
  · obtain ⟨n, hn⟩ := lt_size_iff.mp hi
    obtain ⟨n', hn', _⟩ := h.nodes i n hn
    exact Plan.lt_size (hf ▸ hn')
  · obtain ⟨_, _, _, _, n', _, hn', _⟩ := h.moved i hf
    exact Plan.lt_size hn'

theorem size_le (h : g.Mirrors f g') : g.size ≤ g'.size := by
  by_contra hlt
  exact absurd (h.lt_size (not_le.mp hlt)) (Nat.lt_irrefl _)

theorem root_eq (h : g.Mirrors f g') (hi : i ∈ g.roots) : f i = i := by
  by_contra hf
  exact (h.moved i hf).2.1 hi

theorem edge (h : g.Mirrors f g') (he : g.Edge x y) : g'.Edge (f x) (f y) := by
  obtain ⟨n, hn, hy⟩ := mem_childrenOf.mp he
  obtain ⟨n', hn', hm⟩ := h.nodes x n hn
  exact mem_childrenOf.mpr ⟨n', hn', (hm.children _).mpr ⟨y, hy, rfl⟩⟩

theorem edge_inv (h : g.Mirrors f g') (hi : i < g.size) (he : g'.Edge (f i) y) :
    ∃ j, g.Edge i j ∧ f j = y := by
  obtain ⟨n, hn⟩ := lt_size_iff.mp hi
  obtain ⟨n', hn', hm⟩ := h.nodes i n hn
  rw [Edge, childrenOf_eq hn', hm.children] at he
  obtain ⟨j, hj, hy⟩ := he
  exact ⟨j, mem_childrenOf.mpr ⟨n, hn, hj⟩, hy⟩

theorem reaches (h : g.Mirrors f g') (hi : g.Reaches i) : g'.Reaches (f i) := by
  induction hi with
  | root hr => exact .root (by rw [h.root_eq hr, h.roots]; exact hr)
  | child _ he ih => exact ih.child (h.edge he)

theorem reaches_inv (h : g.Mirrors f g') (hg : g.InRange) (hx : g'.Reaches x) :
    ∃ i, g.Reaches i ∧ f i = x := by
  induction hx with
  | root hr =>
    rw [h.roots] at hr
    exact ⟨_, .root hr, h.root_eq hr⟩
  | child _ he ih =>
    obtain ⟨i, hi, rfl⟩ := ih
    obtain ⟨j, hj, hy⟩ := h.edge_inv (hg.reaches_lt hi) he
    exact ⟨j, hi.child hj, hy⟩

/-- The nodes some root leads to correspond one to one. -/
theorem bijOn (h : g.Mirrors f g') (hg : g.InRange) :
    Set.BijOn f {i | g.Reaches i} {i | g'.Reaches i} :=
  ⟨fun _ hi => h.reaches hi,
    fun i hi j hj he => h.inj i j (hg.reaches_lt hi) (hg.reaches_lt hj) he,
    fun _ hx => h.reaches_inv hg hx⟩

theorem path_inv (h : g.Mirrors f g') (hg : g.InRange) (hi : g.Reaches i)
    (hp : TransGen g'.Edge (f i) y) : ∃ j, TransGen g.Edge i j ∧ f j = y := by
  induction hp with
  | single he =>
    obtain ⟨j, hj, hy⟩ := h.edge_inv (hg.reaches_lt hi) he
    exact ⟨j, .single hj, hy⟩
  | tail _ he ih =>
    obtain ⟨j, hj, rfl⟩ := ih
    obtain ⟨k, hk, hy⟩ := h.edge_inv (hg.reaches_lt (hi.along hj.to_reflTransGen)) he
    exact ⟨k, hj.tail hk, hy⟩

theorem acyclic (h : g.Mirrors f g') (hg : g.InRange) (ha : g.Acyclic) : g'.Acyclic := by
  intro x hx hcycle
  obtain ⟨i, hi, rfl⟩ := h.reaches_inv hg hx
  obtain ⟨j, hj, he⟩ := h.path_inv hg hi hcycle
  have hlt := hg.reaches_lt (hi.along hj.to_reflTransGen)
  have hji : j = i := h.inj j i hlt (hg.reaches_lt hi) he
  exact ha i hi (hji ▸ hj)

theorem output? (h : g.Mirrors f g') (hi : i < g.size) : g'.output? (f i) = g.output? i := by
  obtain ⟨n, hn⟩ := lt_size_iff.mp hi
  obtain ⟨n', hn', hm⟩ := h.nodes i n hn
  simp [Plan.output?, hn, hn', hm.output]

/-- A renamed node reads what it read. -/
theorem operatorInputs (h : g.Mirrors f g') (hv : g.Valid) (hn : g.get? i = some n) :
    g'.operatorInputs (f i) = g.operatorInputs i := by
  obtain ⟨n', hn', hm⟩ := h.nodes i n hn
  rw [operatorInputs_eq hn', operatorInputs_eq hn, hm.inputs]
  refine Inputs.read_rename fun p hp => h.output? (hv.edges.parent_lt (c := i) ?_)
  exact mem_parentsOf.mpr ⟨n, hn, (hv.nodes i n hn).named p hp⟩

/-- A join gets a special form once at most. -/
theorem eq_of_moved (h : g.Mirrors f g') (hs : g'.Mirrors s g'') (hn : g.get? i = some n)
    (hf : f i ≠ i) : s (f i) = f i := by
  by_contra hsf
  obtain ⟨n', hn', _⟩ := h.nodes i n hn
  obtain ⟨n'', hn'', _⟩ := hs.nodes (f i) n' hn'
  exact (h.special i n n' hn hf hn').not_specializes (hs.special (f i) n' n'' hn' hsf hn'')

/-- A node that moves in the second step stood in the first plan under the number it had. -/
theorem reaches_of_moved (h : g.Mirrors f g') (hs : g'.Mirrors s g'') (hg : g.InRange)
    (hsi : s i ≠ i) : g.Reaches i ∧ f i = i := by
  obtain ⟨j, hj, hji⟩ := h.reaches_inv hg (hs.moved i hsi).1
  obtain ⟨n, hn⟩ := lt_size_iff.mp (hg.reaches_lt hj)
  by_cases hf : f j = j
  · have hij : j = i := hf.symm.trans hji
    exact ⟨hij ▸ hj, hij ▸ hf⟩
  · exact absurd (hji ▸ h.eq_of_moved hs hn hf) hsi

theorem comp_kept (h : g.Mirrors f g') (hs : g'.Mirrors s g'') (hn : g.get? i = some n)
    (he : s (f i) = i) : f i = i := by
  by_contra hf
  exact hf ((h.eq_of_moved hs hn hf).symm.trans he)

/-- Renaming twice is renaming once. -/
theorem trans (h : g.Mirrors f g') (hs : g'.Mirrors s g'') (hg : g.InRange) :
    g.Mirrors (fun i => s (f i)) g'' where
  inj i j hi hj he := by
    have hlt : ∀ k < g.size, f k < g'.size := fun k hk => by
      obtain ⟨n, hn⟩ := lt_size_iff.mp hk
      obtain ⟨n', hn', _⟩ := h.nodes k n hn
      exact Plan.lt_size hn'
    exact h.inj i j hi hj (hs.inj _ _ (hlt i hi) (hlt j hj) he)
  nodes i n hn := by
    obtain ⟨n', hn', hm⟩ := h.nodes i n hn
    obtain ⟨n'', hn'', hm'⟩ := hs.nodes (f i) n' hn'
    exact ⟨n'', hn'', hm.trans hm'⟩
  kept i n n'' hn he hn'' := by
    have hf := h.comp_kept hs hn he
    obtain ⟨n', hn', hm⟩ := h.nodes i n hn
    rw [hf] at he hn'
    rw [hs.kept i n' n'' hn' he hn'']
    exact Node.opAlong_trans hm (h.kept i n n' hn hf hn')
  special i n n'' hn hne hn'' := by
    obtain ⟨n', hn', hm⟩ := h.nodes i n hn
    by_cases hf : f i = i
    · rw [hf] at hne hn' hn''
      obtain ⟨keys, hjoin, hform⟩ := hs.special i n' n'' hn' hne hn''
      rw [h.kept i n n' hn hf hn'] at hjoin
      exact ⟨keys, Node.opAlong_eq_join hjoin, hform⟩
    · have hsf := h.eq_of_moved hs hn hf
      have hspecial := h.special i n n' hn hf hn'
      have hop : n''.op = n'.op := by
        rw [hs.kept (f i) n' n'' hn' hsf (hsf ▸ hn''), Node.opAlong, hspecial.renameHelpers, ite_self]
      exact hop ▸ hspecial
  moved i hne := by
    by_cases hf : f i = i
    · rw [hf] at hne
      obtain ⟨_, hroot, hle, n', n'', hn', hn'', hbare, hmpc⟩ := hs.moved i hne
      have hreach := (h.reaches_of_moved hs hg hne).1
      obtain ⟨n, hn⟩ := lt_size_iff.mp (hg.reaches_lt hreach)
      obtain ⟨m, hm, hmirror⟩ := h.nodes i n hn
      rw [hf] at hm
      cases hn'.symm.trans hm
      refine ⟨hreach, h.roots ▸ hroot, ?_, n, n'', hn, hn'', hbare, fun hb => hmpc (hmirror.isMpc hb)⟩
      rw [hf]
      exact h.size_le.trans hle
    · obtain ⟨hreach, hroot, hle, n, n', hn, hn', hbare, hmpc⟩ := h.moved i hf
      refine ⟨hreach, hroot, by rw [h.eq_of_moved hs hn hf]; exact hle, ?_⟩
      -- a bare node is no join with inputs, so the second step leaves it where it is
      have hsi : s i = i := by
        by_contra hsi
        exact hf (h.reaches_of_moved hs hg hsi).2
      obtain ⟨n'', hn'', hm⟩ := hs.nodes i n' hn'
      exact ⟨n, n'', hn, hsi ▸ hn'', hm.bare hbare, fun hb => hm.isMpc (hmpc hb)⟩
  roots := hs.roots.trans h.roots

end Mirrors

/-- Nothing but marks has changed, and no node has lost one. -/
structure Marked (g g' : Plan) : Prop where
  roots : g'.roots = g.roots
  size : g'.size = g.size
  nodes : ∀ i n, g.get? i = some n → ∃ b, g'.get? i = some { n with isMpc := b } ∧
    (n.isMpc = true → b = true)

namespace Marked

variable {g g' : Plan}

theorem refl (g : Plan) : g.Marked g := ⟨rfl, rfl, fun _ n hn => ⟨n.isMpc, hn, fun h => h⟩⟩

/-- With marks alone every node keeps its number. -/
theorem mirrors (h : g.Marked g') : g.Mirrors (fun i => i) g' where
  inj _ _ _ _ he := he
  nodes i n hn := by
    obtain ⟨b, hn', hb⟩ := h.nodes i n hn
    exact ⟨_, hn', rfl, rfl, hb, (Inputs.rename_id _).symm, by simp, by simp⟩
  kept i n n' hn _ hn' := by
    obtain ⟨b, hb, _⟩ := h.nodes i n hn
    cases hn'.symm.trans hb
    simp [Node.opAlong, Operator.renameHelpers_id]
  special _ _ _ _ hne := absurd rfl hne
  moved _ hne := absurd rfl hne
  roots := h.roots

end Marked
end Plan
end PartyPlan
