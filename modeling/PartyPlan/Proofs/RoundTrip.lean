import PartyPlan.Proofs.Absorption
import PartyPlan.Proofs.Freshness
import PartyPlan.Proofs.Insertion

/-! Putting a node in and taking it out again. The child that changes hands looks its columns up in the
output of the node, which may have nothing to do with them, and then in the output of the parent again.
Places are all that a look-up goes by, so the child ends with the columns it had. -/
namespace PartyPlan

namespace Operator

variable {op op' : Operator} {old new p : NodeId}

theorem swap_swap (h : p ≠ new) : swap new old (swap old new p) = p := by
  unfold swap
  by_cases hp : p = old
  · simp [hp]
  · simp [hp, h]

/-- A helper that takes a place no helper had before gives it back. -/
theorem replaceHelper_replaceHelper (h : ¬ new ∈ op.helpers) :
    (op.replaceHelper old new).replaceHelper new old = op := by
  rw [replaceHelper_eq_renameHelpers, replaceHelper_eq_renameHelpers, renameHelpers_renameHelpers]
  refine (renameHelpers_congr fun p hp => ?_).trans op.renameHelpers_id
  exact swap_swap fun he => h (he ▸ hp)

theorem refresh_replaceHelper_eq_done {inputs : InputRelations}
    (h : (op.replaceHelper old new).refresh inputs = ⟨op', .ok ()⟩) :
    ∃ mid, op.refresh inputs = ⟨mid, .ok ()⟩ ∧ mid.replaceHelper old new = op' := by
  rw [replaceHelper_eq_renameHelpers, refresh_renameHelpers, Refreshed.map_eq_done] at h
  obtain ⟨mid, hmid, he⟩ := h
  exact ⟨mid, hmid, by rw [replaceHelper_eq_renameHelpers, he]⟩

end Operator

theorem IdSet.size_le_one {s : IdSet} (h : ∀ a ∈ s, ∀ b ∈ s, a = b) : s.size ≤ 1 := by
  have hnodup := IdSet.nodup_toList s
  rw [IdSet.size]
  cases hs : s.toList with
  | nil => simp
  | cons a rest =>
    cases rest with
    | nil => simp
    | cons b rest =>
      have he : a = b := h a (by simp [IdSet.mem_def, hs]) b (by simp [IdSet.mem_def, hs])
      simp [hs, he] at hnodup

namespace Inputs

variable {inputs : Inputs} {old new : NodeId} {f f' : NodeId → Option Relation} {s : NodeId → NodeId}

theorem replace_replace (h : ¬ new ∈ inputs.ids) : (inputs.replace old new).replace new old = inputs := by
  rw [replace_eq_rename, replace_eq_rename, rename_rename]
  refine (rename_congr fun p hp => ?_).trans inputs.rename_id
  exact Operator.swap_swap fun he => h (he ▸ hp)

theorem read_wellFormed (hf : ∀ p r, f p = some r → r.WellFormed) (inputs : Inputs) :
    (inputs.read f).WellFormed := by
  have hslot : ∀ (slot : Option NodeId) r, slot.bind f = some r → r.WellFormed := by
    intro slot r hr
    obtain ⟨p, _, hp⟩ := Option.bind_eq_some_iff.mp hr
    exact hf p r hp
  cases inputs with
  | unary input => exact ⟨hslot input, nofun, nofun⟩
  | binary left right => exact ⟨nofun, hslot left, hslot right⟩
  | nary ordered => exact ⟨nofun, nofun, nofun⟩

theorem read_covers (h : ∀ p ∈ inputs.ids, f p = none → f' (s p) = none) :
    (inputs.read f).Covers ((inputs.rename s).read f') := by
  have hslot : ∀ slot : Option NodeId, (∀ p ∈ slot.toList, f p = none → f' (s p) = none) →
      slot.bind f = none → (slot.map s).bind f' = none := by
    intro slot hs hnone
    cases slot with
    | none => rfl
    | some p => exact hs p (by simp) hnone
  cases inputs with
  | unary input => exact ⟨hslot input fun p hp => h p hp, fun _ => rfl, fun _ => rfl⟩
  | binary left right =>
    refine ⟨fun _ => rfl, hslot left fun p hp => ?_, hslot right fun p hp => ?_⟩
    · exact h p (List.mem_append_left _ hp)
    · exact h p (List.mem_append_right _ hp)
  | nary ordered => exact ⟨fun _ => rfl, fun _ => rfl, fun _ => rfl⟩

end Inputs

namespace Plan

variable {g h k : Plan} {parent id c i : NodeId} {child : Option NodeId} {n m : Node}

/-- A node is what it was when its core and its edges are. -/
theorem get?_eq_of_core? (hcore : h.core? i = g.core? i) (hp : h.parentsOf i = g.parentsOf i)
    (hc : h.childrenOf i = g.childrenOf i) : h.get? i = g.get? i := by
  cases hn : g.get? i with
  | none => simpa [core?, hn] using hcore
  | some n =>
    rw [core?_eq hn] at hcore
    obtain ⟨m, hm, he⟩ := Option.map_eq_some_iff.mp hcore
    rw [parentsOf_eq hm, parentsOf_eq hn] at hp
    rw [childrenOf_eq hm, childrenOf_eq hn] at hc
    rw [hm]
    obtain ⟨id, op, output, isLocal, isMpc, inputs, parents, children⟩ := n
    obtain ⟨id', op', output', isLocal', isMpc', inputs', parents', children'⟩ := m
    simp only [Node.core, Node.mk.injEq] at he
    simp only at hp hc
    simp [he, hp, hc]

theorem core?_orphaned (hi : i ≠ id) : (g.orphaned id).core? i = g.core? i := by
  rw [core?, core?, get?_orphaned, Option.map_map]
  congr 1
  funext n
  simp only [Function.comp_apply, if_neg hi]
  rfl

/-- A node without edges is no source of any other. -/
theorem Unplaced.not_source (hfresh : g.Unplaced id) (hg : g.Valid) (hedge : g.Edge parent c)
    (hn : g.get? c = some n) : (¬ id ∈ n.inputs.ids) ∧ ¬ id ∈ n.op.helpers := by
  have htied := hg.nodes c n hn
  have hmem : ∀ p, p ∈ n.parents ↔ g.Edge p c := by
    intro p
    rw [← parentsOf_eq hn, hg.edges, Edge]
  have hnot : ¬ id ∈ n.parents := fun hid => hfresh.not_edge_from c ((hmem id).mp hid)
  exact ⟨fun hid => hnot (htied.named id hid),
    fun hid => hnot (htied.bound parent ((hmem parent).mpr hedge) id hid)⟩

theorem Inserted.inRange {moved : NodeId → Prop} (hh : g.Inserted parent moved id h) (hg : g.InRange) :
    h.InRange where
  parents _ _ hp := hh.known.parent_lt hp
  children _ _ hc := hh.known.child_lt hc
  roots r hr := hh.size ▸ hg.roots r (hh.roots ▸ hr)

theorem Inserted.output_wellFormed {moved : NodeId → Prop} (hh : g.Inserted parent moved id h)
    (hwf : ∀ i r, g.output? i = some r → r.WellFormed) (i : NodeId) (r : Relation)
    (hr : h.output? i = some r) : r.WellFormed := by
  by_cases hi : i = id
  · subst hi
    obtain ⟨m, hm, rfl⟩ := Option.map_eq_some_iff.mp hr
    obtain ⟨n, hn⟩ := lt_size_iff.mp (hh.size ▸ lt_size hm)
    obtain ⟨op, holders, hcore, _⟩ := hh.node n.core (core?_eq hn)
    rw [core?_eq hm, Option.some.injEq] at hcore
    have hout : m.output = n.output.heldBy holders := (congrArg Node.output hcore :)
    rw [hout]
    refine (hwf i n.output ?_).heldBy holders
    rw [output?, hn, Option.map_some]
  · rw [hh.outputs i hi] at hr
    exact hwf i r hr

section Inserted

variable (ha : g.Admits (.insert parent child id)) (hh : g.Inserted parent (fun c => child = some c) id h)
  (hg : g.Valid)
include ha hh hg

theorem Inserted.admits_remove (hpar : parent ≠ id) : h.Admits (.remove parent child id) := by
  obtain ⟨hfresh, hp, hedges⟩ := ha
  have hinto : ∀ p, h.Edge p id → p = parent := by
    intro p hedge
    rcases (hh.edges p id).mp hedge with ⟨hold, _⟩ | ⟨hp, _⟩ | ⟨_, hc⟩
    · exact absurd hold (hfresh.not_edge_to hg.edges p)
    · exact hp
    · exact absurd (hedges id hc) (hfresh.not_edge_to hg.edges parent)
  have hfrom : ∀ b, h.Edge id b ↔ child = some b := by
    intro b
    rw [hh.edges]
    constructor
    · rintro (⟨hold, _⟩ | ⟨hid, _⟩ | ⟨_, hc⟩)
      · exact absurd hold (hfresh.not_edge_from b)
      · exact absurd hid.symm hpar
      · exact hc
    · intro hc
      exact .inr (.inr ⟨rfl, hc⟩)
  have hshape : h.UnaryShaped id := by
    obtain ⟨n, hn, hunary, _⟩ := hfresh
    obtain ⟨op, holders, hcore, hread, _⟩ := hh.node n.core (core?_eq hn)
    obtain ⟨m, hm, he⟩ := Option.map_eq_some_iff.mp hcore
    have hop : m.op = op := (congrArg Node.op he :)
    have hkind : m.kind = n.kind := by
      rw [Node.kind, hop, Operator.kind_of_refresh hread]
      rfl
    refine ⟨m, hm, hkind ▸ hunary, IdSet.size_le_one fun p hp q hq => ?_,
      IdSet.size_le_one fun b hb c hc => ?_⟩
    · rw [← parentsOf_eq hm, hh.known] at hp hq
      exact (hinto p hp).trans (hinto q hq).symm
    · rw [← childrenOf_eq hm] at hb hc
      exact Option.some.inj (((hfrom b).mp hb).symm.trans ((hfrom c).mp hc))
  refine ⟨hshape, (hh.edges parent id).mpr (.inr (.inl ⟨rfl, rfl⟩)), ?_⟩
  cases child with
  | none =>
    intro b hb
    cases (hfrom b).mp hb
  | some c => exact (hfrom c).mpr rfl

variable (hwf : ∀ i r, g.output? i = some r → r.WellFormed)
  (hcur : ∀ c n, child = some c → g.get? c = some n →
    n.op.refresh (n.inputs.read g.output?) = ⟨n.op, .ok ()⟩)
include hwf hcur

/-- Below the parent again, the child looks up the columns it had. -/
theorem Inserted.refresh_back (hc : child = some c) (hn : g.get? c = some n) (hm : h.get? c = some m) :
    m.inputs.replace id parent = n.inputs ∧
    (m.op.replaceHelper id parent).refresh (n.inputs.read h.output?) = ⟨n.op, .ok ()⟩ := by
  obtain ⟨hfresh, hp, hedges⟩ := ha
  obtain ⟨hnamed, hhelpers⟩ := hfresh.not_source hg (hedges c hc) hn
  obtain ⟨op, hcore, hread⟩ := hh.children c n.core hc (core?_eq hn)
  rw [core?_eq hm, Option.some.injEq] at hcore
  have hop : m.op = op := (congrArg Node.op hcore :)
  have hin : m.inputs = n.inputs.replace parent id := (congrArg Node.inputs hcore :)
  obtain ⟨mid, hmid, rfl⟩ := Operator.refresh_replaceHelper_eq_done hread
  have hback : (mid.replaceHelper parent id).replaceHelper id parent = mid := by
    refine Operator.replaceHelper_replaceHelper ?_
    rw [Operator.helpers_of_refresh hmid]
    exact hhelpers
  have hsame : n.inputs.read h.output? = n.inputs.read g.output? :=
    Inputs.read_congr fun p hp => hh.outputs p fun he => hnamed (he ▸ hp)
  have hcovers : (n.inputs.read g.output?).Covers ((n.inputs.replace parent id).read h.output?) := by
    rw [Inputs.replace_eq_rename]
    refine Inputs.read_covers fun p hp hnone => ?_
    by_cases he : p = parent
    · subst he
      obtain ⟨q, hq⟩ := lt_size_iff.mp ‹p < g.size›
      simp [output?, hq] at hnone
    · rw [Operator.swap, if_neg he, hh.outputs p fun he => hnamed (he ▸ hp), hnone]
  refine ⟨by rw [hin, Inputs.replace_replace hnamed], ?_⟩
  rw [hop, hback, hsame]
  have hplaced := (Inputs.read_wellFormed (hh.output_wellFormed hwf) (n.inputs.replace parent id)).placed
  exact (Operator.refresh_same hplaced hcovers hmid).eq_done_iff.mpr (hcur c n hc hn)

theorem Inserted.fits_remove : h.Fits (.remove parent child id) := by
  intro c hc m hm
  obtain ⟨n, hn⟩ := lt_size_iff.mp (hh.size ▸ lt_size hm)
  obtain ⟨hin, hread⟩ := hh.refresh_back ha hg hwf hcur hc hn hm
  have hfound := Operator.outcome_refresh.mp (congrArg Refreshed.outcome hread)
  rw [hin]
  exact Operator.found_replaceHelper.mp hfound

/-- Once the child is handed over, all but the node and its edge from the parent is as it was. -/
theorem Inserted.handsOver (hpar : parent ≠ id) (hover : h.HandsOver parent child id k) :
    k.roots = g.roots ∧ (∀ p c, k.Edge p c ↔ g.Edge p c ∨ (p = parent ∧ c = id)) ∧
    ∀ i, i ≠ id → k.core? i = g.core? i := by
  have hadmits := ha
  obtain ⟨hfresh, hp, hedges⟩ := hadmits
  cases child with
  | none =>
    rw [hover]
    refine ⟨hh.roots, fun p c => ?_, fun i hi => hh.others i hi nofun⟩
    rw [hh.edges]
    simp
  | some c =>
    obtain ⟨m', hm', rfl⟩ := hover
    have hedge : g.Edge parent c := hedges c rfl
    have hne : c ≠ id := fun he => hfresh.not_edge_to hg.edges parent (he ▸ hedge)
    refine ⟨hh.roots, fun p b => ?_, fun i hi => ?_⟩
    · have hnone := hfresh.not_edge_from b
      rw [Edge, childrenOf_lookedUp, mem_childrenOf_moveEdge (hh.size ▸ hp), ← Edge, hh.edges]
      grind
    · rw [core?_lookedUp, core?_moveEdge]
      by_cases hci : c = i
      · subst hci
        obtain ⟨n, hn⟩ := lt_size_iff.mp (hg.edges.child_lt hedge)
        obtain ⟨op, hcore, _⟩ := hh.children c n.core rfl (core?_eq hn)
        obtain ⟨m, hm, he⟩ := Option.map_eq_some_iff.mp hcore
        obtain ⟨hin, hread⟩ := hh.refresh_back ha hg hwf hcur rfl hn hm
        have hcore' := core?_eq hm'
        rw [core?_moveEdge, if_pos rfl, core?_eq hm, Option.map_some, Option.some.injEq] at hcore'
        have hop' : m.op.replaceHelper id parent = m'.op := congrArg Node.op hcore'
        have hin' : m.inputs.replace id parent = m'.inputs := congrArg Node.inputs hcore'
        rw [if_pos rfl, if_pos rfl, core?_eq hm, core?_eq hn, output?_moveEdge, ← hop', ← hin', hin, hread]
        have hround : (n.inputs.replace parent id).replace id parent = n.inputs :=
          (congrArg (Inputs.replace · id parent) (congrArg Node.inputs he :)).symm.trans hin
        rw [he]
        exact congrArg (fun inputs => some { n.core with inputs }) hround
      · rw [if_neg hci, if_neg hci]
        exact hh.others i hi fun he => hci (Option.some.inj he)

theorem Inserted.restored (hpar : parent ≠ id) (hr : h.Removed parent child id k) :
    k.roots = g.roots ∧ (∀ i, i ≠ id → k.get? i = g.get? i) ∧
    ∃ n, k.get? id = some n ∧ n.parents = ∅ ∧ n.children = ∅ ∧ n.inputs.ids = [] := by
  obtain ⟨j, hover, rfl⟩ := hr.leaves hh.known
  obtain ⟨hroots, hedges, hcores⟩ := hh.handsOver ha hg hwf hcur hpar hover
  have hmutual : (j.orphaned id).Mutual := (hover.mutual hr.admits hh.known).orphaned
  have hsame : ∀ p c, c ∈ (j.orphaned id).childrenOf p ↔ c ∈ g.childrenOf p := by
    intro p c
    have hnone := ha.1.not_edge_to hg.edges p
    rw [mem_childrenOf_orphaned, ← Edge, ← Edge, hedges]
    by_cases hc : c = id
    · simp [hc, hnone]
    · simp [hc]
  refine ⟨hroots, fun i hi => ?_, ?_⟩
  · refine get?_eq_of_core? ((core?_orphaned hi).trans (hcores i hi)) (IdSet.ext fun p => ?_)
      (IdSet.ext fun c => hsame i c)
    rw [hmutual, hg.edges, hsame]
  · obtain ⟨n, hn, hparents, hchildren⟩ := hr.bare
    refine ⟨n, hn, hparents, hchildren, ?_⟩
    rw [get?_orphaned] at hn
    obtain ⟨m, _, rfl⟩ := Option.map_eq_some_iff.mp hn
    rw [if_pos rfl]
    exact Inputs.ids_vacant _

end Inserted

end Plan

/-- A node that was put into a valid plan can be taken out again where the child's columns were up to
date. That gives back the roots and every other node, and leaves the node without edges and inputs. -/
theorem splice_round_trip (d d' : Draft) (parent : NodeId) (child : Option NodeId) (id : NodeId)
    (hnum : d.plan.Numbered) (hwf : ∀ i n, d.plan.get? i = some n → n.output.WellFormed)
    (hv : d.plan.validate = .ok ())
    (hidle : ∀ c, child = some c → (Edit.refreshColumns c).apply d = (.ok (), d))
    (hself : child = none → parent ≠ id)
    (hok : (Splice.insertBetween parent child id).apply d = (.ok (), d')) :
    ∃ d'', (Splice.removeBetween parent child id).apply d' = (.ok (), d'') ∧
      d''.plan.roots = d.plan.roots ∧ (∀ i, i ≠ id → d''.plan.get? i = d.plan.get? i) ∧
      ∃ n, d''.plan.get? id = some n ∧ n.parents = ∅ ∧ n.children = ∅ ∧ n.inputs.ids = [] := by
  have hg : d.plan.Valid := (Plan.validate_eq_ok_iff hnum).mp hv
  have hins := Splice.insertBetween_inserts hg.edges parent child id d rfl
  rw [hok] at hins
  obtain ⟨ha, hh⟩ := hins
  have hpar : parent ≠ id := by
    cases child with
    | none => exact hself rfl
    | some c =>
      rintro rfl
      exact ha.1.not_edge_from c (ha.2.2 c rfl)
  have hout : ∀ i r, d.plan.output? i = some r → r.WellFormed := by
    intro i r hr
    obtain ⟨n, hn, rfl⟩ := Option.map_eq_some_iff.mp hr
    exact hwf i n hn
  have hcur : ∀ c n, child = some c → d.plan.get? c = some n →
      n.op.refresh (n.inputs.read d.plan.output?) = ⟨n.op, .ok ()⟩ := by
    intro c n hc hn
    rw [← Plan.operatorInputs_eq hn]
    exact Edit.refresh_of_idle hn (hidle c hc)
  have hin : d'.plan.InRange := hh.inRange (Plan.inRange_of_validate hv)
  have hadmits := hh.admits_remove ha hg hpar
  have hfits := hh.fits_remove ha hg hout hcur
  rcases Splice.removeBetween_settles hin parent child id with
    ⟨_, _, d'', hdone⟩ | ⟨hno, _⟩ | ⟨_, hno, _⟩
  · have hremoved := Splice.removeBetween_removes hin parent child id d' rfl
    rw [hdone] at hremoved
    exact ⟨d'', hdone, hh.restored ha hg hout hcur hpar hremoved⟩
  · exact absurd hadmits hno
  · exact absurd hfits hno

/-- A join of rows with themselves that also takes its index from them; a shuffle has no place yet. -/
def entwined : Draft :=
  Call.afterAll [.build (.create "in" [⟨"k", .integer, ∅⟩] (.singleton 1)),
    .build (.indexJoin 0 0 "joined" ["k"] ["k"] 0),
    .addNode .shuffle "mixed" [⟨"", "key", 0, .integer, ∅⟩] (.singleton 2)] ⟨∅, []⟩

/-- The join reads the shuffle in both its inputs and as its helper, and then the rows again. -/
theorem entwined_round_trip : entwined.plan.validate = .ok () ∧
    (Edit.refreshColumns 2).apply entwined = (.ok (), entwined) ∧
    ((entwined.plan.get? 2).map Node.sources = some [0, 0, 0]) ∧
    ((Splice.insertBetween 0 (some 2) 3).apply entwined).1 = .ok () ∧
    ((((Splice.insertBetween 0 (some 2) 3).apply entwined).2.plan.get? 2).map Node.sources =
      some [3, 3, 3]) ∧
    ∃ d'', (Splice.removeBetween 0 (some 2) 3).apply
        ((Splice.insertBetween 0 (some 2) 3).apply entwined).2 = (.ok (), d'') ∧
      d''.plan.get? 2 = entwined.plan.get? 2 := by
  have hv : entwined.plan.validate = .ok () := by decide +kernel
  have hidle : (Edit.refreshColumns 2).apply entwined = (.ok (), entwined) := by decide +kernel
  have hbefore : (entwined.plan.get? 2).map Node.sources = some [0, 0, 0] := by decide +kernel
  have hok : ((Splice.insertBetween 0 (some 2) 3).apply entwined).1 = .ok () := by decide +kernel
  have hamid : (((Splice.insertBetween 0 (some 2) 3).apply entwined).2.plan.get? 2).map Node.sources =
      some [3, 3, 3] := by decide +kernel
  have hreached : Reached (fun _ _ => True) entwined := Reached.start.afterAll (by simp [Call.AllAllowed])
  have hnodes := hreached.linked.nodes
  obtain ⟨d'', hdone, _, hothers, _⟩ := splice_round_trip entwined _ 0 (some 2) 3
    (fun i n hn => (hnodes i n hn).id) (fun i n hn => (hnodes i n hn).relation) hv
    (fun c hc => Option.some.inj hc ▸ hidle) (fun hnone => absurd hnone (Option.some_ne_none 2))
    (Prod.ext hok rfl)
  exact ⟨hv, hidle, hbefore, hok, hamid, d'', hdone, hothers 2 (by decide)⟩

end PartyPlan
