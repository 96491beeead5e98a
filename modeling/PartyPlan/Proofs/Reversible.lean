import Mathlib.Data.List.Perm.Subperm
import PartyPlan.Plan.Query
import PartyPlan.Proofs.Sortable

/-! Which projections count as reversible. The answer goes by numbers alone: a projection is reversible if
it selects as many columns as there are. Whether it drops a column is another question, and the two have
the same answer unless a name was asked for twice. -/
namespace PartyPlan

namespace Relation

variable {r : Relation} {name : String} {names : List String} {c : Column} {cs : List Column}

theorem find_eq_ok : r.find name = .ok c ↔ r.find? name = some c := by
  unfold find
  cases r.find? name <;> simp

theorem name_of_find (h : r.find name = .ok c) : c.name = name := by
  simpa using List.find?_some (find_eq_ok.mp h)

theorem mem_of_find (h : r.find name = .ok c) : c ∈ r.columns :=
  List.mem_of_find?_eq_some (find_eq_ok.mp h)

/-- The columns that were found have the names that were asked for. -/
theorem names_of_findAll (h : r.findAll names = .ok cs) : cs.map (·.name) = names := by
  have hall : List.Forall₂ (fun name c => r.find name = .ok c) names cs := mapM_eq_ok.mp h
  induction hall with
  | nil => rfl
  | cons hc _ ih => rw [List.map_cons, name_of_find hc, ih (mapM_eq_ok.mpr ‹_›)]

/-- What is found under a name is always the same column. So a column is found twice just if its name was
asked for twice. -/
theorem nodup_of_findAll (h : r.findAll names = .ok cs) : cs.Nodup ↔ names.Nodup := by
  rw [← names_of_findAll h]
  refine ⟨fun hcs => hcs.map_on fun c hc b hb he => ?_, List.Nodup.of_map _⟩
  obtain ⟨_, _, hfound⟩ := mem_of_mapM_eq_ok h c hc
  obtain ⟨_, _, hfound'⟩ := mem_of_mapM_eq_ok h b hb
  rw [← name_of_find hfound, he, name_of_find hfound', hfound'] at hfound
  exact (Except.ok.inj hfound).symm

theorem mem_of_findAll (h : r.findAll names = .ok cs) : ∀ c ∈ cs, c ∈ r.columns := by
  intro c hc
  obtain ⟨_, _, hfound⟩ := mem_of_mapM_eq_ok h c hc
  exact mem_of_find hfound

/-- No two columns say that they stand in the same place. -/
theorem WellFormed.nodup (h : r.WellFormed) : r.columns.Nodup := by
  have hplaces : r.columns.map (·.index) = List.range r.columns.length := by
    refine List.ext_getElem (by simp) fun i hi _ => ?_
    rw [List.length_map] at hi
    rw [List.getElem_map, List.getElem_range]
    exact (h i _ (List.getElem?_eq_getElem hi)).1
  exact .of_map (·.index) (hplaces ▸ List.nodup_range)

/-- Of columns that all stand in a relation there are as many as it has, if none is missing and none is
taken twice. If only one of the two fails, the number is another. -/
theorem WellFormed.width_iff_covered (h : r.WellFormed) (hcs : ∀ c ∈ cs, c ∈ r.columns) :
    ((cs.length = r.width ↔ ∀ c ∈ r.columns, c ∈ cs) ↔
      cs.Nodup ∨ cs.length ≠ r.width ∧ ∃ c ∈ r.columns, c ∉ cs) := by
  have hcovered : (∀ c ∈ r.columns, c ∈ cs) → r.columns.Subperm cs := fun hall => h.nodup.subperm hall
  constructor
  · intro hiff
    by_cases hall : ∀ c ∈ r.columns, c ∈ cs
    · have hperm : r.columns.Perm cs :=
        (hcovered hall).perm_of_length_le (Nat.le_of_eq (hiff.mpr hall))
      exact .inl (hperm.nodup h.nodup)
    · refine .inr ⟨fun hlen => hall (hiff.mp hlen), ?_⟩
      push Not at hall
      exact hall
  · rintro (hnodup | ⟨hlen, c, hc, hmissing⟩)
    · have hsub : cs.Subperm r.columns := hnodup.subperm hcs
      constructor
      · intro hlen c hc
        exact (hsub.perm_of_length_le (Nat.le_of_eq hlen.symm)).mem_iff.mpr hc
      · intro hall
        exact Nat.le_antisymm hsub.length_le (hcovered hall).length_le
    · exact ⟨fun he => absurd he hlen, fun hall => absurd (hall c hc) hmissing⟩

end Relation

/-- A projection reads one relation, and selects the columns that are found there under their names. -/
def Node.Selects (f : NodeId → Option Relation) (n : Node) : Prop :=
  ∀ cols, n.op = .project cols → ∃ p r, n.inputs = .unary (some p) ∧ f p = some r ∧
    r.findAll (cols.map (·.name)) = .ok cols

/-- Of the relation that is read, only what is found in it matters. -/
theorem Node.Selects.congr {f f' : NodeId → Option Relation} {n : Node}
    (hf : ∀ p ∈ n.inputs.ids, (f' p).map Relation.findAll = (f p).map Relation.findAll)
    (h : n.Selects f) : n.Selects f' := by
  intro cols hop
  obtain ⟨p, r, hin, hr, hcols⟩ := h cols hop
  have hp := hf p (by simp [hin, Inputs.ids])
  rw [hr, Option.map_some] at hp
  obtain ⟨r', hr', hfind⟩ := Option.map_eq_some_iff.mp hp
  exact ⟨p, r', hin, hr', hfind ▸ hcols⟩

namespace Builder

variable {b : Builder} {v : Derived} {out : NodeId → Except Error Relation} {cols : List Column}

/-- Only a request for a projection comes to one. -/
theorem project_of_form {rels : List Relation} (hy : b.Yields rels v) (h : b.form v.op = .project cols) :
    ∃ input name names, b = .project input name names ∧ v.op = .project cols := by
  have hop : v.op = .project cols := by
    unfold form at h
    split at h
    · cases h
    · cases h
    · exact h
  have hkind : b.kind = .project := by
    rw [← hy.kind, hop]
    rfl
  cases b with
  | project input name names => exact ⟨input, name, names, rfl, hop⟩
  | _ => cases hkind

theorem selects_of_deriveFrom {input : NodeId} {name : String} {names : List String}
    (h : (Builder.project input name names).deriveFrom out = .ok v) (hop : v.op = .project cols) :
    ∃ r, out input = .ok r ∧ r.findAll (cols.map (·.name)) = .ok cols := by
  obtain ⟨r, hr, h⟩ := except_bind_eq_ok.mp h
  obtain ⟨cs, hcs, rfl⟩ := Derive.project_result h
  cases hop
  exact ⟨r, hr, (Relation.names_of_findAll hcs).symm ▸ hcs⟩

end Builder

namespace Plan

variable {g h : Plan} {b : Builder} {v : Derived} {id : NodeId}

def Selects (g : Plan) : Prop := ∀ i n, g.get? i = some n → n.Selects g.output?

theorem Receives.selects_node (hr : g.Receives b v id h) (hv : b.derive g.relationOf = .ok v) :
    (b.nodeAt v id).Selects h.output? := by
  have hfrom := (Builder.derive_eq_ok.mp hv).2
  obtain ⟨rels, hrels, hy⟩ := Builder.yields_of_deriveFrom hfrom
  intro cols hform
  obtain ⟨input, name, names, rfl, hop⟩ := Builder.project_of_form hy hform
  obtain ⟨r, hinput, hcols⟩ := Builder.selects_of_deriveFrom hfrom hop
  have hout : g.output? input = some r := relationOf_eq_ok.mp hinput
  have hlt : input < g.size := (Edit.produce_of_relations hrels).lt_size (by simp [Builder.reads])
  refine ⟨input, r, ?_, (hr.output? hlt).trans hout, hcols⟩
  rw [Builder.inputs_nodeAt, hop]
  rfl

theorem Selects.received (hg : g.Selects) (hl : g.Linked) (hv : b.derive g.relationOf = .ok v)
    (hr : g.Receives b v id h) : h.Selects := by
  refine hr.forall_nodes (J := fun f _ n => n.Selects f) hl ?_ ?_ hg ?_ (hr.selects_node hv)
  · exact fun _ _ _ _ hn => hn
  · exact fun _ _ _ _ hf hn => hn.congr fun p hp => congrArg _ (hf p hp)
  · -- only a special form leaves a node behind, and a projection is none
    intro i hge hlt cols hop
    obtain ⟨rels, _, hy⟩ := Builder.yields_of_deriveFrom (Builder.derive_eq_ok.mp hv).2
    have hleft : v.op = .project cols := hop
    have hkind : b.kind = .project := by
      rw [← hy.kind, hleft]
      rfl
    cases b with
    | project =>
      rw [hr.eq_size rfl] at hlt
      exact absurd hlt (Nat.not_lt.mpr hge)
    | _ => cases hkind

theorem Selects.heldBy (hg : g.Selects) (id : NodeId) (s : PartySet) :
    (g.update id (.heldBy s)).Selects := by
  have hfound : ∀ (r : Relation) (s : PartySet), (r.heldBy s).findAll = r.findAll := fun _ _ => rfl
  refine forall_nodes_heldBy (J := fun f _ n => n.Selects f) hfound ?_ ?_ hg id s
  · exact fun _ _ _ _ hf hn => hn.congr hf
  · exact fun _ _ _ _ hn => hn

end Plan

theorem Reached.selects {d : Draft} (h : Reached (fun _ => Call.Composes) d) : d.plan.Selects := by
  refine (h.always (I := fun g => g.Linked ∧ g.Selects) ⟨.empty, ?_⟩ ?_).2
  · intro i n hn
    simp at hn
  · rintro d c hc ⟨hl, hg⟩
    refine ⟨(Call.linked c).after hl, Call.composed_after hc hl hg ?_ hg.heldBy⟩
    exact fun b v id h _ hv hr => hg.received hl hv hr

/-- In a plan made by requests and deliveries, a projection has the relation it selects from, has found
each of its columns there under the column's name, and is said to be reversible just if it selects as many
columns as there are. This tells whether every column is kept exactly if no name was asked for twice, or if
the number is another anyway and some column is dropped. -/
theorem projection_reversible_iff (d : Draft) (h : Reached (fun _ => Call.Composes) d) (id : NodeId)
    (n : Node) (cols : List Column) (hn : d.plan.get? id = some n) (hop : n.op = .project cols) :
    ∃ r, d.plan.inputRelation? id = some r ∧ r.findAll (cols.map (·.name)) = .ok cols ∧
      d.plan.isReversible id = .ok (decide (cols.length = r.width)) ∧
      ((d.plan.isReversible id = .ok true ↔ ∀ c ∈ r.columns, c ∈ cols) ↔
        (cols.map (·.name)).Nodup ∨ cols.length ≠ r.width ∧ ∃ c ∈ r.columns, c ∉ cols) := by
  obtain ⟨p, r, hin, hr, hcols⟩ := h.selects id n hn cols hop
  have hread : d.plan.inputRelation? id = some r := by
    simp [Plan.inputRelation?, hn, Node.input?, hin, hr]
  have hwell : r.WellFormed := by
    obtain ⟨m, hm, rfl⟩ := Option.map_eq_some_iff.mp hr
    exact (h.linked.nodes p m hm).relation
  have hrev : d.plan.isReversible id = .ok (decide (cols.length = r.width)) := by
    simp [Plan.isReversible, Plan.fetch, hn, hop, Operator.isReversible, hread, bind, Except.bind,
      pure, Except.pure]
    rfl
  refine ⟨r, hread, hcols, hrev, ?_⟩
  rw [hrev, ← Relation.nodup_of_findAll hcols]
  simp only [Except.ok.injEq, decide_eq_true_eq]
  exact hwell.width_iff_covered (Relation.mem_of_findAll hcols)

def fromA : Column := ⟨"in", "a", 0, .integer, ∅⟩

def fromB : Column := ⟨"in", "b", 1, .integer, ∅⟩

/-- Selections from two columns: both in the other order, one of them twice, both and one of them again,
and one of them three times. The input is delivered to a party in the end. -/
def selections : List Call :=
  [.build (.create "in" [⟨"a", .integer, ∅⟩, ⟨"b", .integer, ∅⟩] (.singleton 1)),
    .build (.project 0 "swapped" ["b", "a"]), .build (.project 0 "twice" ["a", "a"]),
    .build (.project 0 "again" ["a", "b", "a"]), .build (.project 0 "thrice" ["a", "a", "a"]), .collect 0 2]

theorem selections_reversible_iff :
    let d := Call.afterAll selections ⟨∅, []⟩
    ((d.plan.get? 1).map (·.op) = some (.project [fromB, fromA]) ∧
      (d.plan.isReversible 1 = .ok true ↔ ∀ c ∈ [fromA, fromB], c ∈ [fromB, fromA])) ∧
    ((d.plan.get? 4).map (·.op) = some (.project [fromA, fromA, fromA]) ∧
      (d.plan.isReversible 4 = .ok true ↔ ∀ c ∈ [fromA, fromB], c ∈ [fromA, fromA, fromA])) := by
  intro d
  have hd : Reached (fun _ => Call.Composes) d :=
    Reached.start.afterAll (by simp [selections, Call.AllAllowed, Call.Composes])
  have hswapped : (d.plan.get? 1).map (·.op) = some (.project [fromB, fromA]) := by decide +kernel
  have hthrice : (d.plan.get? 4).map (·.op) = some (.project [fromA, fromA, fromA]) := by decide +kernel
  refine ⟨⟨hswapped, ?_⟩, hthrice, ?_⟩
  · obtain ⟨n, hn, hop⟩ := Option.map_eq_some_iff.mp hswapped
    obtain ⟨r, hr, _, _, hiff⟩ := projection_reversible_iff d hd 1 n _ hn hop
    have hread : (d.plan.inputRelation? 1).map (·.columns) = some [fromA, fromB] := by decide +kernel
    rw [hr, Option.map_some, Option.some.injEq] at hread
    rw [← hread]
    exact hiff.mpr (.inl (by decide))
  · obtain ⟨n, hn, hop⟩ := Option.map_eq_some_iff.mp hthrice
    obtain ⟨r, hr, _, _, hiff⟩ := projection_reversible_iff d hd 4 n _ hn hop
    have hread : (d.plan.inputRelation? 4).map (·.columns) = some [fromA, fromB] := by decide +kernel
    rw [hr, Option.map_some, Option.some.injEq] at hread
    rw [← hread]
    refine hiff.mpr (.inr ?_)
    rw [Relation.width, hread]
    exact ⟨by decide, fromB, by decide, by decide⟩

/-- The first column of two, taken twice, is said to give back both; both of them with one taken again are
said not to. -/
theorem selections_reversible_misleads :
    let d := Call.afterAll selections ⟨∅, []⟩
    Reached (fun _ => Call.Composes) d ∧
    (d.plan.inputRelation? 2).map (·.columns) = some [fromA, fromB] ∧
    ((d.plan.get? 2).map (·.op) = some (.project [fromA, fromA]) ∧ d.plan.isReversible 2 = .ok true ∧
      fromB ∉ [fromA, fromA]) ∧
    (d.plan.inputRelation? 3).map (·.columns) = some [fromA, fromB] ∧
    ((d.plan.get? 3).map (·.op) = some (.project [fromA, fromB, fromA]) ∧
      d.plan.isReversible 3 = .ok false ∧ ∀ c ∈ [fromA, fromB], c ∈ [fromA, fromB, fromA]) :=
  ⟨Reached.start.afterAll (by simp [selections, Call.AllAllowed, Call.Composes]), by decide +kernel⟩

end PartyPlan
