import PartyPlan.Proofs.Freshness
import PartyPlan.Proofs.Request

/-! Requests derive what a refresh would derive again. Each kind of operator has its own way to find the
columns it refers to and the parties that hold its output, and a refresh has one way for all of them;
on a plan that was made by requests the two come to the same, so that refreshing a node changes nothing. -/
namespace PartyPlan

open Plan (Linked)

/-- A node refers to the columns a look-up would find where each node produces the relation `f` has for
it, and its output is held by whoever holds its inputs. -/
structure Node.UpToDate (f : NodeId → Option Relation) (n : Node) : Prop where
  columns : n.op.refresh (n.inputs.read f) = ⟨n.op, .ok ()⟩
  holders : n.kind.placesOutput = false → n.inputs.ids ≠ [] →
    n.output.holders = Relation.holdersOf (n.inputs.ids.filterMap f)

namespace Node.UpToDate

variable {f f' : NodeId → Option Relation} {n : Node}

theorem withChild (c : NodeId) (h : n.UpToDate f) : (n.withChild c).UpToDate f :=
  ⟨h.columns, h.holders⟩

theorem congr (hf : ∀ p ∈ n.inputs.ids, f' p = f p) (h : n.UpToDate f) : n.UpToDate f' where
  columns := by
    rw [Inputs.read_congr hf]
    exact h.columns
  holders := fun hk hne => by
    rw [List.filterMap_congr hf]
    exact h.holders hk hne

/-- A node without inputs has nothing to look up and nobody to ask. -/
theorem detached (i : NodeId) (op : Operator) (r : Relation) : (Node.detached i op r).UpToDate f where
  columns := by
    show op.refresh ((Inputs.vacant op.arity).read f) = ⟨op, .ok ()⟩
    rw [Inputs.read_vacant]
    exact op.refresh_of_none
  holders := fun _ hne => absurd (Inputs.ids_vacant op.arity) hne

end Node.UpToDate

namespace Plan

variable {g h : Plan} {b : Builder} {v : Derived} {i id : NodeId} {n : Node}

/-- A refresh takes over the holders of all named inputs together, be there one, two or more. -/
theorem derivedHolders?_eq_some {s : PartySet} (hn : g.get? i = some n) (ha : n.inputs.arity = n.op.arity)
    (hs : g.derivedHolders? n i = some s) : n.kind.placesOutput = false ∧ n.inputs.ids ≠ [] ∧
      s = Relation.holdersOf (n.inputs.ids.filterMap g.output?) := by
  unfold derivedHolders? at hs
  split at hs
  · cases hs
  next hk =>
  refine ⟨by simpa using hk, ?_⟩
  cases hi : n.inputs with
  | unary input =>
    rw [hi] at ha
    rw [← ha] at hs
    simp only [Inputs.arity, inputRelation?, hn, Node.input?, hi, Option.bind_some] at hs
    cases input with
    | none => simp at hs
    | some p =>
      rw [Option.bind_some, Option.map_eq_some_iff] at hs
      obtain ⟨r, hr, rfl⟩ := hs
      simp [Inputs.ids, hr, Relation.holdersOf_singleton]
  | binary _ _ | nary _ =>
    rw [hi] at ha
    rw [← ha] at hs
    simp only [Inputs.arity, inputRelations, hn, hi] at hs
    split at hs
    · cases hs
    · next hne =>
      cases hs
      exact ⟨fun he => hne (by rw [he, List.filterMap_nil]), rfl⟩

def UpToDate (g : Plan) : Prop := ∀ i n, g.get? i = some n → n.UpToDate g.output?

theorem Receives.upToDate_node (hr : g.Receives b v id h) (hg : g.Linked)
    (hv : b.derive g.relationOf = .ok v) : (b.nodeAt v id).UpToDate h.output? := by
  obtain ⟨rels, hrels, hy⟩ := Builder.yields_of_deriveFrom (Builder.derive_eq_ok.mp hv).2
  have hprod := Edit.produce_of_relations hrels
  have hprod' := hr.produce hprod
  constructor
  case columns =>
    rw [hy.read_nodeAt hprod']
    exact hy.refresh_form fun r hm => hprod.wellFormed hg hm
  case holders =>
    intro hplaces _
    rw [hy.ids_nodeAt, hprod'.filterMap_eq]
    refine hy.holders ?_
    rw [← hy.kind, ← Builder.placesOutput_form b v.op]
    exact hplaces

theorem UpToDate.received (hup : g.UpToDate) (hg : g.Linked) (hv : b.derive g.relationOf = .ok v)
    (hr : g.Receives b v id h) : h.UpToDate := by
  refine hr.forall_nodes (J := fun f _ n => n.UpToDate f) hg ?_ ?_ hup ?_ (hr.upToDate_node hg hv)
  · exact fun _ _ _ c hn => hn.withChild c
  · exact fun _ _ _ _ hf hn => hn.congr hf
  · exact fun i _ _ => .detached i v.op v.output

end Plan

/-- In a plan that requests alone have made, every node is up to date. -/
theorem Reached.upToDate {d : Draft} (h : Reached (fun _ c => ∃ b, c = .build b) d) :
    d.plan.UpToDate := by
  refine (h.always (I := fun g => g.Linked ∧ g.UpToDate) ⟨.empty, ?_⟩ ?_).2
  · intro i n hn
    simp at hn
  · rintro d _ ⟨b, rfl⟩ ⟨hl, hd⟩
    exact ⟨(Call.linked _).after hl, Call.received_after hl hd fun v id g' hv hr => hd.received hl hv hr⟩

/-- Holders are asked for and set; nothing else happens. -/
theorem Edit.apply_refreshHolders {d : Draft} {id : NodeId} {n : Node} (hn : d.plan.get? id = some n) :
    (refreshHolders id).apply d = (.ok (), { d with
      plan := match d.plan.derivedHolders? n id with
        | some s => d.plan.update id (.heldBy s)
        | none => d.plan }) := by
  have hnode : (node id).apply d = (.ok n, d) := by
    rw [node, apply_ask, Plan.node_eq_ok.mpr hn]
  unfold refreshHolders
  rw [apply_bind, apply_plan]
  dsimp only
  rw [apply_bind, hnode]
  dsimp only
  cases d.plan.derivedHolders? n id with
  | none => rfl
  | some s =>
    show (do require id; change (·.update id (.heldBy s))).apply d = _
    rw [apply_bind, require, apply_bind, hnode]
    rfl

/-- A node that is up to date is left alone by a refresh. -/
theorem Edit.apply_refresh {d : Draft} {id : NodeId} {n : Node} (hn : d.plan.get? id = some n)
    (ha : n.inputs.arity = n.op.arity) (hup : n.UpToDate d.plan.output?) :
    (refresh id).apply d = (.ok (), d) := by
  have hcols : (refreshColumns id).apply d = (.ok (), d) := by
    have hcur := hup.columns
    rw [← Plan.operatorInputs_eq hn] at hcur
    rw [apply_refreshColumns hn hcur, Plan.update_op_self hn]
  have hholders : (refreshHolders id).apply d = (.ok (), d) := by
    rw [apply_refreshHolders hn]
    cases hs : d.plan.derivedHolders? n id with
    | none => rfl
    | some s =>
      obtain ⟨hk, hne, rfl⟩ := Plan.derivedHolders?_eq_some hn ha hs
      have hsame : n.heldBy (Relation.holdersOf (n.inputs.ids.filterMap d.plan.output?)) = n := by
        rw [Node.heldBy, ← hup.holders hk hne]
        rfl
      dsimp only
      rw [Plan.update_eq_self hn hsame]
  rw [refresh, apply_bind, hcols]
  exact hholders

/-- On a plan that requests for operators have made, granted and refused ones, refreshing a node succeeds
and changes nothing. So the columns each request looked up are the ones a look-up finds again, and an
output that its operator does not place is held by just the parties that hold one of the named inputs. -/
theorem refresh_changes_nothing (d : Draft) (h : Reached (fun _ c => ∃ b, c = .build b) d) (id : NodeId)
    (n : Node) (hn : d.plan.get? id = some n) :
    (Edit.refresh id).apply d = (.ok (), d) ∧
      (n.kind.placesOutput = false → n.inputs.ids ≠ [] → ∀ party, party ∈ n.output.holders ↔
        ∃ p ∈ n.inputs.ids, ∃ r, d.plan.output? p = some r ∧ party ∈ r.holders) := by
  have hup := h.upToDate id n hn
  refine ⟨Edit.apply_refresh hn (h.linked.nodes id n hn).arity hup, fun hk hne party => ?_⟩
  rw [hup.holders hk hne, Relation.mem_holdersOf]
  simp only [List.mem_filterMap]
  constructor
  · rintro ⟨r, ⟨p, hp, hr⟩, hparty⟩
    exact ⟨p, hp, r, hr, hparty⟩
  · rintro ⟨p, hp, r, hr, hparty⟩
    exact ⟨r, ⟨p, hp, hr⟩, hparty⟩

/-- Requests of many kinds: a join of a node with itself, special forms with their helpers, rows on top of
each other, an output that is placed, and a request that is refused. -/
def assorted : List Call :=
  [.build (.create "l" [⟨"k", .integer, .singleton 3⟩, ⟨"v", .float, ∅⟩] (.singleton 1)),
    .build (.create "r" [⟨"k", .integer, ∅⟩, ⟨"w", .float, ∅⟩] (.singleton 2)),
    .build (.join 0 0 "self" ["k"] ["k"]), .build (.concat [0, 1] "rows" none),
    .build (.concat [1, 1] "twice" none), .build (.index 3 "numbered" "row"),
    .build (.indexJoin 0 1 "aligned" ["k"] ["k"] 4),
    .build (.indexAggregate 3 "sums" ["k"] "v" .sum "total" 4 1),
    .build (.closing 6 "shared" (.ofList [1, 2, 3])), .build (.multiply 9 "scaled" "v" [.column "v", .int 2])]

theorem assorted_refresh_changes_nothing :
    let d := Call.afterAll assorted ⟨∅, []⟩
    (d.plan.size = 11 ∧ (d.plan.get? 6).map Node.kind = some .indexJoin ∧
      (d.plan.get? 6).map (·.inputs) = some (.binary (some 0) (some 1))) ∧
      (∀ id < d.plan.size, (Edit.refresh id).apply d = (.ok (), d)) ∧
      ∀ n, d.plan.get? 6 = some n → ∀ party, party ∈ n.output.holders ↔
        ∃ p ∈ n.inputs.ids, ∃ r, d.plan.output? p = some r ∧ party ∈ r.holders := by
  intro d
  have hd : Reached (fun _ c => ∃ b, c = .build b) d :=
    Reached.start.afterAll (by simp [assorted, Call.AllAllowed])
  have hkind : (d.plan.get? 6).map Node.kind = some .indexJoin := by decide +kernel
  have hinputs : (d.plan.get? 6).map (·.inputs) = some (.binary (some 0) (some 1)) := by decide +kernel
  refine ⟨⟨by decide +kernel, hkind, hinputs⟩, fun id hid => ?_, fun n hn => ?_⟩
  · obtain ⟨n, hn⟩ := Plan.lt_size_iff.mp hid
    exact (refresh_changes_nothing d hd id n hn).1
  · rw [hn, Option.map_some, Option.some.injEq] at hkind hinputs
    refine (refresh_changes_nothing d hd 6 n hn).2 ?_ ?_
    · rw [hkind]
      rfl
    · rw [hinputs]
      exact List.cons_ne_nil 0 [1]

end PartyPlan
