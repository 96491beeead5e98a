import PartyPlan.Proofs.Growth
import PartyPlan.Proofs.Sortable
import PartyPlan.Workflow.Assemble

/-! What the names of a workflow are bound to. Every step but a delivery makes one request, for which the
names it mentions are looked up among those bound so far, and the node that is added gets a name no other
node has. So names and nodes go together one to one, in the order of the steps, and what is carried out is
a run of requests: all that is known of plans put together by requests holds of the plan of a workflow. -/
namespace PartyPlan

namespace Step

def name? : Step → Option String
  | create name .. | project name .. | distinct name .. | aggregate name .. | sortBy name ..
  | filter name .. | multiply name .. | divide name .. | join name .. | concat name ..
  | index name .. | shuffle name .. => some name
  | collect .. => none

def inputs : Step → List String
  | create .. => []
  | join _ left right .. => [left, right]
  | concat _ inputs _ => inputs
  | project _ input .. | distinct _ input .. | aggregate _ input .. | sortBy _ input ..
  | filter _ input .. | multiply _ input .. | divide _ input .. | index _ input ..
  | shuffle _ input | collect input _ => [input]

def kind? : Step → Option Kind
  | create .. => some .create
  | project .. => some .project
  | distinct .. => some .distinct
  | aggregate .. => some .aggregate
  | sortBy .. => some .sortBy
  | filter .. => some .filter
  | multiply .. => some .multiply
  | divide .. => some .divide
  | join .. => some .join
  | concat .. => some .concat
  | index .. => some .index
  | shuffle .. => some .shuffle
  | collect .. => none

/-- The request a step stands for where names are bound to nodes. There is none if an input is not bound,
or if a type, an aggregator or a comparison is not one. -/
def request (config : Config) (bound : String → Option NodeId) : Step → Option Builder
  | create name holders columns => do
    return .create name (← (columns.mapM Assembly.columnSpec).toOption) (.ofList holders)
  | project name input columns => do return .project (← bound input) name columns
  | distinct name input columns => do return .distinct (← bound input) name columns
  | aggregate name input groupBy folded aggregator result => do
    let aggregator ← (Aggregator.parse aggregator).toOption
    return .aggregate (← bound input) name groupBy folded aggregator result
  | sortBy name input column => do return .sortBy (← bound input) name column
  | filter name input column comparison expression => do
    let comparison ← (Comparison.parse comparison).toOption
    return .filter (← bound input) name column comparison expression
  | multiply name input target operands => do
    return .multiply (← bound input) name target (operands.map Assembly.operandSpec)
  | divide name input target operands => do
    return .divide (← bound input) name target (operands.map Assembly.operandSpec)
  | join name left right leftKeys rightKeys => do
    return .join (← bound left) (← bound right) name leftKeys rightKeys
  | concat name inputs columns => do return .concat (← inputs.mapM bound) name columns
  | index name input column => do
    return .index (← bound input) name (column.getD config.defaultIndexColumn)
  | shuffle name input => do return .shuffle (← bound input) name
  | collect .. => none

end Step

theorem mapM_eq_some {α β : Type} {f : α → Option β} {as : List α} {bs : List β} :
    as.mapM f = some bs ↔ as.map f = bs.map some := by
  induction as generalizing bs with
  | nil => cases bs <;> simp
  | cons a as ih => cases bs <;> simp [ih, Option.bind_eq_some_iff]

structure Step.Requests (bound : String → Option NodeId) (s : Step) (b : Builder) : Prop where
  name : s.name? = some b.name
  kind : s.kind? = some b.kind
  reads : s.inputs.map bound = b.reads.map some
  helpers : b.helpers = []

theorem Step.requests {config : Config} {bound : String → Option NodeId} {s : Step} {b : Builder}
    (h : s.request config bound = some b) : s.Requests bound b := by
  cases s <;>
    simp only [request, bind, pure, Option.bind_eq_some_iff, Option.some.injEq, reduceCtorEq] at h
  case join =>
    obtain ⟨l, hl, r, hr, rfl⟩ := h
    exact ⟨rfl, rfl, by simp [inputs, Builder.reads, hl, hr], rfl⟩
  case concat =>
    obtain ⟨ids, hids, rfl⟩ := h
    exact ⟨rfl, rfl, mapM_eq_some.mp hids, rfl⟩
  case aggregate =>
    obtain ⟨g, hg, i, hi, rfl⟩ := h
    exact ⟨rfl, rfl, by simp [inputs, Builder.reads, hi], rfl⟩
  case filter =>
    obtain ⟨g, hg, i, hi, rfl⟩ := h
    exact ⟨rfl, rfl, by simp [inputs, Builder.reads, hi], rfl⟩
  all_goals
    obtain ⟨i, hi, rfl⟩ := h
    exact ⟨rfl, rfl, by simp [inputs, Builder.reads, hi], rfl⟩

namespace Scope

variable {s : Scope} {name : String} {id : NodeId}

theorem insert_perm (s : Scope) (name : String) (id : NodeId) :
    (s.insert name id).Perm ((name, id) :: s) := by
  induction s with
  | nil => exact .refl _
  | cons entry rest ih =>
    rw [insert]
    split
    · exact .refl _
    · exact (ih.cons entry).trans (.swap _ _ _)

theorem find?_eq_some (hs : (s.map (·.1)).Nodup) : s.find? name = some id ↔ (name, id) ∈ s := by
  induction s with
  | nil => simp [find?]
  | cons entry rest ih =>
    obtain ⟨hfresh, hrest⟩ := List.nodup_cons.mp hs
    have hih := ih hrest
    unfold find? at hih ⊢
    by_cases hn : entry.1 = name
    · have hnot : ¬ (name, id) ∈ rest := fun hmem => hfresh (List.mem_map.mpr ⟨_, hmem, hn.symm⟩)
      rw [List.find?_cons_of_pos (by simpa using hn)]
      simp [hnot, Prod.ext_iff, hn, eq_comm]
    · rw [List.find?_cons_of_neg (by simpa using hn), hih]
      simp [Prod.ext_iff, Ne.symm hn]

/-- Names that are bound one after the other are bound to their places. -/
theorem find?_numbered {names : List String} (hp : s.Perm names.zipIdx) (hd : names.Nodup) :
    s.find? name = some id ↔ names[id]? = some name := by
  have hkeys : (s.map (·.1)).Nodup := by
    rw [(hp.map _).nodup_iff, List.zipIdx_map_fst]
    exact hd
  rw [find?_eq_some hkeys, hp.mem_iff, List.mk_mem_zipIdx_iff_getElem?]

end Scope

namespace Assembly

variable {config : Config} {a a' : Assembly} {s : Step} {α : Type}

theorem lookup_eq_ok {step input : String} {id : NodeId} :
    a.lookup step input = .ok id ↔ a.scope.find? input = some id := by
  unfold lookup
  split
  · next h => simp [h]
  · next h => simp [h]

theorem ofPlan_eq_ok {x : Except Error α} {r : α} : ofPlan x = .ok r ↔ x.toOption = some r := by
  cases x <;> simp [ofPlan, Except.toOption]

/-- An edit that is carried out ends in what it is known to end in. -/
theorem edit_meets {x : Edit α} {r : α} {g : Plan} {P : Plan → Prop} {Q : α → Plan → Prop}
    {R : Error → Plan → Prop} (hx : Edit.Meets P x Q R) (hp : P a.plan) (he : a.edit x = .ok (r, g)) :
    Q r g := by
  have hd := hx { plan := a.plan } hp
  unfold edit at he
  split at he <;> rename_i happly <;> cases he
  rw [happly] at hd
  exact hd

theorem add_eq_ok {name : String} {x : Edit NodeId} (h : a.add name x = .ok a') :
    ∃ id, a.edit x = .ok (id, a'.plan) ∧ a.scope.find? name = none ∧
      a'.scope = a.scope.insert name id := by
  obtain ⟨⟨id, g⟩, hedit, hrest⟩ := except_bind_eq_ok.mp h
  dsimp only at hrest
  split at hrest
  · cases hrest
  · next hnone =>
    cases hrest
    exact ⟨id, hedit, hnone, rfl⟩

/-- A step that is carried out delivers an output, or makes its request and binds a new name. -/
theorem step_cases (h : a.step config s = .ok a') :
    (∃ input party id, s = .collect input party ∧ a.edit (Build.collect id party) = .ok ((), a'.plan) ∧
      a'.scope = a.scope) ∨
    ∃ b id, s.request config a.scope.find? = some b ∧ a.edit b.run = .ok (id, a'.plan) ∧
      a.scope.find? b.name = none ∧ a'.scope = a.scope.insert b.name id := by
  -- all but a delivery look up what they need and add a node
  have added : ∀ {b : Builder}, s.request config a.scope.find? = some b →
      a.add b.name b.run = .ok a' →
      ∃ b id, s.request config a.scope.find? = some b ∧ a.edit b.run = .ok (id, a'.plan) ∧
        a.scope.find? b.name = none ∧ a'.scope = a.scope.insert b.name id := by
    intro b hb hadd
    obtain ⟨id, hid⟩ := add_eq_ok hadd
    exact ⟨b, id, hb, hid⟩
  cases s with
  | collect input party =>
    obtain ⟨id, _, hrest⟩ := except_bind_eq_ok.mp h
    obtain ⟨⟨⟨⟩, g⟩, hedit, hdone⟩ := except_bind_eq_ok.mp hrest
    cases hdone
    exact .inl ⟨input, party, id, rfl, hedit, rfl⟩
  | create name holders columns =>
    obtain ⟨cs, hcs, hadd⟩ := except_bind_eq_ok.mp h
    exact .inr (added (b := .create name cs (.ofList holders))
      (by rw [Step.request, hcs]; rfl) hadd)
  | join name left right leftKeys rightKeys =>
    obtain ⟨l, hl, hrest⟩ := except_bind_eq_ok.mp h
    obtain ⟨r, hr, hadd⟩ := except_bind_eq_ok.mp hrest
    exact .inr (added (b := .join l r name leftKeys rightKeys)
      (by rw [Step.request, lookup_eq_ok.mp hl, lookup_eq_ok.mp hr]; rfl) hadd)
  | concat name inputs columns =>
    obtain ⟨ids, hids, hadd⟩ := except_bind_eq_ok.mp h
    have hbound : inputs.mapM a.scope.find? = some ids := by
      rw [mapM_eq_some, map_eq_map_iff]
      exact (mapM_eq_ok.mp hids).imp fun _ _ => lookup_eq_ok.mp
    exact .inr (added (b := .concat ids name columns) (by rw [Step.request, hbound]; rfl) hadd)
  | aggregate name input groupBy folded aggregator result =>
    obtain ⟨id, hid, hrest⟩ := except_bind_eq_ok.mp h
    obtain ⟨f, hf, hadd⟩ := except_bind_eq_ok.mp hrest
    exact .inr (added (b := .aggregate id name groupBy folded f result)
      (by rw [Step.request, lookup_eq_ok.mp hid, ofPlan_eq_ok.mp hf]; rfl) hadd)
  | filter name input column comparison expression =>
    obtain ⟨id, hid, hrest⟩ := except_bind_eq_ok.mp h
    obtain ⟨c, hc, hadd⟩ := except_bind_eq_ok.mp hrest
    exact .inr (added (b := .filter id name column c expression)
      (by rw [Step.request, lookup_eq_ok.mp hid, ofPlan_eq_ok.mp hc]; rfl) hadd)
  | _ =>
    obtain ⟨id, hid, hadd⟩ := except_bind_eq_ok.mp h
    right
    apply added
    · rw [Step.request, lookup_eq_ok.mp hid]
      rfl
    · exact hadd

structure Adds (config : Config) (a : Assembly) (s : Step) (b : Builder) (v : Derived) (a' : Assembly) :
    Prop where
  request : s.request config a.scope.find? = some b
  fresh : a.scope.find? b.name = none
  derived : b.deriveFrom a.plan.relationOf = .ok v
  received : a.plan.Receives b v a.plan.size a'.plan
  scope : a'.scope = a.scope.insert b.name a.plan.size

theorem step_adds (hl : a.plan.Linked) (h : a.step config s = .ok a') :
    (∃ id parties, s.name? = none ∧ a'.plan = a.plan.update id (.heldBy parties) ∧
      a'.scope = a.scope) ∨
    ∃ b v, a.Adds config s b v a' := by
  rcases step_cases h with ⟨input, party, id, rfl, hedit, hscope⟩ | ⟨b, id, hb, hedit, hfresh, hscope⟩
  · exact .inl ⟨id, .singleton party, rfl, (edit_meets (Build.collect_meets id party) rfl hedit).2, hscope⟩
  · obtain ⟨v, hv, hr⟩ := edit_meets (b.run_receives hl) rfl hedit
    have hid : id = a.plan.size := hr.eq_size (Step.requests hb).helpers
    exact .inr ⟨b, v, hb, hfresh, (Builder.derive_eq_ok.mp hv).2, hid ▸ hr, hid ▸ hscope⟩

/-- What requests and deliveries keep is kept by every step. -/
theorem step_keeps {I R : Plan → Prop} (hbuild : ∀ b : Builder, Edit.Keeps I R b.run)
    (hcollect : ∀ id s, Edit.Keeps I R (Edit.setHolders id s)) (ha : I a.plan)
    (h : a.step config s = .ok a') : I a'.plan := by
  rcases step_cases h with ⟨input, party, id, rfl, hedit, _⟩ | ⟨b, id, _, hedit, _⟩
  · exact edit_meets (hcollect id (.singleton party)) ha hedit
  · exact edit_meets (hbuild b) ha hedit

end Assembly

namespace Step

variable {β : Type} {view : Relation → β} {config : Config} {bound bound' : String → Option NodeId}
  {out out' : NodeId → Option Relation} {s : Step} {i : NodeId} {n n' : Node} {b : Builder}

def bindings (steps : List Step) : List (String × Step) :=
  steps.filterMap fun s => s.name?.map (·, s)

def names (steps : List Step) : List String := (bindings steps).map (·.1)

theorem bindings_append_unnamed (steps : List Step) (h : s.name? = none) :
    bindings (steps ++ [s]) = bindings steps := by
  simp [bindings, h]

theorem bindings_append (steps : List Step) {name : String} (h : s.name? = some name) :
    bindings (steps ++ [s]) = bindings steps ++ [(name, s)] := by
  simp [bindings, h]

theorem name?_of_binding {steps : List Step} {name : String} {k : Nat}
    (h : (bindings steps)[k]? = some (name, s)) : s.name? = some name := by
  obtain ⟨t, _, ht⟩ := List.mem_filterMap.mp (List.mem_of_getElem? h)
  obtain ⟨x, hx, hpair⟩ := Option.map_eq_some_iff.mp ht
  cases hpair
  exact hx

/-- Only what the inputs of a step are bound to matters. -/
theorem request_mono (h : s.request config bound = some b)
    (hbound : ∀ x p, bound x = some p → bound' x = some p) : s.request config bound' = some b := by
  have hmem : ∀ x ∈ s.inputs, bound' x = bound x := by
    intro x hx
    have hmap : bound x ∈ s.inputs.map bound := List.mem_map_of_mem hx
    rw [(requests h).reads] at hmap
    obtain ⟨p, _, hp⟩ := List.mem_map.mp hmap
    rw [← hp, hbound x p hp.symm]
  rw [← h]
  cases s with
  | concat name inputs columns =>
    have hsame : inputs.mapM bound' = inputs.mapM bound := by
      have hmap : inputs.map bound' = inputs.map bound := List.map_congr_left hmem
      refine Option.ext fun ids => ?_
      rw [mapM_eq_some, mapM_eq_some, hmap]
    rw [request, request, hsame]
  | collect => rfl
  | create => rfl
  | join name left right =>
    rw [request, request, hmem left (by simp [inputs]), hmem right (by simp [inputs])]
  | _ => rw [request, request, hmem _ (by simp [inputs])]

/-- A node does what a step asks for, with the inputs the step mentions, all of them before it. Relations
are known up to a view of them, since deliveries may have changed who holds them. -/
def Makes (view : Relation → β) (config : Config) (bound : String → Option NodeId)
    (out : NodeId → Option Relation) (s : Step) (i : NodeId) (n : Node) : Prop :=
  ∃ b rel v, s.request config bound = some b ∧ b.deriveFrom rel = .ok v ∧
    (∀ p ∈ b.reads, p < i ∧ ∃ r r', rel p = .ok r ∧ out p = some r' ∧ view r' = view r) ∧
    n.inputs.ids = b.reads ∧ n.op = v.op ∧ view n.output = view v.output ∧
    n.isLocal = v.op.kind.isLocal ∧ n.isMpc = v.op.kind.isMpc

namespace Makes

theorem withChild (c : NodeId) (h : s.Makes view config bound out i n) :
    s.Makes view config bound out i (n.withChild c) := h

theorem heldBy (hview : ∀ r s, view (r.heldBy s) = view r) (parties : PartySet)
    (h : s.Makes view config bound out i n) : s.Makes view config bound out i (n.heldBy parties) := by
  obtain ⟨b, rel, v, hb, hv, hreads, hids, hop, hout, hflags⟩ := h
  exact ⟨b, rel, v, hb, hv, hreads, hids, hop, (hview _ _).trans hout, hflags⟩

theorem congr (hout : ∀ p ∈ n.inputs.ids, (out' p).map view = (out p).map view)
    (h : s.Makes view config bound out i n) : s.Makes view config bound out' i n := by
  obtain ⟨b, rel, v, hb, hv, hreads, hids, hrest⟩ := h
  refine ⟨b, rel, v, hb, hv, fun p hp => ?_, hids, hrest⟩
  obtain ⟨hlt, r, r', hr, hr', hsame⟩ := hreads p hp
  have hview := hout p (hids ▸ hp)
  rw [hr', Option.map_some, Option.map_eq_some_iff] at hview
  obtain ⟨r'', hr'', hsame'⟩ := hview
  exact ⟨hlt, r, r'', hr, hr'', hsame'.trans hsame⟩

theorem mono (hbound : ∀ x p, bound x = some p → bound' x = some p)
    (h : s.Makes view config bound out i n) : s.Makes view config bound' out i n := by
  obtain ⟨b, rel, v, hb, hrest⟩ := h
  exact ⟨b, rel, v, request_mono hb hbound, hrest⟩

theorem kind (h : s.Makes view config bound out i n) : s.kind? = some n.kind := by
  obtain ⟨b, rel, v, hb, hv, _, _, hop, _⟩ := h
  obtain ⟨rels, _, hy⟩ := Builder.yields_of_deriveFrom hv
  rw [(requests hb).kind, ← hy.kind, Node.kind, hop]

theorem name {name : String} (hview : ∀ r r', view r = view r' → r.name = r'.name)
    (h : s.Makes view config bound out i n) (hs : s.name? = some name) : n.output.name = name := by
  obtain ⟨b, rel, v, hb, hv, _, _, _, hout, _⟩ := h
  obtain ⟨rels, _, hy⟩ := Builder.yields_of_deriveFrom hv
  rw [hview _ _ hout, hy.name]
  exact Option.some.inj ((requests hb).name.symm.trans hs)

theorem inputs (h : s.Makes view config bound out i n) :
    n.inputs.ids.map some = s.inputs.map bound ∧ ∀ p ∈ n.inputs.ids, p < i := by
  obtain ⟨b, rel, v, hb, _, hreads, hids, _⟩ := h
  rw [hids, (requests hb).reads]
  exact ⟨rfl, fun p hp => (hreads p hp).1⟩

theorem helpers (h : s.Makes view config bound out i n) : n.op.helpers = [] := by
  obtain ⟨b, rel, v, _, hv, _, _, hop, _⟩ := h
  obtain ⟨rels, _, hy⟩ := Builder.yields_of_deriveFrom hv
  rw [hop, hy.helpers]

end Makes
end Step

namespace Assembly

variable {β : Type} {view : Relation → β} {config : Config} {a a' : Assembly} {s : Step}
  {steps : List Step} {b : Builder} {v : Derived}

/-- A plan in the making after the steps of a list: what the k-th of the steps that bind a name asks for
is done by the k-th node, and the name stands for this node. -/
structure Follows (view : Relation → β) (config : Config) (steps : List Step) (a : Assembly) : Prop where
  linked : a.plan.Linked
  laid : a.plan.Laid
  covered : a.plan.Covered
  valid : a.plan.Valid
  distinct : (Step.names steps).Nodup
  scope : a.scope.Perm (Step.names steps).zipIdx
  size : a.plan.size = (Step.names steps).length
  nodes : ∀ i n, a.plan.get? i = some n → ∃ name s, (Step.bindings steps)[i]? = some (name, s) ∧
    s.Makes view config a.scope.find? a.plan.output? i n

theorem Follows.start : Follows view config [] {} where
  linked := .empty
  laid := .empty
  covered := .empty
  valid := .empty
  distinct := .nil
  scope := .nil
  size := rfl
  nodes := by
    intro i n hn
    rw [show (∅ : Plan).get? i = none from Plan.get?_empty ..] at hn
    cases hn

theorem Follows.find? (hf : a.Follows view config steps) {name : String} {i : NodeId} :
    a.scope.find? name = some i ↔ (Step.names steps)[i]? = some name :=
  Scope.find?_numbered hf.scope hf.distinct

theorem Follows.deliver (hf : a.Follows view config steps) (hview : ∀ r s, view (r.heldBy s) = view r)
    (hs : s.name? = none) (hscope : a'.scope = a.scope) {id : NodeId} {parties : PartySet}
    (hplan : a'.plan = a.plan.update id (.heldBy parties)) (hl : a'.plan.Linked) (hv : a'.plan.Valid) :
    a'.Follows view config (steps ++ [s]) where
  linked := hl
  laid := hplan ▸ hf.laid.heldBy
  covered := hplan ▸ hf.covered.heldBy
  valid := hv
  distinct := by
    rw [Step.names, Step.bindings_append_unnamed steps hs]
    exact hf.distinct
  scope := by
    rw [Step.names, Step.bindings_append_unnamed steps hs, hscope]
    exact hf.scope
  size := by
    rw [Step.names, Step.bindings_append_unnamed steps hs, hplan, Plan.size_update]
    exact hf.size
  nodes := by
    rw [Step.bindings_append_unnamed steps hs, hplan, hscope]
    refine Plan.forall_nodes_heldBy (J := fun out i n => ∃ name s,
      (Step.bindings steps)[i]? = some (name, s) ∧ s.Makes view config a.scope.find? out i n) hview
      ?_ ?_ hf.nodes id parties
    · rintro out out' i n hout ⟨name, s, hs, hmakes⟩
      exact ⟨name, s, hs, hmakes.congr hout⟩
    · rintro out i n parties ⟨name, s, hs, hmakes⟩
      exact ⟨name, s, hs, hmakes.heldBy hview parties⟩

namespace Adds

theorem bindings_append (h : a.Adds config s b v a') (steps : List Step) :
    Step.bindings (steps ++ [s]) = Step.bindings steps ++ [(b.name, s)] :=
  Step.bindings_append steps (Step.requests h.request).name

theorem names_append (h : a.Adds config s b v a') (steps : List Step) :
    Step.names (steps ++ [s]) = Step.names steps ++ [b.name] := by
  rw [Step.names, h.bindings_append, List.map_append]
  rfl

theorem grown (h : a.Adds config s b v a') : a.plan.Grown b.inputs 1 a.plan.size a'.plan := by
  have hgrown := h.received.toGrown
  rwa [Builder.added_eq_one_iff.mpr (Step.requests h.request).helpers] at hgrown

/-- The new node is what the step asks for. -/
theorem makes (h : a.Adds config s b v a') :
    s.Makes view config a.scope.find? a'.plan.output? a.plan.size (b.nodeAt v a.plan.size) := by
  have hreq := Step.requests h.request
  obtain ⟨rels, hrels, hy⟩ := Builder.yields_of_deriveFrom h.derived
  have hform : b.form v.op = v.op := Builder.form_of_helpers hreq.helpers v.op
  have hop : (b.nodeAt v a.plan.size).op = v.op := hform
  refine ⟨b, a.plan.relationOf, v, h.request, h.derived, fun p hp => ?_, hy.ids_nodeAt, hop, rfl,
    congrArg (·.kind.isLocal) hform, congrArg (·.kind.isMpc) hform⟩
  have hlt : p < a.plan.size := h.grown.known p (by simp [b.inputs_eq, hp])
  obtain ⟨n, hn⟩ := Plan.lt_size_iff.mp hlt
  have hout : a.plan.output? p = some n.output := by rw [Plan.output?, hn, Option.map_some]
  exact ⟨hlt, n.output, n.output, Plan.relationOf_eq_ok.mpr hout, (h.grown.output? hlt).trans hout, rfl⟩

end Adds

theorem Follows.add (hf : a.Follows view config steps) (h : a.Adds config s b v a')
    (hl : a'.plan.Linked) (hvalid : a'.plan.Valid) : a'.Follows view config (steps ++ [s]) := by
  have hnew : ¬ b.name ∈ Step.names steps := by
    intro hmem
    obtain ⟨i, hi⟩ := List.mem_iff_getElem?.mp hmem
    rw [← hf.find?, h.fresh] at hi
    cases hi
  have hdistinct : (Step.names (steps ++ [s])).Nodup := by
    rw [h.names_append, ← List.concat_eq_append]
    exact hf.distinct.concat hnew
  have hscope : a'.scope.Perm (Step.names (steps ++ [s])).zipIdx := by
    rw [h.names_append, List.zipIdx_append, h.scope, hf.size]
    refine (Scope.insert_perm _ _ _).trans ((hf.scope.cons _).trans ?_)
    simpa using (List.perm_append_singleton _ _).symm
  have hmono : ∀ x p, a.scope.find? x = some p → a'.scope.find? x = some p := by
    intro x p hp
    rw [hf.find?] at hp
    rw [Scope.find?_numbered hscope hdistinct, h.names_append]
    exact (List.getElem?_append_left (List.getElem?_eq_some_iff.mp hp).1).trans hp
  refine ⟨hl, h.grown.laid Nat.one_pos hf.laid, h.grown.covered hf.covered, hvalid, hdistinct, hscope,
    ?_, ?_⟩
  · rw [h.grown.size, hf.size, h.names_append, List.length_append]
    rfl
  · refine h.received.forall_nodes (J := fun out i n => ∃ name s', (Step.bindings (steps ++ [s]))[i]? =
      some (name, s') ∧ s'.Makes view config a'.scope.find? out i n) hf.linked ?_ ?_ ?_ ?_ ?_
    · rintro out i n c ⟨name, s', hs, hmakes⟩
      exact ⟨name, s', hs, hmakes.withChild c⟩
    · rintro out out' i n hout ⟨name, s', hs, hmakes⟩
      exact ⟨name, s', hs, hmakes.congr fun p hp => congrArg _ (hout p hp)⟩
    · intro i n hn
      obtain ⟨name, s', hs, hmakes⟩ := hf.nodes i n hn
      refine ⟨name, s', ?_, hmakes.mono hmono⟩
      rw [h.bindings_append]
      exact (List.getElem?_append_left (List.getElem?_eq_some_iff.mp hs).1).trans hs
    · exact fun i hge hlt => absurd hlt (Nat.not_lt.mpr hge)
    · refine ⟨b.name, s, ?_, h.makes.mono hmono⟩
      have hlen : a.plan.size = (Step.bindings steps).length := by
        rw [hf.size, Step.names, List.length_map]
      rw [h.bindings_append, hlen, List.getElem?_concat_length]

/-- A step leads from one such state to the next. A delivery does so where it does not matter who holds a
relation. -/
theorem Follows.step (hf : a.Follows view config steps)
    (hview : s.name? = none → ∀ r s, view (r.heldBy s) = view r) (h : a.step config s = .ok a') :
    a'.Follows view config (steps ++ [s]) := by
  have hl : a'.plan.Linked := step_keeps Edit.upkeep_linked.build Edit.setHolders_linked hf.linked h
  have hv : a'.plan.Valid := step_keeps Edit.upkeep_valid.build Edit.setHolders_valid hf.valid h
  rcases step_adds hf.linked h with ⟨id, parties, hs, hplan, hscope⟩ | ⟨b, v, hadds⟩
  · exact hf.deliver (hview hs) hs hscope hplan hl hv
  · exact hf.add hadds hl hv

theorem Follows.run {more : List Step} (hf : a.Follows view config steps)
    (hview : (∃ s ∈ more, s.name? = none) → ∀ r s, view (r.heldBy s) = view r)
    (h : more.foldlM (Assembly.step config) a = .ok a') : a'.Follows view config (steps ++ more) := by
  induction more generalizing a steps with
  | nil =>
    cases h
    rwa [List.append_nil]
  | cons s rest ih =>
    rw [List.foldlM_cons] at h
    obtain ⟨a₁, hstep, hrest⟩ := except_bind_eq_ok.mp h
    have hnext := hf.step (fun hs => hview ⟨s, by simp, hs⟩) hstep
    have hall := ih hnext (fun ⟨t, ht, hn⟩ => hview ⟨t, by simp [ht], hn⟩) hrest
    rwa [List.append_assoc] at hall

end Assembly

namespace Workflow

variable {w : Workflow} {r : Assembled}

theorem assemble_eq_ok (h : w.assemble = .ok r) : r.config = w.config.getD {} ∧
    r.config.check = .ok () ∧ w.steps.foldlM (Assembly.step r.config) {} = .ok ⟨r.plan, r.scope⟩ := by
  obtain ⟨⟨⟩, hcheck, hrest⟩ := except_bind_eq_ok.mp h
  obtain ⟨a, hrun, hdone⟩ := except_bind_eq_ok.mp hrest
  have hchecked : (w.config.getD {}).check = .ok () :=
    toOption_eq_some.mp (Assembly.ofPlan_eq_ok.mp hcheck)
  split at hdone
  · cases hdone
  · cases hdone
    exact ⟨rfl, hchecked, hrun⟩

/-- The plan of a workflow follows its steps. -/
theorem follows {β : Type} (view : Relation → β) (h : w.assemble = .ok r)
    (hview : (∃ s ∈ w.steps, s.name? = none) → ∀ r s, view (r.heldBy s) = view r) :
    (⟨r.plan, r.scope⟩ : Assembly).Follows view r.config w.steps :=
  Assembly.Follows.start.run hview (assemble_eq_ok h).2.2

end Workflow

namespace Assembly.Follows

variable {β : Type} {view : Relation → β} {config : Config} {a : Assembly} {steps : List Step}
  {name : String} {s : Step} {i : NodeId}

/-- Each binding has its node. -/
theorem node_of_binding (hf : a.Follows view config steps)
    (hs : (Step.bindings steps)[i]? = some (name, s)) :
    ∃ n, a.plan.get? i = some n ∧ s.Makes view config a.scope.find? a.plan.output? i n := by
  have hlt : i < a.plan.size := by
    rw [hf.size, Step.names, List.length_map]
    exact (List.getElem?_eq_some_iff.mp hs).1
  obtain ⟨n, hn⟩ := Plan.lt_size_iff.mp hlt
  obtain ⟨name', s', hs', hmakes⟩ := hf.nodes i n hn
  cases hs.symm.trans hs'
  exact ⟨n, hn, hmakes⟩

theorem mem_roots (hf : a.Follows view config steps) : i ∈ a.plan.roots ↔
    ∃ name s, (Step.bindings steps)[i]? = some (name, s) ∧ s.kind? = some .create := by
  rw [hf.laid.sources]
  constructor
  · rintro ⟨n, hn, hk⟩
    obtain ⟨name, s, hs, hmakes⟩ := hf.nodes i n hn
    exact ⟨name, s, hs, hk ▸ hmakes.kind⟩
  · rintro ⟨name, s, hs, hk⟩
    obtain ⟨n, hn, hmakes⟩ := hf.node_of_binding hs
    exact ⟨n, hn, Option.some.inj (hmakes.kind.symm.trans hk)⟩

theorem topSort_eq_ok (hf : a.Follows view config steps) (byName : Bool) :
    ∃ order, a.plan.topSort byName = .ok order ∧ order.Nodup ∧ ∀ i, i ∈ order ↔ i < a.plan.size := by
  obtain ⟨order, horder, hnodup, hmem⟩ := hf.laid.topSort_eq_ok hf.linked byName
  refine ⟨order, horder, hnodup, fun i => (hmem i).trans ?_⟩
  exact ⟨hf.linked.inRange.reaches_lt, hf.covered i⟩

end Assembly.Follows

/-- A plan binds the names of a workflow exactly: they are different, the k-th of them stands for the
k-th node, and this node does what the step asks for that binds the name. -/
structure Assembled.Binds (w : Workflow) (r : Assembled) : Prop where
  config : r.config = w.config.getD {}
  checked : r.config.check = .ok ()
  distinct : (Step.names w.steps).Nodup
  size : r.plan.size = (Step.names w.steps).length
  scope : r.scope.Perm (Step.names w.steps).zipIdx
  bound : ∀ name i, r.scope.find? name = some i ↔ (Step.names w.steps)[i]? = some name
  nodes : ∀ i name s, (Step.bindings w.steps)[i]? = some (name, s) →
    ∃ n, r.plan.get? i = some n ∧ n.output.name = name ∧ s.kind? = some n.kind ∧
      n.inputs.ids.map some = s.inputs.map r.scope.find? ∧ (∀ p ∈ n.inputs.ids, p < i) ∧
      s.Makes Relation.schema r.config r.scope.find? r.plan.output? i n
  roots : ∀ i, i ∈ r.plan.roots ↔
    ∃ name s, (Step.bindings w.steps)[i]? = some (name, s) ∧ s.kind? = some .create
  valid : r.plan.validate = .ok ()
  sorted : ∀ byName, ∃ order, r.plan.topSort byName = .ok order ∧ order.Nodup ∧
    ∀ i, i ∈ order ↔ i < r.plan.size

/-- Every workflow that has a plan has its names bound exactly in it. -/
theorem assembled_binds_exactly (w : Workflow) (r : Assembled) (h : w.assemble = .ok r) : r.Binds w := by
  have hf := w.follows Relation.schema h fun _ _ _ => rfl
  obtain ⟨hconfig, hcheck, _⟩ := w.assemble_eq_ok h
  refine ⟨hconfig, hcheck, hf.distinct, hf.size, hf.scope, fun name i => hf.find?, ?_,
    fun i => hf.mem_roots, ?_, hf.topSort_eq_ok⟩
  · intro i name s hs
    obtain ⟨n, hn, hmakes⟩ := hf.node_of_binding hs
    have hname : n.output.name = name :=
      hmakes.name (fun _ _ => congrArg Prod.fst) (Step.name?_of_binding hs)
    exact ⟨n, hn, hname, hmakes.kind, hmakes.inputs.1, hmakes.inputs.2, hmakes⟩
  · exact (Plan.validate_eq_ok_iff fun i n hn => (hf.linked.nodes i n hn).id).mpr hf.valid

/-- A join of a relation with itself, with an index and a delivery before it is put to another use. -/
def crossing : Workflow :=
  { config := some { defaultIndexColumn := "row" }
    steps := [.create "people" [1, 2] [⟨"id", "INTEGER", [1]⟩, ⟨"age", "int", []⟩],
      .collect "people" 3, .join "pairs" "people" "people" ["id"] ["id"],
      .create "more" [4] [⟨"id", "I64", []⟩, ⟨"age", "INT", []⟩],
      .concat "all" ["more", "people"] none, .index "counted" "all" none, .collect "counted" 1,
      .aggregate "total" "counted" ["id"] "age" "sum" "ages"] }

theorem crossing_binds_exactly : ∃ r, crossing.assemble = .ok r ∧ r.Binds crossing ∧
    r.scope = [("all", 3), ("counted", 4), ("more", 2), ("pairs", 1), ("people", 0), ("total", 5)] := by
  have hscope : crossing.assemble.toOption.map (·.scope) =
      some [("all", 3), ("counted", 4), ("more", 2), ("pairs", 1), ("people", 0), ("total", 5)] := by
    decide +kernel
  obtain ⟨r, hr, hnames⟩ := Option.map_eq_some_iff.mp hscope
  have h : crossing.assemble = .ok r := toOption_eq_some.mp hr
  exact ⟨r, h, assembled_binds_exactly crossing r h, hnames⟩

end PartyPlan
