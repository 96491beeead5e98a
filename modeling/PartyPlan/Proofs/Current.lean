import PartyPlan.Proofs.Integrity

/-! What the steps of an edit do to column references. A step can leave behind the references of the one
node whose inputs it changes, and of no other; a look-up that succeeds brings them up to date. -/
namespace PartyPlan

namespace Inputs

/-- The relations that are read where each node produces the relation `f` has for it. -/
def read (f : NodeId → Option Relation) : Inputs → InputRelations
  | unary input => { primary := input.bind f }
  | binary left right => { left := left.bind f, right := right.bind f }
  | nary _ => {}

theorem read_vacant (f : NodeId → Option Relation) (a : Arity) : (vacant a).read f = {} := by
  cases a <;> rfl

theorem read_congr {f f' : NodeId → Option Relation} {inputs : Inputs} (h : ∀ p ∈ inputs.ids, f' p = f p) :
    inputs.read f' = inputs.read f := by
  cases inputs with
  | unary input =>
    cases input with
    | none => rfl
    | some p => simp [read, h p (by simp [ids])]
  | binary left right =>
    cases left <;> cases right <;> simp_all [read, ids]
  | nary ordered => rfl

theorem agrees_bind {f f' : NodeId → Option Relation} {input input' : Option NodeId}
    (hin : input' = none ∨ input' = input)
    (hf : ∀ p, input = some p → Relation.Agrees (f' p) (f p)) :
    Relation.Agrees (input'.bind f') (input.bind f) := by
  intro r' hr'
  obtain ⟨p, hp, hr'⟩ := Option.bind_eq_some_iff.mp hr'
  have hinput : input = some p := by
    rcases hin with h | h
    · rw [h] at hp
      cases hp
    · exact h ▸ hp
  obtain ⟨r, hr, hs⟩ := hf p hinput r' hr'
  exact ⟨r, by rw [hinput]; exact hr, hs⟩

/-- The same inputs read the same columns, as long as what they name does not change its columns. -/
theorem read_within {f f' : NodeId → Option Relation} (inputs : Inputs)
    (h : ∀ p ∈ inputs.ids, Relation.Agrees (f' p) (f p)) :
    (inputs.read f').Within (inputs.read f) := by
  have hnone : Relation.Agrees none none := fun _ h => nomatch h
  cases inputs with
  | unary input =>
    refine ⟨agrees_bind (.inr rfl) fun p hp => h p (by simp [ids, hp]), hnone, hnone⟩
  | binary left right =>
    refine ⟨hnone, agrees_bind (.inr rfl) fun p hp => h p (by simp [ids, hp]),
      agrees_bind (.inr rfl) fun p hp => h p (by simp [ids, hp])⟩
  | nary ordered => exact ⟨hnone, hnone, hnone⟩

theorem drop_cases (p : NodeId) (input : Option NodeId) : drop p input = none ∨ drop p input = input := by
  unfold drop
  split
  · exact .inl rfl
  · exact .inr rfl

/-- With a parent less, each place reads what it read or nothing. -/
theorem read_within_of_detach {f f' : NodeId → Option Relation} {inputs rest : Inputs} {p : NodeId}
    (hd : inputs.detach p = .ok rest) (h : ∀ q ∈ inputs.ids, Relation.Agrees (f' q) (f q)) :
    (rest.read f').Within (inputs.read f) := by
  have hnone : Relation.Agrees none none := fun _ h => nomatch h
  cases inputs with
  | unary input =>
    cases hd
    exact ⟨agrees_bind (drop_cases p input) fun q hq => h q (by simp [ids, hq]), hnone, hnone⟩
  | binary left right =>
    cases hd
    exact ⟨hnone, agrees_bind (drop_cases p left) fun q hq => h q (by simp [ids, hq]),
      agrees_bind (drop_cases p right) fun q hq => h q (by simp [ids, hq])⟩
  | nary ordered => cases hd

theorem read_seated {f : NodeId → Option Relation} {a : Arity} {ps : List NodeId}
    {rels : List Relation} (hs : a.Seats ps) (hr : ps.map f = rels.map some) :
    (seated a ps).read f = a.arrange rels := by
  cases a with
  | unary =>
    match ps, hs with
    | [p], _ =>
      obtain ⟨r, rest, rfl, hp, hrest⟩ := List.map_eq_cons_iff.mp hr.symm
      rw [List.map_nil, List.map_eq_nil_iff] at hrest
      simp [seated, read, Arity.arrange, hrest, ← hp]
  | binary =>
    match ps, hs with
    | [p, q], _ =>
      obtain ⟨l, rest, rfl, hp, hrest⟩ := List.map_eq_cons_iff.mp hr.symm
      obtain ⟨r, rest, rfl, hq, hrest⟩ := List.map_eq_cons_iff.mp hrest
      rw [List.map_nil, List.map_eq_nil_iff] at hrest
      simp [seated, read, Arity.arrange, hrest, ← hp, ← hq]
  | nary => rfl

end Inputs

namespace Plan

variable {g g' : Plan} {id i p c old new : NodeId} {n : Node} {f : Node → Node} {S T : NodeId → Prop}

theorem operatorInputs_eq (hn : g.get? i = some n) : g.operatorInputs i = n.inputs.read g.output? := by
  unfold operatorInputs inputRelation? leftRelation? rightRelation?
  rw [hn]
  cases hi : n.inputs <;> simp [Node.input?, Node.left?, Node.right?, hi, Inputs.read]

/-- A node that was linked below inputs it has places for, and then below others it has none for, reads
what the inputs produce. -/
theorem operatorInputs_of_seats {a : Arity} {ps hs : List NodeId} {rels : List Relation}
    (hn : g.get? i = some n) (hi : n.inputs = (ps ++ hs).foldl Inputs.attach (.vacant a))
    (hps : a.Seats ps) (hhs : a = .nary → hs = []) (hout : ps.map g.output? = rels.map some) :
    g.operatorInputs i = a.arrange rels := by
  rw [operatorInputs_eq hn, hi, Inputs.foldl_attach_vacant hps hhs, Inputs.read_seated hps hout]

/-- All references are current, save those of nodes that are still to be looked after. -/
def CurrentBut (S : NodeId → Prop) (g : Plan) : Prop :=
  ∀ i n, g.get? i = some n → ¬ S i → n.op.Current (g.operatorInputs i)

theorem CurrentBut.mono (h : g.CurrentBut S) (hST : ∀ i, S i → T i) : g.CurrentBut T :=
  fun i n hn hi => h i n hn fun hs => hi (hST i hs)

/-- Nodes keep the name and columns of what they produce. -/
theorem agrees_update (hf : ∀ n, (f n).output.schema = n.output.schema) (p : NodeId) :
    Relation.Agrees ((g.update id f).output? p) (g.output? p) := by
  intro r' hr'
  unfold output? at hr' ⊢
  rw [get?_update] at hr'
  split at hr'
  · obtain ⟨m, hm, rfl⟩ := Option.map_eq_some_iff.mp hr'
    obtain ⟨n, hn, rfl⟩ := Option.map_eq_some_iff.mp hm
    exact ⟨n.output, by simp [hn], (hf n).symm⟩
  · exact ⟨r', hr', rfl⟩

/-- A change of one node that keeps name and columns of its output concerns only its own references. -/
theorem CurrentBut.update (h : g.CurrentBut S) (hf : ∀ n, (f n).output.schema = n.output.schema)
    (hid : ∀ n, g.get? id = some n → ¬ T id →
      (f n).op.Current ((f n).inputs.read (g.update id f).output?))
    (hST : ∀ i, i ≠ id → S i → T i) : (g.update id f).CurrentBut T := by
  intro i m hm hi
  rw [operatorInputs_eq hm]
  rw [get?_update] at hm
  by_cases hne : id = i
  · subst hne
    rw [if_pos rfl] at hm
    obtain ⟨n, hn, rfl⟩ := Option.map_eq_some_iff.mp hm
    exact hid n hn hi
  · rw [if_neg hne] at hm
    have hcur := h i m hm fun hs => hi (hST i (Ne.symm hne) hs)
    rw [operatorInputs_eq hm] at hcur
    exact hcur.of_within (m.inputs.read_within fun p _ => agrees_update hf p)

/-- A change that leaves the operator and the inputs alone. -/
theorem CurrentBut.update_rest (h : g.CurrentBut S) (hf : ∀ n, (f n).output.schema = n.output.schema)
    (hop : ∀ n, (f n).op = n.op) (hin : ∀ n, (f n).inputs = n.inputs) :
    (g.update id f).CurrentBut S := by
  refine h.update hf (fun n hn hid => ?_) fun _ _ hs => hs
  have hcur := h id n hn hid
  rw [operatorInputs_eq hn] at hcur
  rw [hop, hin]
  exact hcur.of_within (n.inputs.read_within fun p _ => agrees_update hf p)

/-- A change that is still to be followed by a look-up. -/
theorem CurrentBut.update_stale (h : g.CurrentBut S) (hf : ∀ n, (f n).output.schema = n.output.schema) :
    (g.update id f).CurrentBut fun i => S i ∨ i = id :=
  h.update hf (fun _ _ hid => absurd (.inr rfl) hid) fun _ _ hs => .inl hs

theorem CurrentBut.addEdge (h : g.CurrentBut S) :
    (g.addEdge p c).CurrentBut fun i => S i ∨ i = c := by
  have hchild : (g.update p (.withChild c)).CurrentBut S :=
    h.update_rest (fun _ => rfl) (fun _ => rfl) fun _ => rfl
  exact hchild.update_stale fun _ => rfl

theorem CurrentBut.moveEdge (h : g.CurrentBut S) :
    (g.moveEdge c old new).CurrentBut fun i => S i ∨ i = c := by
  have hleft : (g.update old (.withoutChild c)).CurrentBut S :=
    h.update_rest (fun _ => rfl) (fun _ => rfl) fun _ => rfl
  have hkept : ((g.update old (.withoutChild c)).update new (.withChild c)).CurrentBut S :=
    hleft.update_rest (fun _ => rfl) (fun _ => rfl) fun _ => rfl
  exact hkept.update_stale fun _ => rfl

theorem CurrentBut.dropEdge (h : g.CurrentBut S) {rest : Inputs} (hn : g.get? c = some n)
    (hd : n.inputs.detach p = .ok rest) : (g.dropEdge p c rest).CurrentBut S := by
  have hf : ∀ m : Node, (m.withoutParent p rest).output.schema = m.output.schema := fun _ => rfl
  have hcut : (g.update c (.withoutParent p rest)).CurrentBut S := by
    refine h.update hf (fun m hm hc => ?_) fun _ _ hs => hs
    rw [hn] at hm
    cases hm
    have hcur := h c n hn hc
    rw [operatorInputs_eq hn] at hcur
    exact hcur.of_within (Inputs.read_within_of_detach hd fun q _ => agrees_update hf q)
  exact hcut.update_rest (fun _ => rfl) (fun _ => rfl) fun _ => rfl

theorem output?_push_of_lt (op : Operator) (r : Relation) (hp : p < g.size) :
    (g.push op r).output? p = g.output? p := by
  rw [output?, output?, get?_push, if_neg (Nat.ne_of_lt hp)]

theorem Linked.named_lt (h : g.Linked) (hn : g.get? i = some n) (hp : p ∈ n.inputs.ids) : p < g.size :=
  h.inRange.parents i p (parentsOf_eq hn ▸ (h.nodes i n hn).named p hp)

/-- A new node reads nothing, and no node names it. -/
theorem CurrentBut.push (h : g.CurrentBut S) (hl : g.Linked) (op : Operator) (r : Relation) :
    (g.push op r).CurrentBut S := by
  intro i m hm hi
  rw [operatorInputs_eq hm]
  rw [get?_push] at hm
  split at hm
  · cases hm
    have hread : (Node.detached g.size op r).inputs.read (g.push op r).output? = {} :=
      Inputs.read_vacant _ op.arity
    rw [hread]
    exact op.current_of_none
  · have hcur := h i m hm hi
    rw [operatorInputs_eq hm] at hcur
    refine hcur.of_within (m.inputs.read_within fun p hp r' hr' => ⟨r', ?_, rfl⟩)
    rw [← hr', output?_push_of_lt op r (hl.named_lt hm hp)]

theorem CurrentBut.orphaned (h : g.CurrentBut S) : (g.orphaned id).CurrentBut S := by
  have hout : ∀ p, (g.orphaned id).output? p = g.output? p := by
    intro p
    rw [output?, output?, get?_orphaned]
    cases g.get? p with
    | none => rfl
    | some n => by_cases hp : p = id <;> simp [hp, Node.withoutChild, Node.withoutParents, Node.withoutInputs]
  intro i m hm hi
  rw [operatorInputs_eq hm]
  rw [get?_orphaned] at hm
  obtain ⟨n, hn, rfl⟩ := Option.map_eq_some_iff.mp hm
  split
  · have hread : ((n.withoutChild id).withoutParents.withoutInputs).inputs.read
        (g.orphaned id).output? = {} := Inputs.read_vacant _ n.op.arity
    rw [hread]
    exact n.op.current_of_none
  · have hcur := h i n hn hi
    rw [operatorInputs_eq hn] at hcur
    exact hcur.of_within (n.inputs.read_within fun p _ r' hr' => ⟨r', hout p ▸ hr', rfl⟩)

/-- A node whose own references are current needs no more looking after. -/
theorem CurrentBut.settled (h : g.CurrentBut fun i => S i ∨ i = id)
    (hid : ∀ n, g.get? id = some n → n.op.Current (g.operatorInputs id)) : g.CurrentBut S := by
  intro i n hn hi
  by_cases he : i = id
  · subst he
    exact hid n hn
  · exact h i n hn fun hs => hs.elim hi he

theorem Linked.operatorInputs_wellFormed (h : g.Linked) (id : NodeId) :
    (g.operatorInputs id).WellFormed := by
  have hout : ∀ {input : Option NodeId} {r : Relation}, input.bind g.output? = some r → r.WellFormed := by
    intro input r hr
    obtain ⟨p, _, hp⟩ := Option.bind_eq_some_iff.mp hr
    obtain ⟨n, hn, rfl⟩ := Option.map_eq_some_iff.mp hp
    exact (h.nodes p n hn).relation
  exact ⟨fun _ hr => hout hr, fun _ hr => hout hr, fun _ hr => hout hr⟩

/-- A look-up that finds every reference settles a node. -/
theorem CurrentBut.refreshed (h : g.CurrentBut fun i => S i ∨ i = id) (hl : g.Linked) {op : Operator}
    (hn : g.get? id = some n) (hr : n.op.refresh (g.operatorInputs id) = ⟨op, .ok ()⟩) :
    (g.update id ({ · with op })).CurrentBut S := by
  have hf : ∀ m : Node, ({ m with op } : Node).output.schema = m.output.schema := fun _ => rfl
  refine h.update hf (fun m hm _ => ?_) fun i hi hs => hs.resolve_right hi
  rw [hn] at hm
  cases hm
  have hcur : (n.op.refresh (g.operatorInputs id)).value.Current (g.operatorInputs id) :=
    Operator.current_of_refresh (hl.operatorInputs_wellFormed id) (by rw [hr])
  rw [hr, operatorInputs_eq hn] at hcur
  exact hcur.of_within (n.inputs.read_within fun q _ => agrees_update hf q)

theorem CurrentBut.linkAll (h : g.CurrentBut S) (ps : List NodeId) :
    (g.linkAll ps c).CurrentBut fun i => S i ∨ i = c := by
  induction ps generalizing g S with
  | nil => exact h.mono fun _ => .inl
  | cons p ps ih => exact (ih h.addEdge).mono fun _ hs => by tauto

@[simp] theorem output?_linkAll (g : Plan) (ps : List NodeId) (c : NodeId) :
    (g.linkAll ps c).output? = g.output? := by
  funext p
  rw [output?, output?, get?_linkAll, Option.map_map]
  rfl

theorem output?_attached {inputs : List NodeId} {d : Derived} (hp : p < g.size) :
    (g.attached inputs d).output? p = g.output? p := by
  rw [attached, output?_linkAll, output?_push_of_lt _ _ hp]

end Plan

end PartyPlan
