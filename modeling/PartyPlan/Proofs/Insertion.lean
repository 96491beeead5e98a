import PartyPlan.Proofs.Removal

/-! What an insertion makes of a plan. A node is told apart into the edges it lists and the rest of it,
its core. Of the edges, those that are moved now pass through the node put in; of the cores, only that
of the node and those of the children that changed hands differ, and each in few places. -/
namespace PartyPlan

namespace Operator

variable {op op' : Operator} {inputs : InputRelations}

theorem refresh_of_found (h : op.Found inputs) :
    op.refresh inputs = ⟨(op.refresh inputs).value, .ok ()⟩ := by
  have hdone := outcome_refresh.mpr h
  cases hr : op.refresh inputs with
  | mk value outcome =>
    rw [hr] at hdone
    exact congrArg (Refreshed.mk value) hdone

theorem kind_of_refresh {outcome : Except Error Unit} (h : op.refresh inputs = ⟨op', outcome⟩) :
    op'.kind = op.kind := by rw [← op.kind_refresh inputs, h]

theorem helpers_of_refresh {outcome : Except Error Unit} (h : op.refresh inputs = ⟨op', outcome⟩) :
    op'.helpers = op.helpers := by rw [← op.helpers_refresh inputs, h]

end Operator

def Node.core (n : Node) : Node := { n with parents := ∅, children := ∅ }

namespace Plan

variable {g h : Plan} {id p c i old new parent : NodeId} {n m : Node} {k f : Node → Node}
  {moved moved' : NodeId → Prop}

/-- A node of a plan but for the edges it lists: its number, operator and output, its flags and the
inputs it names. -/
def core? (g : Plan) (i : NodeId) : Option Node := (g.get? i).map Node.core

theorem core?_eq (hn : g.get? i = some n) : g.core? i = some n.core := by
  rw [core?, hn, Option.map_some]

theorem core?_update (hk : ∀ n, (k n).core = f n.core) :
    (g.update id k).core? i = if id = i then (g.core? i).map f else g.core? i := by
  rw [core?, core?, get?_update]
  split
  · rw [Option.map_map, Option.map_map]
    congr 1
    funext n
    exact hk n
  · rfl

theorem core?_update_of_eq (hk : ∀ n, (k n).core = n.core) : (g.update id k).core? = g.core? := by
  funext i
  rw [core?_update (f := fun n => n) hk, Option.map_id', ite_self]

theorem core?_addEdge : (g.addEdge p c).core? i =
    if c = i then (g.core? i).map fun n => { n with inputs := n.inputs.attach p } else g.core? i := by
  rw [addEdge, core?_update (f := fun n => { n with inputs := n.inputs.attach p }) fun _ => rfl,
    core?_update_of_eq (k := .withChild c) fun _ => rfl]

theorem core?_moveEdge : (g.moveEdge c old new).core? i =
    if c = i then (g.core? i).map fun n =>
      { n with inputs := n.inputs.replace old new, op := n.op.replaceHelper old new }
    else g.core? i := by
  rw [moveEdge, core?_update (f := fun n =>
      { n with inputs := n.inputs.replace old new, op := n.op.replaceHelper old new }) fun _ => rfl,
    core?_update_of_eq (k := .withChild c) fun _ => rfl,
    core?_update_of_eq (k := .withoutChild c) fun _ => rfl]

theorem core?_lookedUp : (g.lookedUp id m).core? i =
    if id = i then (g.core? i).map fun n => { n with op := (m.op.refresh (m.inputs.read g.output?)).value }
    else g.core? i :=
  core?_update fun _ => rfl

theorem core?_heldBy {s : PartySet} : (g.update id (.heldBy s)).core? i =
    if id = i then (g.core? i).map (.heldBy s) else g.core? i :=
  core?_update fun _ => rfl

structure Inserted (g : Plan) (parent : NodeId) (moved : NodeId → Prop) (id : NodeId) (h : Plan) :
    Prop where
  size : h.size = g.size
  roots : h.roots = g.roots
  known : h.Mutual
  edges : ∀ p c, h.Edge p c ↔
    (g.Edge p c ∧ ¬ (p = parent ∧ moved c)) ∨ (p = parent ∧ c = id) ∨ (p = id ∧ moved c)
  outputs : ∀ i, i ≠ id → h.output? i = g.output? i
  others : ∀ i, i ≠ id → ¬ moved i → h.core? i = g.core? i
  children : ∀ c n, moved c → g.core? c = some n → ∃ op,
    h.core? c = some { n with op, inputs := n.inputs.replace parent id } ∧
    (n.op.replaceHelper parent id).refresh ((n.inputs.replace parent id).read h.output?) = ⟨op, .ok ()⟩
  node : ∀ n, g.core? id = some n → ∃ op holders,
    h.core? id = some { n with
      op
      inputs := n.inputs.attach parent
      output := n.output.heldBy holders } ∧
    n.op.refresh ((n.inputs.attach parent).read g.output?) = ⟨op, .ok ()⟩ ∧
    ∀ r, n.inputs = .unary none → n.op.arity = .unary → g.output? parent = some r →
      holders = if n.kind.placesOutput then n.output.holders else r.holders

namespace Inserted

theorem congr (hh : g.Inserted parent moved id h) (hm : ∀ c, moved c ↔ moved' c) :
    g.Inserted parent moved' id h := by
  have he : moved = moved' := funext fun c => propext (hm c)
  exact he ▸ hh

end Inserted

theorem Mutual.addEdge (hg : g.Mutual) (hp : p < g.size) (hc : c < g.size) : (g.addEdge p c).Mutual := by
  intro q d
  rw [mem_parentsOf_addEdge hc, mem_childrenOf_addEdge hp, hg q d]
  tauto

/-- A unary node takes over the holders of its one input, unless it places its output itself. -/
theorem derivedHolders?_of_unary (hn : g.get? i = some n) (ha : n.op.arity = .unary)
    (hi : n.inputs = .unary (some p)) :
    g.derivedHolders? n i = if n.kind.placesOutput then none else (g.output? p).map (·.holders) := by
  simp [derivedHolders?, ha, inputRelation?, hn, Node.input?, hi]

section Start

variable {m' : Node} {s : PartySet} (hg : g.Mutual) (hp : parent < g.size) (hid : id < g.size)
include hg hp hid

/-- A node that is linked in and brought up to date has no children yet. -/
theorem inserted_heldBy (hm : (g.addEdge parent id).get? id = some m)
    (hfound : m.op.Found (m.inputs.read (g.addEdge parent id).output?))
    (hm' : ((g.addEdge parent id).lookedUp id m).get? id = some m')
    (hs : (((g.addEdge parent id).lookedUp id m).derivedHolders? m' id).getD m'.output.holders = s) :
    g.Inserted parent (fun _ => False) id
      (((g.addEdge parent id).lookedUp id m).update id (.heldBy s)) where
  size := by simp
  roots := rfl
  known := by
    intro p c
    rw [parentsOf_update_of_eq (f := .heldBy _) fun _ => rfl, childrenOf_heldBy, parentsOf_lookedUp,
      childrenOf_lookedUp]
    exact hg.addEdge hp hid p c
  edges p c := by
    rw [Edge, Edge, childrenOf_heldBy, childrenOf_lookedUp, mem_childrenOf_addEdge hp]
    simp only [and_false, not_false_iff, and_true, or_false]
    exact or_comm
  outputs i hi := by
    rw [output?, get?_update, if_neg hi.symm, ← output?, output?_lookedUp, output?_addEdge]
  others i hi _ := by
    rw [core?_heldBy, if_neg hi.symm, core?_lookedUp, if_neg hi.symm, core?_addEdge, if_neg hi.symm]
  children _ _ hc := hc.elim
  node n hn := by
    have hcore := core?_eq hm
    rw [core?_addEdge, if_pos rfl, hn, Option.map_some, Option.some.injEq] at hcore
    have hop : n.op = m.op := (congrArg Node.op hcore :)
    have hin : n.inputs.attach parent = m.inputs := (congrArg Node.inputs hcore :)
    have hout : n.output = m.output := (congrArg Node.output hcore :)
    have hread := Operator.refresh_of_found hfound
    rw [output?_addEdge] at hread
    have hlook := hm'
    rw [lookedUp, get?_update, if_pos rfl, hm, Option.map_some, Option.some.injEq] at hlook
    have hget : (((g.addEdge parent id).lookedUp id m).update id (.heldBy s)).core? id = some { n with
        op := (m.op.refresh (m.inputs.read g.output?)).value
        inputs := n.inputs.attach parent
        output := n.output.heldBy s } := by
      rw [core?_heldBy, if_pos rfl, core?_lookedUp, if_pos rfl, core?_addEdge, if_pos rfl, hn,
        output?_addEdge]
      rfl
    refine ⟨_, _, hget, ?_, fun r hunary harity hr => ?_⟩
    · rw [hop, hin]
      exact hread
    · have hkind : m'.kind = n.kind := by
        rw [← hlook, Node.kind, Operator.kind_refresh, ← hop]
        rfl
      have harity' : m'.op.arity = .unary := by
        rw [Operator.arity, ← Node.kind, hkind]
        exact harity
      have hinput : m'.inputs = .unary (some parent) := by
        rw [← hlook, ← hin, hunary]
        rfl
      rw [derivedHolders?_of_unary hm' harity' hinput, hkind, output?_lookedUp, output?_addEdge, hr] at hs
      rw [← hs]
      split
      · rw [← hlook, hout]
        rfl
      · rfl

end Start

section Step

variable (hh : g.Inserted parent moved id h) (hid : id < g.size) (hc : c < g.size) (hne : c ≠ id)
  (hpar : parent ≠ id) (hnew : ¬ moved c)
include hh hid hc hne hpar hnew

/-- One more child of the parent is moved below the node. -/
theorem Inserted.moveEdge (hm : (h.moveEdge c parent id).get? c = some m)
    (hfound : m.op.Found (m.inputs.read (h.moveEdge c parent id).output?)) :
    g.Inserted parent (fun b => moved b ∨ b = c) id ((h.moveEdge c parent id).lookedUp c m) where
  size := by rw [size_lookedUp, ← hh.size, Plan.moveEdge, size_update, size_update, size_update]
  roots := hh.roots
  known := by
    intro p b
    rw [parentsOf_lookedUp, childrenOf_lookedUp]
    exact hh.known.moveEdge (hh.size ▸ hc) (hh.size ▸ hid) p b
  edges p b := by
    rw [Edge, childrenOf_lookedUp, mem_childrenOf_moveEdge (hh.size ▸ hid), ← Edge, hh.edges]
    grind
  outputs i hi := by rw [output?_lookedUp, output?_moveEdge, hh.outputs i hi]
  others i hi hb := by
    have hci : c ≠ i := fun he => hb (.inr he.symm)
    rw [core?_lookedUp, if_neg hci, core?_moveEdge, if_neg hci]
    exact hh.others i hi fun hmoved => hb (.inl hmoved)
  children b n hb hn := by
    rw [output?_lookedUp, output?_moveEdge]
    by_cases hbc : b = c
    · subst hbc
      have hcore := core?_eq hm
      rw [core?_moveEdge, if_pos rfl, hh.others b hne hnew, hn, Option.map_some, Option.some.injEq]
        at hcore
      have hop : n.op.replaceHelper parent id = m.op := congrArg Node.op hcore
      have hin : n.inputs.replace parent id = m.inputs := congrArg Node.inputs hcore
      have hread := Operator.refresh_of_found hfound
      rw [output?_moveEdge] at hread
      refine ⟨_, ?_, by rw [hop, hin, hread]⟩
      rw [core?_lookedUp, if_pos rfl, core?_eq hm, ← hcore, output?_moveEdge]
      rfl
    · have hmoved : moved b := hb.resolve_right hbc
      rw [core?_lookedUp, if_neg (Ne.symm hbc), core?_moveEdge, if_neg (Ne.symm hbc)]
      exact hh.children b n hmoved hn
  node n hn := by
    rw [core?_lookedUp, if_neg hne, core?_moveEdge, if_neg hne]
    exact hh.node n hn

end Step

theorem Unplaced.not_edge_from (hfresh : g.Unplaced id) (c : NodeId) : ¬ g.Edge id c := by
  obtain ⟨n, hn, _, _, hnone, _⟩ := hfresh
  rw [Edge, childrenOf_eq hn, hnone]
  exact IdSet.not_mem_empty c

theorem Unplaced.not_edge_to (hfresh : g.Unplaced id) (hg : g.Mutual) (p : NodeId) : ¬ g.Edge p id := by
  obtain ⟨n, hn, _, hnone, _⟩ := hfresh
  rw [Edge, ← hg, parentsOf_eq hn, hnone]
  exact IdSet.not_mem_empty p

end Plan

namespace Splice
open Edit Plan

variable {g : Plan} {parent id c : NodeId} {moved : NodeId → Prop}

theorem refresh_inserted (hg : g.Mutual) (hp : parent < g.size) (hid : id < g.size) :
    Meets (· = g.addEdge parent id) (refresh id)
      (fun _ h => g.Inserted parent (fun _ => False) id h) fun _ _ => True := by
  refine Meets.bind (M := fun _ h => ∃ m, (g.addEdge parent id).get? id = some m ∧
    m.op.Found (m.inputs.read (g.addEdge parent id).output?) ∧ h = (g.addEdge parent id).lookedUp id m)
    ?_ fun _ => ?_
  · refine Meets.lookUp (fun h m hh hm hfound => ?_) (fun _ _ _ _ _ _ => trivial) fun _ _ _ => trivial
    subst hh
    exact ⟨m, hm, hfound, rfl⟩
  · refine Meets.refreshHolders (fun h m' hh hm' hnone => ?_) (fun h m' s hh hm' hs => ?_)
      fun _ _ _ => trivial
    · obtain ⟨m, hm, hfound, rfl⟩ := hh
      have hins := inserted_heldBy hg hp hid hm hfound hm' rfl
      rwa [hnone, Option.getD_none, update_eq_self hm' rfl] at hins
    · obtain ⟨m, hm, hfound, rfl⟩ := hh
      refine inserted_heldBy hg hp hid hm hfound hm' ?_
      rw [hs, Option.getD_some]

section Adopt

variable (hg : g.Mutual) (hfresh : g.Unplaced id)
include hg hfresh

theorem adopt_inserted (hedge : g.Edge parent c) (hnew : ¬ moved c) :
    Meets (g.Inserted parent moved id) (adopt c parent id)
      (fun _ h => g.Inserted parent (fun b => moved b ∨ b = c) id h) fun _ _ => True := by
  have hne : c ≠ id := by
    rintro rfl
    exact hfresh.not_edge_to hg parent hedge
  have hpar : parent ≠ id := by
    rintro rfl
    exact hfresh.not_edge_from c hedge
  have hc : c < g.size := hg.child_lt hedge
  refine Meets.of_each fun h hh => ?_
  have hstill : h.Edge parent c := (hh.edges parent c).mpr (.inl ⟨hedge, fun he => hnew he.2⟩)
  refine (adopt_moves (hh.size ▸ hc) (hh.size ▸ hfresh.lt_size) hstill).mono (fun _ hk => hk)
    (fun _ k hk => ?_) fun _ _ _ => trivial
  obtain ⟨m, hm, hfound, rfl⟩ := hk
  exact hh.moveEdge hfresh.lt_size hc hne hpar hnew hm hfound

theorem adoptAll_inserted (cs : List NodeId) (hnd : cs.Nodup) (hcs : ∀ c ∈ cs, g.Edge parent c ∧ ¬ moved c) :
    Meets (g.Inserted parent moved id) (cs.forM fun c => adopt c parent id)
      (fun _ h => g.Inserted parent (fun b => moved b ∨ b ∈ cs) id h) fun _ _ => True := by
  induction cs generalizing moved with
  | nil => exact Meets.pure fun h hh => hh.congr (by simp)
  | cons c cs ih =>
    obtain ⟨hnot, hnd⟩ := List.nodup_cons.mp hnd
    obtain ⟨hedge, hnew⟩ := hcs c (by simp)
    refine Meets.bind (adopt_inserted hg hfresh hedge hnew) fun _ => ?_
    have hrest : ∀ b ∈ cs, g.Edge parent b ∧ ¬ (moved b ∨ b = c) := by
      intro b hb
      obtain ⟨hb', hfree⟩ := hcs b (by simp [hb])
      refine ⟨hb', ?_⟩
      rintro (hmoved | rfl)
      · exact hfree hmoved
      · exact hnot hb
    refine (ih hnd hrest).mono (fun _ hh => hh) (fun _ h hh => hh.congr fun b => ?_) fun _ _ hh => hh
    rw [List.mem_cons, or_assoc]

end Adopt

theorem insertBetween_inserts (hg : g.Mutual) (parent : NodeId) (child : Option NodeId) (id : NodeId) :
    Meets (· = g) (insertBetween parent child id) (fun _ h => g.Admits (.insert parent child id) ∧
      g.Inserted parent (fun c => child = some c) id h) fun _ _ => True := by
  refine Meets.bind ((checks_requireFresh id).meets g) fun _ => Meets.of_fact fun hfresh => ?_
  refine Meets.bind ((checks_require parent).meets g) fun _ => Meets.of_fact fun hp => ?_
  have hstart : ∀ x : Edit Unit, Meets (g.Inserted parent (fun _ => False) id) x
      (fun _ h => g.Inserted parent (fun c => child = some c) id h) (fun _ _ => True) →
      Meets (· = g) (do link parent id; refresh id; x)
        (fun _ h => g.Inserted parent (fun c => child = some c) id h) fun _ _ => True := fun x hx =>
    Meets.bind (link_exact hp hfresh.lt_size _) fun _ =>
      Meets.bind (refresh_inserted hg hp hfresh.lt_size) fun _ => hx
  cases child with
  | none =>
    have hadmits : g.Admits (.insert parent none id) := ⟨hfresh, hp, by simp⟩
    refine (hstart _ ?_).mono (fun _ hh => hh) (fun _ h hh => ⟨hadmits, hh⟩) fun _ _ hh => hh
    refine (reportOn_keeps (fun _ _ => trivial) _ _ _ _).mono (fun h hh => ?_) (fun _ _ hh => hh)
      fun _ _ hh => hh
    exact hh.congr (by simp)
  | some c =>
    refine Meets.bind ((checks_requireLink parent c).meets g) fun _ => Meets.of_fact fun hedge => ?_
    have hadmits : g.Admits (.insert parent (some c) id) :=
      ⟨hfresh, hp, fun b hb => Option.some.inj hb ▸ hedge⟩
    refine (hstart _ ?_).mono (fun _ hh => hh) (fun _ h hh => ⟨hadmits, hh⟩) fun _ _ hh => hh
    refine Meets.bind (adopt_inserted hg hfresh hedge not_false) fun _ => ?_
    refine (reportOn_keeps (fun _ _ => trivial) _ _ _ _).mono (fun h hh => ?_) (fun _ _ hh => hh)
      fun _ _ hh => hh
    exact hh.congr fun b => by simp [eq_comm]

theorem insertBetweenChildren_inserts (hg : g.Mutual) (parent id : NodeId) :
    Meets (· = g) (insertBetweenChildren parent id) (fun _ h => g.Admits (.insertAbove parent id) ∧
      g.Inserted parent (g.Edge parent) id h) fun _ _ => True := by
  refine Meets.bind ((checks_requireFresh id).meets g) fun _ => Meets.of_fact fun hfresh => ?_
  refine Meets.bind (M := fun n h => h = g ∧ g.get? parent = some n)
    (Meets.node (fun h n hh hn => ⟨hh, hh ▸ hn⟩) fun _ _ _ => trivial) fun n => Meets.of_fact fun hn => ?_
  have hedges : ∀ c, c ∈ n.children.toList ↔ g.Edge parent c := by
    intro c
    rw [Edge, childrenOf_eq hn, IdSet.mem_def]
  refine Meets.bind (link_exact (lt_size hn) hfresh.lt_size _) fun _ => ?_
  refine Meets.bind (refresh_inserted hg (lt_size hn) hfresh.lt_size) fun _ => ?_
  refine Meets.bind (adoptAll_inserted hg hfresh _ (IdSet.nodup_toList _)
    fun c hc => ⟨(hedges c).mp hc, not_false⟩) fun _ => ?_
  refine (reportOn_keeps (fun _ _ => trivial) _ _ _ _).mono (fun h hh => ?_) (fun _ _ hh => hh)
    fun _ _ hh => hh
  exact ⟨⟨hfresh, lt_size hn⟩, hh.congr fun c => by rw [false_or, hedges]⟩

end Splice

namespace Plan

variable {g h : Plan} {parent id : NodeId} {moved : NodeId → Prop}

/-- A node with one input stands below a parent, and above those of its former children that were moved.
It holds its output as the parent does, unless it places its output itself. -/
structure Grafted (g : Plan) (parent : NodeId) (moved : NodeId → Prop) (id : NodeId) (h : Plan) : Prop
    extends Inserted g parent moved id h where
  helpers : ∀ c n m, moved c → g.get? c = some n → h.get? c = some m →
    m.op.helpers = n.op.helpers.map (Operator.swap parent id)
  placed : ∃ n r op, g.core? id = some n ∧ g.output? parent = some r ∧
    h.core? id = some { n with
      op
      inputs := .unary (some parent)
      output := n.output.heldBy (if n.kind.placesOutput then n.output.holders else r.holders) }

/-- A node without parents whose inputs fit a unary kind names no input. -/
theorem Unplaced.inputs_eq (hfresh : g.Unplaced id) (hg : g.Valid) {n : Node} (hn : g.get? id = some n)
    (harity : n.inputs.arity = n.op.arity) : n.inputs = .unary none := by
  obtain ⟨m, hm, hunary, hparents, _⟩ := hfresh
  cases hm.symm.trans hn
  rw [n.inputs_of_orphan (hg.nodes id n hn).named harity hparents, Operator.arity, ← Node.kind, hunary]
  rfl

theorem Inserted.grafted (hh : g.Inserted parent moved id h) (hg : g.Valid) (hfresh : g.Unplaced id)
    (hp : parent < g.size) (harity : ∀ i n, g.get? i = some n → n.inputs.arity = n.op.arity) :
    g.Grafted parent moved id h where
  toInserted := hh
  helpers c n m hc hn hm := by
    obtain ⟨op, hcore, hread⟩ := hh.children c n.core hc (core?_eq hn)
    rw [core?_eq hm, Option.some.injEq] at hcore
    have hop : m.op = op := (congrArg Node.op hcore :)
    rw [hop, Operator.helpers_of_refresh hread, Operator.helpers_replaceHelper]
    rfl
  placed := by
    obtain ⟨n, hn⟩ := lt_size_iff.mp hfresh.lt_size
    obtain ⟨p, hp⟩ := lt_size_iff.mp hp
    have hr : g.output? parent = some p.output := by rw [output?, hp, Option.map_some]
    have hvacant := hfresh.inputs_eq hg hn (harity id n hn)
    obtain ⟨m, hm, hunary, _⟩ := hfresh
    cases hm.symm.trans hn
    obtain ⟨op, holders, hcore, _, hholders⟩ := hh.node n.core (core?_eq hn)
    refine ⟨n.core, p.output, op, core?_eq hn, hr, ?_⟩
    rw [hcore, hholders p.output hvacant hunary hr]
    congr 2
    exact congrArg (Inputs.attach · parent) hvacant

end Plan

/-- Putting a node into a valid plan whose inputs fit their operators leads the edge, or all the edges,
of its parent through the node, and changes nothing else: the child names the node in every place of
the parent, the node is held by whoever holds the parent's output, and no other holders change. -/
theorem insertion_effect_exact (d : Draft) (parent id : NodeId) (hnum : d.plan.Numbered)
    (harity : ∀ i n, d.plan.get? i = some n → n.inputs.arity = n.op.arity)
    (hv : d.plan.validate = .ok ()) :
    (∀ c d', (Splice.insertBetween parent (some c) id).apply d = (.ok (), d') →
      d.plan.Grafted parent (· = c) id d'.plan) ∧
    ∀ d', (Splice.insertBetweenChildren parent id).apply d = (.ok (), d') →
      d.plan.Grafted parent (d.plan.Edge parent) id d'.plan ∧
      ∀ c, d'.plan.Edge parent c ↔ c = id := by
  have hvalid : d.plan.Valid := (Plan.validate_eq_ok_iff hnum).mp hv
  constructor
  · intro c d' hok
    have hins := Splice.insertBetween_inserts hvalid.edges parent (some c) id d rfl
    rw [hok] at hins
    obtain ⟨⟨hfresh, hp, _⟩, hins⟩ := hins
    refine Plan.Inserted.grafted (hins.congr fun b => ?_) hvalid hfresh hp harity
    rw [Option.some.injEq, eq_comm]
  · intro d' hok
    have hins := Splice.insertBetweenChildren_inserts hvalid.edges parent id d rfl
    rw [hok] at hins
    obtain ⟨⟨hfresh, hp⟩, hins⟩ := hins
    refine ⟨hins.grafted hvalid hfresh hp harity, fun c => ?_⟩
    rw [hins.edges]
    constructor
    · rintro (⟨hedge, hnot⟩ | ⟨_, hc⟩ | ⟨hpar, hedge⟩)
      · exact absurd ⟨rfl, hedge⟩ hnot
      · exact hc
      · exact absurd (hpar ▸ hedge) (hfresh.not_edge_from c)
    · intro hc
      exact .inr (.inl ⟨rfl, hc⟩)

def unshuffled : Draft :=
  Call.afterAll [.build (.create "in" [⟨"a", .integer, ∅⟩] (.singleton 1)),
    .build (.sortBy 0 "sorted" "a"), .build (.concat [0, 1] "both" none),
    .addNode .shuffle "mixed" [⟨"", "a", 0, .integer, ∅⟩] (.singleton 2)] ⟨∅, []⟩

theorem unshuffled_insertion : unshuffled.plan.validate = .ok () ∧
    ((Splice.insertBetween 0 (some 2) 3).apply unshuffled).1 = .ok () ∧
    ((Splice.insertBetweenChildren 0 3).apply unshuffled).1 = .ok () ∧
    unshuffled.plan.Grafted 0 (· = 2) 3 ((Splice.insertBetween 0 (some 2) 3).apply unshuffled).2.plan ∧
    ∀ c, ((Splice.insertBetweenChildren 0 3).apply unshuffled).2.plan.Edge 0 c ↔ c = 3 := by
  have hv : unshuffled.plan.validate = .ok () := by decide +kernel
  have hone : ((Splice.insertBetween 0 (some 2) 3).apply unshuffled).1 = .ok () := by decide +kernel
  have hall : ((Splice.insertBetweenChildren 0 3).apply unshuffled).1 = .ok () := by decide +kernel
  have hreached : Reached (fun _ _ => True) unshuffled :=
    Reached.start.afterAll (by simp [Call.AllAllowed])
  have heffect := insertion_effect_exact unshuffled 0 3 (fun i n hn => (hreached.linked.nodes i n hn).id)
    (fun i n hn => (hreached.linked.nodes i n hn).arity) hv
  exact ⟨hv, hone, hall, heffect.1 2 _ (Prod.ext hone rfl), (heffect.2 _ (Prod.ext hall rfl)).2⟩

end PartyPlan
