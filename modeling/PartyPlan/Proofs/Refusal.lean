import PartyPlan.Proofs.Call
import PartyPlan.Proofs.Lookup
import PartyPlan.Proofs.Validity

/-! When splicing is all or nothing. A splice checks its arguments first and changes edges next; only
then are columns looked up in the new inputs. A look-up that fails refuses the splice and leaves it
half done. -/
namespace PartyPlan

/-! What a splice asks for, and what its look-ups have to find. -/

/-- A node is put into the edges of a plan or taken out. -/
inductive Splicing where
  | remove (parent : NodeId) (child : Option NodeId) (id : NodeId)
  | insert (parent : NodeId) (child : Option NodeId) (id : NodeId)
  | insertAbove (parent id : NodeId)

def Splicing.run : Splicing → Edit Unit
  | remove parent child id => Splice.removeBetween parent child id
  | insert parent child id => Splice.insertBetween parent child id
  | insertAbove parent id => Splice.insertBetweenChildren parent id

namespace Plan

def UnaryShaped (g : Plan) (id : NodeId) : Prop :=
  ∃ n, g.get? id = some n ∧ n.kind.arity = .unary ∧ n.parents.size ≤ 1 ∧ n.children.size ≤ 1

def Unplaced (g : Plan) (id : NodeId) : Prop :=
  ∃ n, g.get? id = some n ∧ n.kind.arity = .unary ∧ n.parents = ∅ ∧ n.children = ∅ ∧ ¬ id ∈ g.roots

theorem Unplaced.lt_size {g : Plan} {id : NodeId} (h : g.Unplaced id) : id < g.size :=
  lt_size_iff.mpr (h.imp fun _ hn => hn.1)

def Admits (g : Plan) : Splicing → Prop
  | .remove parent child id => g.UnaryShaped id ∧ g.Edge parent id ∧
    match child with
    | some c => g.Edge id c
    | none => ∀ c, ¬ g.Edge id c
  | .insert parent child id => g.Unplaced id ∧ parent < g.size ∧ ∀ c, child = some c → g.Edge parent c
  | .insertAbove parent id => g.Unplaced id ∧ parent < g.size

def FindsBelow (g : Plan) (id parent : NodeId) : Prop :=
  ∀ n, g.get? id = some n → n.op.Found ((n.inputs.attach parent).read g.output?)

def FindsInstead (g : Plan) (c old new : NodeId) : Prop :=
  ∀ n, g.get? c = some n → n.op.Found ((n.inputs.replace old new).read g.output?)

/-- Every node that gets a new parent finds its columns there. -/
def Fits (g : Plan) : Splicing → Prop
  | .remove parent child id => ∀ c, child = some c → g.FindsInstead c id parent
  | .insert parent child id =>
    g.FindsBelow id parent ∧ ∀ c, child = some c → g.FindsInstead c parent id
  | .insertAbove parent id => g.FindsBelow id parent ∧ ∀ c, g.Edge parent c → g.FindsInstead c parent id

/-- A node that is its own parent and child is taken out from between itself and itself, and the look-up
that fails takes over nothing before it does. -/
def Idle (g : Plan) : Splicing → Prop
  | .remove parent _ id => parent = id ∧ ∃ n, g.get? id = some n ∧ id ∈ n.parents ∧
    (n.op.refresh (n.inputs.read g.output?)).value = n.op
  | _ => False

end Plan

/-! Checks come first and change nothing. -/

namespace Edit

variable {x y : Edit Unit} {C D : Plan → Prop}

/-- Work that refuses just the plans of which a condition fails, and changes nothing. -/
def Checks (x : Edit Unit) (C : Plan → Prop) : Prop :=
  ∀ d : Draft, (C d.plan ∧ x.apply d = (.ok (), d)) ∨ (¬ C d.plan ∧ ∃ e, x.apply d = (.error e, d))

theorem checks_require (id : NodeId) : Checks (require id) fun g => id < g.size := by
  intro d
  simp only [require, node, apply_bind, apply_ask, Plan.lt_size_iff, Plan.node]
  cases d.plan.get? id with
  | none => exact .inr ⟨by simp, _, rfl⟩
  | some n => exact .inl ⟨⟨n, rfl⟩, rfl⟩

/-- A splice with its conditions: it is carried out, refused at once, or refused midway. -/
def Settles (x : Edit Unit) (d : Draft) (admitted fits idle : Prop) : Prop :=
  (admitted ∧ fits ∧ ∃ d', x.apply d = (.ok (), d')) ∨
  (¬ admitted ∧ ∃ e, x.apply d = (.error e, d)) ∨
  (admitted ∧ ¬ fits ∧ ∃ e d', x.apply d = (.error e, d') ∧ (d'.plan = d.plan ↔ idle))

variable {d : Draft} {fits idle admitted : Prop}

theorem Settles.of_meets (h : Meets (· = d.plan) x (fun _ _ => fits)
    fun _ g => ¬ fits ∧ (g = d.plan ↔ idle)) : Settles x d True fits idle := by
  have hx := h d rfl
  split at hx
  · next u d' he => exact .inl ⟨trivial, hx, d', he⟩
  · next e d' he => exact .inr (.inr ⟨trivial, hx.1, e, d', he, hx.2⟩)

theorem Settles.congr {admitted' : Prop} (ha : admitted ↔ admitted')
    (h : Settles x d admitted fits idle) : Settles x d admitted' fits idle := propext ha ▸ h

theorem Settles.of_apply_eq (h : Settles y d admitted fits idle) (hxy : x.apply d = y.apply d) :
    Settles x d admitted fits idle := by
  unfold Settles at h ⊢
  rwa [hxy]

theorem Settles.check {f : Unit → Edit Unit} (hx : Checks x C)
    (hf : C d.plan → Settles (f ()) d admitted fits idle) :
    Settles (x >>= f) d (C d.plan ∧ admitted) fits idle := by
  unfold Settles
  rcases hx d with ⟨hc, hok⟩ | ⟨hc, e, he⟩
  · rw [apply_bind, hok]
    rcases hf hc with ⟨ha, hrest⟩ | ⟨ha, hrest⟩ | ⟨ha, hrest⟩
    · exact .inl ⟨⟨hc, ha⟩, hrest⟩
    · exact .inr (.inl ⟨fun h => ha h.2, hrest⟩)
    · exact .inr (.inr ⟨⟨hc, ha⟩, hrest⟩)
  · rw [apply_bind, he]
    exact .inr (.inl ⟨fun h => hc h.1, e, rfl⟩)

theorem Settles.node {id : NodeId} {f : Node → Edit Unit}
    (hf : ∀ n, d.plan.get? id = some n → Settles (f n) d admitted fits idle) :
    Settles (Edit.node id >>= f) d (id < d.plan.size ∧ admitted) fits idle := by
  unfold Settles
  rw [Edit.node, apply_bind, apply_ask, Plan.node, Plan.lt_size_iff]
  cases hn : d.plan.get? id with
  | none => exact .inr (.inl ⟨by simp, _, rfl⟩)
  | some n =>
    have hthere : ∃ m, some n = some m := ⟨n, rfl⟩
    simp only [hthere, true_and]
    exact hf n hn

end Edit

namespace Splice
open Edit

theorem checks_requireUnaryShape (id : NodeId) : Checks (requireUnaryShape id) (·.UnaryShaped id) := by
  intro d
  simp only [requireUnaryShape, node, apply_bind, apply_ask, Plan.UnaryShaped, Plan.node]
  cases d.plan.get? id with
  | none => exact .inr ⟨by simp, _, rfl⟩
  | some n =>
    by_cases h : n.kind.arity ≠ .unary ∨ 1 < n.parents.size ∨ 1 < n.children.size
    · simp only [h, if_true]
      refine .inr ⟨?_, _, rfl⟩
      rintro ⟨m, hm, hunary, hp, hc⟩
      cases hm
      rcases h with h | h | h
      · exact h hunary
      · omega
      · omega
    · simp only [h, if_false]
      refine .inl ⟨⟨n, rfl, ?_⟩, rfl⟩
      simp only [not_or, not_not, Nat.not_lt] at h
      exact h

theorem checks_requireFresh (id : NodeId) : Checks (requireFresh id) (·.Unplaced id) := by
  intro d
  simp only [requireFresh, apply_bind]
  rcases checks_requireUnaryShape id d with ⟨⟨n, hn, hunary, _⟩, hok⟩ | ⟨hno, e, he⟩
  · have hnode : d.plan.node id = .ok n := by rw [Plan.node, hn]
    simp only [hok, node, apply_ask, hnode, apply_plan]
    by_cases h : (!n.parents.isEmpty || !n.children.isEmpty || decide (id ∈ d.plan.roots)) = true
    · simp only [h, if_true]
      refine .inr ⟨?_, _, rfl⟩
      rintro ⟨m, hm, _, hp, hc, hroot⟩
      cases hm.symm.trans hn
      simp [hp, hc, hroot] at h
      cases h
    · simp only [h]
      refine .inl ⟨⟨n, hn, hunary, ?_⟩, rfl⟩
      simpa [IdSet.isEmpty_iff, and_assoc] using h
  · simp only [he]
    refine .inr ⟨?_, e, rfl⟩
    rintro ⟨n, hn, hunary, hp, hc, _⟩
    exact hno ⟨n, hn, hunary, by simp [hp, IdSet.size], by simp [hc, IdSet.size]⟩

theorem checks_requireLink (p c : NodeId) : Checks (requireLink p c) (·.Edge p c) := by
  intro d
  simp only [requireLink, apply_bind, apply_plan, Plan.Edge, ← Plan.hasEdge_iff]
  cases d.plan.hasEdge p c with
  | false => exact .inr ⟨by simp, _, rfl⟩
  | true => exact .inl ⟨rfl, rfl⟩

end Splice

theorem IdSet.toList_of_mem_eq {s : IdSet} {a : Nat} (h : ∀ c ∈ s, c = a) :
    s.toList = [] ∨ s.toList = [a] := by
  have hnodup := IdSet.nodup_toList s
  cases hs : s.toList with
  | nil => exact .inl rfl
  | cons b rest =>
    have hall : ∀ c ∈ b :: rest, c = a := fun c hc => h c (IdSet.mem_def.mpr (hs ▸ hc))
    rw [hs, List.nodup_cons] at hnodup
    have hnone : rest = [] := by
      refine List.eq_nil_iff_forall_not_mem.mpr fun c hc => hnodup.1 ?_
      rwa [hall b (by simp), ← hall c (by simp [hc])]
    exact .inr (by rw [hnone, hall b (by simp)])

theorem IdSet.insert_erase {s : IdSet} {a : Nat} (h : a ∈ s) : (s.erase a).insert a = s := by
  ext b
  rw [IdSet.mem_insert, IdSet.mem_erase]
  by_cases hb : b = a
  · simp [hb, h]
  · simp [hb]

theorem Operator.swap_self (a : NodeId) : swap a a = fun b => b := by
  funext b
  unfold swap
  split
  · next h => exact h.symm
  · rfl

/-- A node whose parent is replaced by itself is as it was. -/
theorem Node.withParentReplaced_self {n : Node} {p : NodeId} (hp : p ∈ n.parents) :
    n.withParentReplaced p p = n := by
  have hinputs : n.inputs.replace p p = n.inputs := by
    cases n.inputs <;> simp [Inputs.replace, Operator.swap_self]
  have hop : n.op.replaceHelper p p = n.op := by
    cases n.op <;> simp [Operator.replaceHelper, Operator.swap_self]
  rw [withParentReplaced, hinputs, hop, IdSet.insert_erase hp]

/-! Between the first step of a splice and the last. -/

namespace Plan

variable {g h : Plan} {id p c i old new parent : NodeId} {n m : Node} {k : Node → Node}
  {rest : List NodeId}

theorem findsInstead_iff {op : Operator} {inputs : Inputs} (hr : g.reading c = some (op, inputs)) :
    g.FindsInstead c old new ↔ op.Found ((inputs.replace old new).read g.output?) := by
  obtain ⟨n, hn, he⟩ := Option.map_eq_some_iff.mp hr
  cases he
  exact ⟨fun h => h n hn, fun h m hm => Option.some.inj (hn.symm.trans hm) ▸ h⟩

theorem findsBelow_iff {op : Operator} {inputs : Inputs} (hr : g.reading id = some (op, inputs)) :
    g.FindsBelow id parent ↔ op.Found ((inputs.attach parent).read g.output?) := by
  obtain ⟨n, hn, he⟩ := Option.map_eq_some_iff.mp hr
  cases he
  exact ⟨fun h => h n hn, fun h m hm => Option.some.inj (hn.symm.trans hm) ▸ h⟩

/-- A node is linked in below `parent`, and the children of `parent` in a list are still to be moved
below it. -/
structure Midway (g : Plan) (parent id : NodeId) (rest : List NodeId) (h : Plan) : Prop where
  size : h.size = g.size
  widths : ∀ p, (h.output? p).map Relation.width = (g.output? p).map Relation.width
  linked : parent ∈ h.parentsOf id
  waiting : ∀ c ∈ rest, c ∈ h.childrenOf parent ∧ h.reading c = g.reading c

/-- The node that is linked in looks up just what it was to find. -/
theorem found_addEdge_iff (hm : (g.addEdge parent id).get? id = some m) :
    m.op.Found (m.inputs.read (g.addEdge parent id).output?) ↔ g.FindsBelow id parent := by
  have hread := reading_eq hm
  rw [reading_addEdge] at hread
  obtain ⟨⟨op, inputs⟩, hr, he⟩ := Option.map_eq_some_iff.mp hread
  obtain ⟨hop, hin⟩ := Prod.mk.inj he
  rw [output?_addEdge, findsBelow_iff hr, ← hop, ← hin]

theorem midway_addEdge (hp : parent < g.size) (hid : id < g.size)
    (hcs : ∀ c ∈ rest, g.Edge parent c ∧ c ≠ id) :
    g.Midway parent id rest ((g.addEdge parent id).lookedUp id m) where
  size := by simp [addEdge]
  widths p := by simp
  linked := by
    rw [parentsOf_lookedUp, mem_parentsOf_addEdge hid]
    exact .inl ⟨rfl, rfl⟩
  waiting c hc := by
    obtain ⟨hedge, hne⟩ := hcs c hc
    rw [childrenOf_lookedUp, mem_childrenOf_addEdge hp, reading_lookedUp_of_ne hne.symm,
      reading_addEdge_of_ne hne.symm]
    exact ⟨.inr hedge, rfl⟩

theorem Midway.heldBy (hh : g.Midway parent id rest h) (hcs : ∀ c ∈ rest, c ≠ id) (s : PartySet) :
    g.Midway parent id rest (h.update id (.heldBy s)) where
  size := by rw [size_update, hh.size]
  widths p := by
    rw [← hh.widths p, output?, output?, get?_update]
    split
    · rw [Option.map_map, Option.map_map, Option.map_map]
      rfl
    · rfl
  linked := by
    rw [parentsOf_update_of_eq (f := .heldBy s) fun _ => rfl]
    exact hh.linked
  waiting c hc := by
    rw [childrenOf_heldBy, reading_update_of_ne (hcs c hc).symm]
    exact hh.waiting c hc

/-- A child that is moved looks up just what it was to find. -/
theorem found_moveEdge_iff (hr : h.reading c = g.reading c)
    (hw : ∀ p, (h.output? p).map Relation.width = (g.output? p).map Relation.width)
    (hm : (h.moveEdge c old new).get? c = some m) :
    m.op.Found (m.inputs.read (h.moveEdge c old new).output?) ↔ g.FindsInstead c old new := by
  have hread := reading_eq hm
  rw [reading_moveEdge, hr] at hread
  obtain ⟨⟨op, inputs⟩, hr, he⟩ := Option.map_eq_some_iff.mp hread
  obtain ⟨hop, hin⟩ := Prod.mk.inj he
  rw [output?_moveEdge, findsInstead_iff hr, ← hop, ← hin, Operator.found_replaceHelper]
  exact Operator.found_read_congr hw _ _

theorem Midway.found_iff (hh : g.Midway parent id (c :: rest) h)
    (hm : (h.moveEdge c parent id).get? c = some m) :
    m.op.Found (m.inputs.read (h.moveEdge c parent id).output?) ↔ g.FindsInstead c parent id :=
  found_moveEdge_iff (hh.waiting c (by simp)).2 hh.widths hm

theorem Midway.moveEdge (hh : g.Midway parent id (c :: rest) h) (hc : c < g.size) (hid : id < g.size)
    (hne : c ≠ id) (hnew : ¬ c ∈ rest) :
    g.Midway parent id rest ((h.moveEdge c parent id).lookedUp c m) where
  size := by simp [Plan.moveEdge, hh.size]
  widths p := by
    rw [output?_lookedUp, output?_moveEdge]
    exact hh.widths p
  linked := by
    rw [parentsOf_lookedUp, mem_parentsOf_moveEdge (hh.size ▸ hc)]
    exact .inr ⟨hh.linked, fun h => hne h.1.symm⟩
  waiting b hb := by
    have hbc : c ≠ b := fun h => hnew (h ▸ hb)
    rw [childrenOf_lookedUp, mem_childrenOf_moveEdge (hh.size ▸ hid), reading_lookedUp_of_ne hbc,
      reading_moveEdge_of_ne hbc]
    obtain ⟨hchild, hread⟩ := hh.waiting b (by simp [hb])
    exact ⟨.inr ⟨hchild, fun h => hbc h.2.symm⟩, hread⟩

end Plan

namespace Splice
open Edit Plan

variable {g : Plan} {parent id c : NodeId} {rest : List NodeId}

theorem link_exact (hp : parent < g.size) (hid : id < g.size) (R : Error → Plan → Prop) :
    Meets (· = g) (link parent id) (fun _ h => h = g.addEdge parent id) R := by
  refine Meets.link (fun h hh _ _ => hh ▸ rfl) fun h e hh hno => ?_
  subst hh
  exact absurd ⟨hp, hid⟩ hno

theorem refresh_midway (rest : List NodeId) (hp : parent < g.size) (hid : id < g.size)
    (hcs : ∀ c ∈ rest, g.Edge parent c ∧ c ≠ id) : Meets (· = g.addEdge parent id) (refresh id)
      (fun _ h => g.Midway parent id rest h ∧ g.FindsBelow id parent)
      fun _ h => parent ∈ h.parentsOf id ∧ ¬ g.FindsBelow id parent := by
  have hlt : id < (g.addEdge parent id).size := by simpa [addEdge] using hid
  refine Meets.bind (M := fun _ h => g.Midway parent id rest h ∧ g.FindsBelow id parent) ?_ fun _ => ?_
  · refine Meets.lookUp (fun h m hh hm hfound => ?_) (fun h m e hh hm hmissed => ?_) fun h hh hno => ?_
    · subst hh
      exact ⟨midway_addEdge hp hid hcs, (found_addEdge_iff hm).mp hfound⟩
    · subst hh
      exact ⟨(midway_addEdge hp hid hcs).linked, mt (found_addEdge_iff hm).mpr hmissed⟩
    · subst hh
      exact absurd hlt hno
  · refine Meets.refreshHolders (fun h n hh _ _ => hh) (fun h n s hh _ _ => ?_) fun h hh hno => ?_
    · exact ⟨hh.1.heldBy (fun c hc => (hcs c hc).2) s, hh.2⟩
    · exact absurd (hh.1.size ▸ hid) hno

/-- The edge of a child is moved, and then its columns are looked up. -/
theorem adopt_moves {old new : NodeId} (hc : c < g.size) (hnew : new < g.size)
    (hedge : g.Edge old c) : Meets (· = g) (adopt c old new)
      (fun _ h => ∃ m, (g.moveEdge c old new).get? c = some m ∧
        m.op.Found (m.inputs.read (g.moveEdge c old new).output?) ∧
        h = (g.moveEdge c old new).lookedUp c m)
      fun _ h => ∃ m, (g.moveEdge c old new).get? c = some m ∧
        ¬ m.op.Found (m.inputs.read (g.moveEdge c old new).output?) ∧
        h = (g.moveEdge c old new).lookedUp c m := by
  refine Meets.bind (M := fun _ h => h = g.moveEdge c old new) ?_ fun _ => ?_
  · refine Meets.replaceParent (fun h hh _ _ _ _ => hh ▸ rfl) fun h e hh hno => ?_
    subst hh
    exact absurd ⟨hc, hnew, hasEdge_iff.mpr hedge⟩ hno
  refine Meets.lookUp (fun h m hh hm hfound => ?_) (fun h m e hh hm hmissed => ?_) fun h hh hno => ?_
  · subst hh
    exact ⟨m, hm, hfound, rfl⟩
  · subst hh
    exact ⟨m, hm, hmissed, rfl⟩
  · subst hh
    exact absurd (by simpa [moveEdge] using hc) hno

theorem adopt_midway (hc : c < g.size) (hid : id < g.size) (hne : c ≠ id) (hnew : ¬ c ∈ rest) :
    Meets (g.Midway parent id (c :: rest)) (adopt c parent id)
      (fun _ h => g.Midway parent id rest h ∧ g.FindsInstead c parent id)
      fun _ h => parent ∈ h.parentsOf id ∧ ¬ g.FindsInstead c parent id := by
  refine Meets.of_each fun h hh => ?_
  have hedge : h.Edge parent c := (hh.waiting c (by simp)).1
  refine (adopt_moves (hh.size ▸ hc) (hh.size ▸ hid) hedge).mono (fun _ hk => hk)
    (fun _ k hk => ?_) fun _ k hk => ?_
  · obtain ⟨m, hm, hfound, rfl⟩ := hk
    exact ⟨hh.moveEdge hc hid hne hnew, (hh.found_iff hm).mp hfound⟩
  · obtain ⟨m, hm, hmissed, rfl⟩ := hk
    exact ⟨(hh.moveEdge (m := m) hc hid hne hnew).linked, mt (hh.found_iff hm).mpr hmissed⟩

theorem reportOn_done {F : Prop} (pre post : String) (details : List (String × String))
    (R : Error → Plan → Prop) :
    Meets (fun h => id < h.size ∧ F) (reportOn id pre post details) (fun _ _ => F) R := by
  refine Meets.bind (M := fun _ _ => F) (Meets.fetch (fun h n hh _ => hh.2) fun h hh hno => ?_) fun n =>
    Meets.report fun h hh => hh
  exact absurd hh.1 hno

theorem adoptAll_midway (hid : id < g.size) (cs : List NodeId) (hnd : cs.Nodup)
    (hcs : ∀ c ∈ cs, c < g.size ∧ c ≠ id) :
    Meets (g.Midway parent id cs) (cs.forM fun c => adopt c parent id)
      (fun _ h => g.Midway parent id [] h ∧ ∀ c ∈ cs, g.FindsInstead c parent id)
      fun _ h => parent ∈ h.parentsOf id ∧ ¬ ∀ c ∈ cs, g.FindsInstead c parent id := by
  induction cs with
  | nil => exact Meets.pure fun h hh => ⟨hh, by simp⟩
  | cons c cs ih =>
    obtain ⟨hnew, hnd⟩ := List.nodup_cons.mp hnd
    obtain ⟨hc, hne⟩ := hcs c (by simp)
    have hfirst : Meets (g.Midway parent id (c :: cs)) (adopt c parent id) _ _ :=
      adopt_midway hc hid hne hnew
    have hrest := ih hnd fun b hb => hcs b (by simp [hb])
    refine Meets.bind (hfirst.mono (fun _ hh => hh) (fun _ _ hh => hh) fun _ h hh => ?_) fun _ =>
      Meets.of_fact fun hfound => hrest.mono (fun _ hh => hh) (fun _ h hh => ?_) fun _ h hh => ?_
    · exact ⟨hh.1, fun hall => hh.2 (hall c (by simp))⟩
    · exact ⟨hh.1, List.forall_mem_cons.mpr ⟨hfound, hh.2⟩⟩
    · exact ⟨hh.1, fun hall => hh.2 fun b hb => hall b (by simp [hb])⟩

/-- A splice that is refused once its node is linked in has changed the plan. -/
theorem refused_of_linked {s : Splicing} {h : Plan} {F : Prop} (hfresh : g.Unplaced id)
    (hidle : ¬ g.Idle s) (hF : g.Fits s → F) (hh : parent ∈ h.parentsOf id ∧ ¬ F) :
    ¬ g.Fits s ∧ (h = g ↔ g.Idle s) := by
  obtain ⟨n, hn, _, hnone, _⟩ := hfresh
  refine ⟨mt hF hh.2, iff_of_false ?_ hidle⟩
  rintro rfl
  rw [parentsOf_eq hn, hnone] at hh
  exact IdSet.not_mem_empty parent hh.1

theorem child_ne_of_unplaced (hv : g.validate = .ok ()) (hfresh : g.Unplaced id)
    (hc : g.Edge parent c) : c ≠ id := by
  obtain ⟨n, hn, _, hnone, _⟩ := hfresh
  obtain ⟨q, hq⟩ := exists_parent_of_validate hv hc
  rintro rfl
  rw [parentsOf_eq hn, hnone] at hq
  exact IdSet.not_mem_empty q hq

theorem insertBetween_settles {d : Draft} (hv : d.plan.validate = .ok ()) (parent : NodeId)
    (child : Option NodeId) (id : NodeId) : Settles (insertBetween parent child id) d
      (d.plan.Admits (.insert parent child id)) (d.plan.Fits (.insert parent child id))
      (d.plan.Idle (.insert parent child id)) := by
  obtain ⟨g, journal⟩ := d
  cases child with
  | none =>
    have hadmits : g.Unplaced id ∧ parent < g.size ∧ True ↔ g.Admits (.insert parent none id) := by
      simp [Admits]
    refine .congr hadmits (.check (checks_requireFresh id) fun hfresh =>
      .check (checks_require parent) fun hp => .of_meets ?_)
    have hid := hfresh.lt_size
    refine Meets.bind (link_exact hp hid _) fun _ => ?_
    refine Meets.bind ((refresh_midway [] hp hid (by simp)).mono (fun _ hh => hh) (fun _ h hh => ?_)
      fun _ h hh => ?_) fun _ => reportOn_done _ _ _ _
    · exact ⟨hh.1.size ▸ hid, hh.2, by simp⟩
    · exact refused_of_linked hfresh not_false (fun hfits => hfits.1) hh
  | some c =>
    have hadmits : g.Unplaced id ∧ parent < g.size ∧ g.Edge parent c ∧ True ↔
        g.Admits (.insert parent (some c) id) := by simp [Admits]
    refine .congr hadmits (.check (checks_requireFresh id) fun hfresh =>
      .check (checks_require parent) fun hp => .check (checks_requireLink parent c) fun hedge =>
        .of_meets ?_)
    have hid := hfresh.lt_size
    have hne := child_ne_of_unplaced hv hfresh hedge
    have hc : c < g.size := (inRange_of_validate hv).children parent c hedge
    refine Meets.bind (link_exact hp hid _) fun _ => ?_
    refine Meets.bind ((refresh_midway [c] hp hid (by simpa using ⟨hedge, hne⟩)).mono (fun _ hh => hh)
      (fun _ h hh => hh) fun _ h hh => ?_) fun _ => Meets.of_fact fun hbelow => ?_
    · exact refused_of_linked hfresh not_false (fun hfits => hfits.1) hh
    refine Meets.bind ((adopt_midway hc hid hne (by simp)).mono (fun _ hh => hh) (fun _ h hh => ?_)
      fun _ h hh => ?_) fun _ => reportOn_done _ _ _ _
    · refine ⟨hh.1.size ▸ hid, hbelow, ?_⟩
      rintro b ⟨⟩
      exact hh.2
    · exact refused_of_linked hfresh not_false (fun hfits => hfits.2 c rfl) hh

theorem insertBetweenChildren_settles {d : Draft} (hv : d.plan.validate = .ok ())
    (parent id : NodeId) : Settles (insertBetweenChildren parent id) d
      (d.plan.Admits (.insertAbove parent id)) (d.plan.Fits (.insertAbove parent id))
      (d.plan.Idle (.insertAbove parent id)) := by
  obtain ⟨g, journal⟩ := d
  have hadmits : g.Unplaced id ∧ parent < g.size ∧ True ↔ g.Admits (.insertAbove parent id) := by
    simp [Admits]
  refine .congr hadmits (.check (checks_requireFresh id) fun hfresh => .node fun n hn => .of_meets ?_)
  have hid := hfresh.lt_size
  have hedges : ∀ c, c ∈ n.children.toList ↔ g.Edge parent c := by
    intro c
    rw [Edge, childrenOf_eq hn, IdSet.mem_def]
  have hwait : ∀ c ∈ n.children.toList, g.Edge parent c ∧ c ≠ id := by
    intro c hc
    exact ⟨(hedges c).mp hc, child_ne_of_unplaced hv hfresh ((hedges c).mp hc)⟩
  have hlt : ∀ c ∈ n.children.toList, c < g.size ∧ c ≠ id := by
    intro c hc
    exact ⟨(inRange_of_validate hv).children parent c ((hedges c).mp hc), (hwait c hc).2⟩
  refine Meets.bind (link_exact (lt_size hn) hid _) fun _ => ?_
  refine Meets.bind ((refresh_midway _ (lt_size hn) hid hwait).mono (fun _ hh => hh) (fun _ h hh => hh)
    fun _ h hh => ?_) fun _ => Meets.of_fact fun hbelow => ?_
  · exact refused_of_linked hfresh not_false (fun hfits => hfits.1) hh
  refine Meets.bind ((adoptAll_midway hid _ (IdSet.nodup_toList _) hlt).mono (fun _ hh => hh)
    (fun _ h hh => ?_) fun _ h hh => ?_) fun _ => reportOn_done _ _ _ _
  · exact ⟨hh.1.size ▸ hid, hbelow, fun c hc => hh.2 c ((hedges c).mpr hc)⟩
  · exact refused_of_linked hfresh not_false (fun hfits c hc => hfits.2 c ((hedges c).mp hc)) hh

/-! Taking a node out. -/

/-- A unary node that may have itself for a child, but no other node. -/
structure Detachable (id : NodeId) (g : Plan) : Prop where
  parents : ∀ p ∈ g.parentsOf id, p < g.size
  children : ∀ c ∈ g.childrenOf id, c = id
  unary : ∃ n, g.get? id = some n ∧ n.kind.arity = .unary

theorem get?_bereft {n : Node} (hn : g.get? id = some n) (hunary : n.kind.arity = .unary) :
    ∃ n', (g.bereft id n).get? id = some n' ∧ n'.inputs = .unary none ∧ n'.parents = ∅ ∧
      ∀ c ∈ n'.children, c ∈ n.children := by
  have hvacant : Inputs.vacant n.op.arity = .unary none := by
    rw [Operator.arity, ← Node.kind, hunary]
    rfl
  rw [bereft, get?_update, if_pos rfl, get?_disown, get?_update, if_pos rfl, hn]
  by_cases hp : id ∈ n.parents.toList
  · simp [hp, Node.withoutInputs, Node.withoutChild, Node.withoutParents, hvacant]
    tauto
  · simp [hp, Node.withoutInputs, Node.withoutParents, hvacant]

/-- A node that can be detached is left without edges. Where edges are mutual, all that happens is that
its parents forget it. -/
theorem isolate_clears (hg : Detachable id g) (R : Error → Plan → Prop) :
    Meets (· = g) (isolate id) (fun _ h =>
      (∃ n, h.get? id = some n ∧ n.parents = ∅ ∧ n.children = ∅) ∧
        (g.Mutual → h = g.orphaned id)) R := by
  obtain ⟨n, hn, hunary⟩ := hg.unary
  obtain ⟨m, hm, hinputs, hparents, hkids⟩ := get?_bereft hn hunary
  have hself : ∀ c ∈ m.children, c = id := fun c hc =>
    hg.children c (childrenOf_eq hn ▸ hkids c hc)
  refine Meets.bind (M := fun _ h => h = g.bereft id n) (Meets.makeOrphan_bereft ?_ ?_ ?_) fun _ => ?_
  · rintro h rfl
    exact hg.parents
  · rintro h k rfl hk
    rw [Option.some.inj (hk.symm.trans hn)]
  · rintro h rfl hno
    exact absurd (lt_size hn) hno
  refine Meets.bind (Meets.ask_known (node_eq_ok.mpr hm)) fun k => Meets.of_fact fun hk => ?_
  subst hk
  rcases IdSet.toList_of_mem_eq hself with hnil | hone
  · have hnone : k.children = ∅ := IdSet.eq_empty_iff.mpr fun c hc => by
      rw [IdSet.mem_def, hnil] at hc
      exact List.not_mem_nil hc
    rw [hnil]
    exact Meets.pure fun h hh => ⟨⟨k, hh ▸ hm, hparents, hnone⟩, fun hmutual =>
      hh.trans (bereft_eq_orphaned hmutual hn)⟩
  · rw [hone]
    -- a node that is its own child forgets itself; only an edge known at one end is left by now
    have hedge : id ∈ k.children := IdSet.mem_def.mpr (hone ▸ List.mem_singleton.mpr rfl)
    refine Meets.bind (M := fun _ h => h = (g.bereft id n).dropEdge id id (.unary none)) ?_ fun _ =>
      Meets.pure fun h hh => ⟨?_, fun hmutual => ?_⟩
    · refine Meets.removeParent (fun h k' inputs hh _ _ hk' hd => ?_) fun h e hh hno => ?_
      · subst hh
        cases hk'.symm.trans hm
        rw [hinputs] at hd
        cases hd
        rfl
      · subst hh
        refine absurd ?_ (hno k (.unary none) (hasEdge_iff.mpr (childrenOf_eq hm ▸ hedge)) hm)
        rw [hinputs]
        rfl
    · have hget : ((g.bereft id n).dropEdge id id (.unary none)).get? id =
          some ((k.withoutParent id (.unary none)).withoutChild id) := by
        rw [dropEdge, get?_update, if_pos rfl, get?_update, if_pos rfl, hm]
        rfl
      refine ⟨_, hh ▸ hget, ?_, IdSet.eq_empty_iff.mpr fun c hc => ?_⟩
      · simp [Node.withoutChild, Node.withoutParent, hparents, IdSet.erase_eq_self]
      · rw [Node.withoutChild, IdSet.mem_erase] at hc
        exact hc.2 (hself c hc.1)
    · have hkid : id ∈ (g.orphaned id).childrenOf id := by
        rw [← bereft_eq_orphaned hmutual hn, childrenOf_eq hm]
        exact hedge
      exact absurd rfl (mem_childrenOf_orphaned.mp hkid).2

theorem isolate_detachable (R : Error → Plan → Prop) :
    Meets (Detachable id) (isolate id) (fun _ h => id < h.size) R := by
  refine Meets.of_each fun g hg => (isolate_clears hg R).mono (fun _ hh => hh) (fun _ h hh => ?_)
    fun _ _ hh => hh
  obtain ⟨⟨n, hn, _⟩, _⟩ := hh
  exact lt_size hn

theorem eq_of_unaryShaped {b : NodeId} (hshape : g.UnaryShaped id) (hb : g.Edge id b)
    (hc : g.Edge id c) : b = c := by
  obtain ⟨n, hn, _, _, hsize⟩ := hshape
  rw [Edge, childrenOf_eq hn, IdSet.mem_def] at hb hc
  rw [IdSet.size] at hsize
  cases hl : n.children.toList with
  | nil => simp [hl] at hb
  | cons a rest =>
    have hnone : rest = [] := by simpa [hl] using hsize
    simp only [hl, hnone, List.mem_singleton] at hb hc
    exact hb.trans hc.symm

/-- After its child is moved away, a node can be detached. -/
theorem detachable_moved {m : Node} (hin : g.InRange) (hshape : g.UnaryShaped id)
    (hp : g.Edge parent id) (hc : g.Edge id c) (hm : (g.moveEdge c id parent).get? c = some m) :
    Detachable id ((g.moveEdge c id parent).lookedUp c m) := by
  have hplt := hp.lt_size
  have hclt : c < g.size := hin.children id c hc
  refine ⟨fun p hmem => ?_, fun b hb => ?_, ?_⟩
  · rw [parentsOf_lookedUp, mem_parentsOf_moveEdge hclt] at hmem
    rw [size_lookedUp, moveEdge, size_update, size_update, size_update]
    rcases hmem with ⟨_, rfl⟩ | ⟨hmem, _⟩
    · exact hplt
    · exact hin.parents id p hmem
  · rw [childrenOf_lookedUp, mem_childrenOf_moveEdge hplt] at hb
    rcases hb with ⟨rfl, rfl⟩ | ⟨hb, hne⟩
    · exact eq_of_unaryShaped hshape hc hp
    · exact absurd ⟨rfl, eq_of_unaryShaped hshape hb hc⟩ hne
  · obtain ⟨n, hn, hunary, _⟩ := hshape
    have hkind : ((g.moveEdge c id parent).lookedUp c m).kind? id = some n.kind := by
      rw [kind?_lookedUp hm, kind?_moveEdge, kind?, hn, Option.map_some]
    obtain ⟨n', hn', he⟩ := Option.map_eq_some_iff.mp hkind
    exact ⟨n', hn', he ▸ hunary⟩

theorem moveEdge_self {n : Node} (hn : g.get? id = some n) (hp : id ∈ n.parents)
    (hc : id ∈ n.children) : g.moveEdge id id id = g := by
  refine ext_get? rfl fun i => ?_
  rw [moveEdge, get?_update, get?_update, get?_update]
  by_cases hi : id = i
  · subst hi
    have hkids : ((n.withoutChild id).withChild id) = n := by
      rw [Node.withChild, Node.withoutChild, IdSet.insert_erase hc]
    simp [hn, hkids, Node.withParentReplaced_self hp]
  · simp [hi]

/-- A look-up that fails when a node is taken out shows, unless the node stands between itself and
itself. -/
theorem lookedUp_eq_iff {m : Node} (hin : g.InRange) (hshape : g.UnaryShaped id)
    (hp : g.Edge parent id) (hc : g.Edge id c) (hm : (g.moveEdge c id parent).get? c = some m) :
    (g.moveEdge c id parent).lookedUp c m = g ↔ g.Idle (.remove parent (some c) id) := by
  have hplt := hp.lt_size
  obtain ⟨n, hn, hkids⟩ := mem_childrenOf.mp hc
  -- the node between itself and itself, once that is known
  have hself : parent = id → id ∈ n.parents → ((g.moveEdge c id parent).lookedUp c m = g ↔
      (n.op.refresh (n.inputs.read g.output?)).value = n.op) := by
    intro hpar hmem
    subst hpar
    cases eq_of_unaryShaped hshape hc hp
    rw [moveEdge_self hn hmem hkids] at hm ⊢
    cases hm.symm.trans hn
    constructor
    · intro he
      have hget := congrArg (fun k : Plan => (k.get? parent).map Node.op) he
      simpa [lookedUp, get?_update, hn] using hget
    · intro he
      rw [lookedUp, he, update_op_self hn]
  constructor
  · intro he
    have hkid : c ∈ ((g.moveEdge c id parent).lookedUp c m).childrenOf id := by rwa [he]
    rw [childrenOf_lookedUp, mem_childrenOf_moveEdge hplt] at hkid
    have hpar : parent = id := by
      rcases hkid with ⟨hpar, _⟩ | ⟨_, hne⟩
      · exact hpar.symm
      · exact absurd ⟨rfl, rfl⟩ hne
    have hmem : parent ∈ ((g.moveEdge c id parent).lookedUp c m).parentsOf c := by
      rw [parentsOf_lookedUp, mem_parentsOf_moveEdge (hin.children id c hc)]
      exact .inl ⟨rfl, rfl⟩
    have hcid : c = id := eq_of_unaryShaped hshape hc (hpar ▸ hp)
    rw [he, hpar, hcid, parentsOf_eq hn] at hmem
    exact ⟨hpar, n, hn, hmem, (hself hpar hmem).mp he⟩
  · rintro ⟨hpar, n', hn', hmem, hval⟩
    cases hn'.symm.trans hn
    exact (hself hpar hmem).mpr hval

theorem adopt_removed (hin : g.InRange) (hshape : g.UnaryShaped id) (hp : g.Edge parent id)
    (hc : g.Edge id c) : Meets (· = g) (adopt c id parent)
      (fun _ h => Detachable id h ∧ g.FindsInstead c id parent)
      fun _ h => ¬ g.FindsInstead c id parent ∧ (h = g ↔ g.Idle (.remove parent (some c) id)) := by
  refine (adopt_moves (hin.children id c hc) hp.lt_size hc).mono (fun _ hh => hh)
    (fun _ h hh => ?_) fun _ h hh => ?_
  · obtain ⟨m, hm, hfound, rfl⟩ := hh
    exact ⟨detachable_moved hin hshape hp hc hm, (found_moveEdge_iff rfl (fun _ => rfl) hm).mp hfound⟩
  · obtain ⟨m, hm, hmissed, rfl⟩ := hh
    exact ⟨mt (found_moveEdge_iff rfl (fun _ => rfl) hm).mpr hmissed,
      lookedUp_eq_iff hin hshape hp hc hm⟩

theorem removeBetween_settles {d : Draft} (hin : d.plan.InRange) (parent : NodeId)
    (child : Option NodeId) (id : NodeId) : Settles (removeBetween parent child id) d
      (d.plan.Admits (.remove parent child id)) (d.plan.Fits (.remove parent child id))
      (d.plan.Idle (.remove parent child id)) := by
  obtain ⟨g, journal⟩ := d
  cases child with
  | none =>
    have hadmits : g.UnaryShaped id ∧ g.Edge parent id ∧ (∀ c, ¬ g.Edge id c) ↔
        g.Admits (.remove parent none id) := by simp [Admits]
    refine .congr hadmits (.check (checks_requireUnaryShape id) fun hshape =>
      .check (checks_requireLink parent id) fun hp => ?_)
    obtain ⟨n, hn, hunary, _⟩ := hshape
    have hfits : g.Fits (.remove parent none id) := by simp [Fits]
    have hkids : n.children.isEmpty = true ↔ ∀ c, ¬ g.Edge id c := by
      simp only [Edge, childrenOf_eq hn, IdSet.isEmpty_iff, IdSet.eq_empty_iff]
    have hfetch : g.fetch id = .ok n := fetch_eq_ok.mpr hn
    by_cases hnone : n.children.isEmpty = true
    · have hdetach : Detachable id g := by
        refine ⟨hin.parents id, fun c hc => ?_, n, hn, hunary⟩
        exact absurd hc (hkids.mp hnone c)
      have hrest : Meets (· = g) (do
          isolate id
          reportOn id "removed " "" [("parent", nodeLabel parent), ("child", childDetail none)])
          (fun _ _ => g.Fits (.remove parent none id)) fun _ h => ¬ g.Fits (.remove parent none id) ∧
            (h = g ↔ g.Idle (.remove parent none id)) := by
        refine Meets.bind ((isolate_detachable _).mono (fun h hh => ?_) (fun _ h hh => ⟨hh, hfits⟩)
          fun _ _ hh => hh) fun _ => reportOn_done _ _ _ _
        exact hh ▸ hdetach
      refine .congr (iff_of_true trivial (hkids.mp hnone)) (.of_apply_eq (.of_meets hrest) ?_)
      rw [apply_bind, Edit.fetch, apply_ask, hfetch]
      simp only [hnone, Bool.not_true, Bool.false_eq_true, if_false]
    · refine .inr (.inl ⟨mt hkids.mpr hnone, ?_⟩)
      simp only [Edit.fetch, apply_bind, apply_ask, hfetch, hnone]
      exact ⟨_, rfl⟩
  | some c =>
    have hadmits : g.UnaryShaped id ∧ g.Edge parent id ∧ g.Edge id c ∧ True ↔
        g.Admits (.remove parent (some c) id) := by simp [Admits]
    refine .congr hadmits (.check (checks_requireUnaryShape id) fun hshape =>
      .check (checks_requireLink parent id) fun hp => .check (checks_requireLink id c) fun hc =>
        .of_meets ?_)
    have hfits : g.FindsInstead c id parent ↔ g.Fits (.remove parent (some c) id) :=
      ⟨fun h b hb => Option.some.inj hb ▸ h, fun h => h c rfl⟩
    refine Meets.bind ((adopt_removed hin hshape hp hc).mono (fun _ hh => hh) (fun _ h hh => hh)
      fun _ h hh => ?_) fun _ => Meets.of_fact fun hfound => ?_
    · rwa [← hfits]
    · refine Meets.bind ((isolate_detachable _).mono (fun _ hh => hh) (fun _ h hh => ?_)
        fun _ _ hh => hh) fun _ => reportOn_done _ _ _ _
      exact ⟨hh, hfits.mp hfound⟩

end Splice

theorem Splicing.settles {d : Draft} (hv : d.plan.validate = .ok ()) (s : Splicing) :
    Edit.Settles s.run d (d.plan.Admits s) (d.plan.Fits s) (d.plan.Idle s) := by
  cases s with
  | remove parent child id => exact Splice.removeBetween_settles (Plan.inRange_of_validate hv) parent child id
  | insert parent child id => exact Splice.insertBetween_settles hv parent child id
  | insertAbove parent id => exact Splice.insertBetweenChildren_settles hv parent id

/-- A splice of a validated plan is carried out when it is admitted and every node with a new parent
finds its columns there. One that is not admitted changes nothing. One that is admitted and does not
fit is refused halfway, so that refused splices leave the plan alone just where admitted ones fit, but
for a node that stands between itself and itself. -/
theorem splice_all_or_nothing_iff (d : Draft) (hv : d.plan.validate = .ok ()) (s : Splicing) :
    ((∃ d', s.run.apply d = (.ok (), d')) ↔ d.plan.Admits s ∧ d.plan.Fits s) ∧
    (¬ d.plan.Admits s → ∃ e, s.run.apply d = (.error e, d)) ∧
    ((∀ e d', s.run.apply d = (.error e, d') → d'.plan = d.plan) ↔
      (d.plan.Admits s → d.plan.Fits s ∨ d.plan.Idle s)) := by
  rcases s.settles hv with ⟨ha, hf, d', hok⟩ | ⟨ha, e, he⟩ | ⟨ha, hf, e, d', he, hidle⟩
  · simp [hok, ha, hf]
  · simp [he, ha]
  · simp [he, ha, hf, hidle]

def numbered : Draft :=
  Call.afterAll [.build (.create "in" [⟨"a", .integer, ∅⟩] (.singleton 1)),
    .build (.index 0 "numbered" "row"), .build (.sortBy 1 "sorted" "a")] ⟨∅, []⟩

theorem numbered_removed_halfway : numbered.plan.validate = .ok () ∧
    ((Splicing.remove 0 (some 2) 1).run.apply numbered).1 =
      .error (.schema (.noCounterpart "numbered.a" 1 "in" 1)) ∧
    ((Splicing.remove 0 (some 2) 1).run.apply numbered).2.plan ≠ numbered.plan := by
  decide +kernel

theorem numbered_does_not_fit : numbered.plan.validate = .ok () ∧
    numbered.plan.Admits (.remove 0 (some 2) 1) ∧ ¬ numbered.plan.Fits (.remove 0 (some 2) 1) := by
  have hv : numbered.plan.validate = .ok () := by decide +kernel
  have hchanged : ((Splicing.remove 0 (some 2) 1).run.apply numbered).2.plan ≠ numbered.plan := by
    decide +kernel
  have herr : ((Splicing.remove 0 (some 2) 1).run.apply numbered).1 =
      .error (.schema (.noCounterpart "numbered.a" 1 "in" 1)) := by decide +kernel
  have hiff := (splice_all_or_nothing_iff numbered hv (.remove 0 (some 2) 1)).2.2
  have hnot := mt hiff.mpr fun hall => hchanged (hall _ _ (Prod.ext herr rfl))
  rw [Classical.not_imp, not_or] at hnot
  exact ⟨hv, hnot.1, hnot.2.1⟩

end PartyPlan
