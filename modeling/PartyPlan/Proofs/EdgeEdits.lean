import PartyPlan.Proofs.Integrity
import PartyPlan.Proofs.Refusal

/-! Which edits of edges are refused cleanly. Most of them check all they need before they change anything.
Two are made of smaller edits, and may be refused after some of these have been carried out: giving an edge
another child drops the edge before the new child is looked for, and dropping all edges of a node goes on
until it meets an edge that cannot be dropped. -/
namespace PartyPlan

inductive EdgeEdit where
  | link (p c : NodeId)
  | removeParent (c p : NodeId)
  | replaceParent (c old new : NodeId)
  | replaceChild (p old new : NodeId)
  | makeOrphan (id : NodeId)
  | isolate (id : NodeId)

namespace EdgeEdit

def run : EdgeEdit → Edit Unit
  | link p c => Edit.link p c
  | removeParent c p => Edit.removeParent c p
  | replaceParent c old new => Edit.replaceParent c old new
  | replaceChild p old new => Edit.replaceChild p old new
  | makeOrphan id => Edit.makeOrphan id
  | isolate id => Edit.isolate id

/-- What an edit asks for before it changes anything. An edge into a concatenation cannot be dropped. -/
def Admitted (g : Plan) : EdgeEdit → Prop
  | link p c => p < g.size ∧ c < g.size
  | removeParent c p | replaceChild p c _ => g.Edge p c ∧ g.kind? c ≠ some .concat
  | replaceParent c old new => g.Edge old c ∧ new < g.size
  | makeOrphan id | isolate id => id < g.size

def Completed (g : Plan) : EdgeEdit → Prop
  | replaceChild _ _ new => new < g.size
  | isolate id => ∀ c, g.Edge id c → c ≠ id → g.kind? c ≠ some .concat
  | _ => True

/-- Under way an edit has nothing to change before it meets what it cannot: the node has no parents, and
its first child is a concatenation. -/
def Idle (g : Plan) : EdgeEdit → Prop
  | isolate id => (∀ p, ¬ g.Edge p id) ∧
    ∀ b, g.Edge id b → ∃ c, c ≤ b ∧ g.Edge id c ∧ g.kind? c = some .concat
  | _ => False

end EdgeEdit

namespace Inputs

theorem exists_detach {inputs : Inputs} {p : NodeId} :
    (∃ rest, inputs.detach p = .ok rest) ↔ inputs.arity ≠ .nary := by
  cases inputs <;> simp [detach, arity]

end Inputs

namespace Plan

variable {g h : Plan} {id p c : NodeId} {n : Node} {inputs : Inputs} {rest : List NodeId}

theorem kind?_dropEdge : (g.dropEdge p c inputs).kind? = g.kind? := by
  rw [dropEdge, kind?_update_of_eq (k := .withoutChild c) fun _ _ => rfl,
    kind?_update_of_eq (k := .withoutParent p inputs) fun _ _ => rfl]

theorem kind?_orphaned : (g.orphaned id).kind? = g.kind? := by
  funext i
  rw [kind?, kind?, get?_orphaned, Option.map_map]
  congr 1
  funext n
  by_cases hi : i = id
  · simp [hi, Node.withoutInputs, Node.withoutParents, Node.withoutChild, Node.kind]
  · simp [hi, Node.withoutChild, Node.kind]

/-- An edge into a node of a plan in step can be dropped unless the node is a concatenation. -/
theorem Linked.exists_detach (hg : g.Linked) (hn : g.get? c = some n) :
    (∃ rest, n.inputs.detach p = .ok rest) ↔ g.kind? c ≠ some .concat := by
  have harity : n.kind.arity = .nary ↔ n.kind = .concat := by cases n.kind <;> simp [Kind.arity]
  rw [Inputs.exists_detach, (hg.nodes c n hn).arity, kind?, hn, Option.map_some, ne_eq, ne_eq,
    Option.some.injEq, ← harity]
  rfl

/-- A node without parents has nothing to be dropped above it. -/
theorem Linked.orphaned_eq_self (hg : g.Linked) (hnone : ∀ p, ¬ g.Edge p id) : g.orphaned id = g := by
  refine ext_get? rfl fun i => ?_
  rw [get?_orphaned]
  cases hn : g.get? i with
  | none => rfl
  | some n =>
    have hchild : n.withoutChild id = n := Node.withoutChild_of_not_mem fun hc =>
      hnone i (mem_childrenOf.mpr ⟨n, hn, hc⟩)
    rw [Option.map_some, hchild]
    split
    · next hi =>
      subst hi
      have hparents : n.parents = ∅ := IdSet.eq_empty_iff.mpr fun p hp =>
        hnone p ((hg.edges p i).mp (mem_parentsOf.mpr ⟨n, hn, hp⟩))
      have hsound := hg.nodes i n hn
      have hinputs := n.inputs_of_orphan hsound.named hsound.arity hparents
      rw [Node.withoutInputs, Node.withoutParents, ← hparents, ← hinputs]
    · rfl

/-- A node without parents, some of whose edges to children have been dropped; those in a list are
left. -/
structure Clearing (g : Plan) (id : NodeId) (rest : List NodeId) (h : Plan) : Prop where
  linked : h.Linked
  orphan : ∀ p, ¬ h.Edge p id
  waiting : ∀ c, h.Edge id c ↔ c ∈ rest
  kinds : h.kind? = g.kind?

theorem Linked.clearing_orphaned (hg : g.Linked) (hn : (g.orphaned id).get? id = some n) :
    g.Clearing id n.children.toList (g.orphaned id) where
  linked := hg.orphaned
  orphan := fun p hp => (mem_childrenOf_orphaned.mp hp).2 rfl
  waiting := fun c => by rw [Edge, childrenOf_eq hn, IdSet.mem_def]
  kinds := kind?_orphaned

theorem Clearing.dropEdge (hh : g.Clearing id (c :: rest) h) (hc : ¬ c ∈ rest) (hn : h.get? c = some n)
    (hd : n.inputs.detach id = .ok inputs) : g.Clearing id rest (h.dropEdge id c inputs) where
  linked := hh.linked.dropEdge hn hd
  orphan := fun p hp => hh.orphan p (mem_childrenOf_dropEdge.mp hp).1
  waiting := fun b => by
    rw [Edge, mem_childrenOf_dropEdge]
    have hwaiting := hh.waiting b
    rw [Edge, List.mem_cons] at hwaiting
    rw [hwaiting]
    constructor
    · rintro ⟨rfl | hb, hne⟩
      · exact absurd ⟨rfl, rfl⟩ hne
      · exact hb
    · intro hb
      refine ⟨.inr hb, ?_⟩
      rintro ⟨_, rfl⟩
      exact hc hb
  kinds := kind?_dropEdge.trans hh.kinds

end Plan

namespace Edit
open Plan

variable {x : Edit Unit} {d : Draft} {g : Plan} {id p c : NodeId} {fits idle : Prop}

theorem checks_requireEdge (p c : NodeId) :
    Checks (requireEdge p c) fun g => p < g.size ∧ c < g.size ∧ g.Edge p c := by
  intro d
  rw [requireEdge, apply_bind]
  rcases checks_require p d with ⟨hp, hok⟩ | ⟨hp, e, he⟩
  · rw [hok]
    dsimp only
    rw [apply_bind]
    rcases checks_require c d with ⟨hc, hok⟩ | ⟨hc, e, he⟩
    · rw [hok]
      dsimp only
      rw [apply_bind, apply_plan]
      dsimp only
      by_cases hedge : d.plan.hasEdge p c = true
      · rw [if_pos hedge]
        exact .inl ⟨⟨hp, hc, hasEdge_iff.mp hedge⟩, rfl⟩
      · rw [if_neg hedge]
        exact .inr ⟨fun h => hedge (hasEdge_iff.mpr h.2.2), _, rfl⟩
    · rw [he]
      exact .inr ⟨fun h => hc h.2.1, e, rfl⟩
  · rw [he]
    exact .inr ⟨fun h => hp h.1, e, rfl⟩

/-- Work that goes on after an edge was dropped. -/
theorem Settles.removeParent {f : Unit → Edit Unit} (hg : d.plan.Linked)
    (hf : ∀ n inputs, d.plan.Edge p c → d.plan.get? c = some n → n.inputs.detach p = .ok inputs →
      Meets (· = d.plan.dropEdge p c inputs) (f ()) (fun _ _ => fits)
        fun _ h => ¬ fits ∧ (h = d.plan ↔ idle)) :
    Settles (Edit.removeParent c p >>= f) d (d.plan.Edge p c ∧ d.plan.kind? c ≠ some .concat) fits
      idle := by
  have hadmitted : (p < d.plan.size ∧ c < d.plan.size ∧ d.plan.Edge p c) ∧ c < d.plan.size ∧
      d.plan.kind? c ≠ some .concat ↔ d.plan.Edge p c ∧ d.plan.kind? c ≠ some .concat := by
    constructor
    · rintro ⟨⟨_, _, hedge⟩, _, hkind⟩
      exact ⟨hedge, hkind⟩
    · rintro ⟨hedge, hkind⟩
      have hc := hg.edges.child_lt hedge
      exact ⟨⟨hedge.lt_size, hc, hedge⟩, hc, hkind⟩
  rw [Edit.removeParent, bind_assoc]
  refine .congr hadmitted (.check (checks_requireEdge p c) fun hedge => ?_)
  rw [bind_assoc]
  refine .node fun n hn => ?_
  rw [bind_assoc]
  have hdetach := hg.exists_detach (p := p) hn
  cases hd : n.inputs.detach p with
  | error e =>
    refine .inr (.inl ⟨fun hkind => ?_, e, rfl⟩)
    obtain ⟨inputs, hinputs⟩ := hdetach.mpr hkind
    rw [hd] at hinputs
    cases hinputs
  | ok inputs =>
    have hrest : Meets (· = d.plan) (do change (·.dropEdge p c inputs); f ()) (fun _ _ => fits)
        fun _ h => ¬ fits ∧ (h = d.plan ↔ idle) :=
      Meets.bind (M := fun _ h => h = d.plan.dropEdge p c inputs) (Meets.change fun h hh => hh ▸ rfl)
        fun _ => hf n inputs hedge.2.2 hn hd
    exact .congr (iff_of_true trivial (hdetach.mp ⟨inputs, hd⟩)) (.of_apply_eq (.of_meets hrest) rfl)

theorem Settles.of_known (hno : ¬ id < d.plan.size → ∃ e, x.apply d = (.error e, d))
    (h : id < d.plan.size → Meets (· = d.plan) x (fun _ _ => fits)
      fun _ h => ¬ fits ∧ (h = d.plan ↔ idle)) : Settles x d (id < d.plan.size) fits idle := by
  by_cases hid : id < d.plan.size
  · exact .congr (iff_of_true trivial hid) (.of_meets (h hid))
  · exact .inr (.inl ⟨hid, hno hid⟩)

theorem apply_makeOrphan_unknown (hid : ¬ id < d.plan.size) :
    (makeOrphan id).apply d = (.error (.unknownNode id), d) := by
  have hn : d.plan.get? id = none := by
    simpa [Plan.lt_size_iff, Option.eq_none_iff_forall_ne_some] using hid
  rw [makeOrphan, apply_bind, node, apply_ask, Plan.node, hn]

/-- Edges to children are dropped one after the other, up to the first that cannot be. -/
theorem dropAll_meets {cs : List NodeId} {k : Plan} (hk : g.Clearing id cs k) (hnd : cs.Nodup) :
    Meets (· = k) (cs.forM fun c => removeParent c id)
      (fun _ _ => ∀ c ∈ cs, g.kind? c ≠ some .concat)
      fun _ h => ∃ done c rest, cs = done ++ c :: rest ∧ (∀ b ∈ done, g.kind? b ≠ some .concat) ∧
        g.kind? c = some .concat ∧ g.Clearing id (c :: rest) h ∧ (done = [] → h = k) := by
  induction cs generalizing k with
  | nil => exact Meets.pure fun h hh => by simp
  | cons c cs ih =>
    obtain ⟨hc, hnd⟩ := List.nodup_cons.mp hnd
    have hedge : k.Edge id c := (hk.waiting c).mpr (by simp)
    obtain ⟨n, hn⟩ := lt_size_iff.mp (hk.linked.edges.child_lt hedge)
    have hdetach := hk.linked.exists_detach (p := id) hn
    rw [hk.kinds] at hdetach
    refine Meets.bind (M := fun _ h => ∃ inputs, n.inputs.detach id = .ok inputs ∧
      h = k.dropEdge id c inputs) (Meets.removeParent ?_ ?_) fun _ => Meets.of_each ?_
    · rintro h m inputs rfl _ _ hm hd
      cases hm.symm.trans hn
      exact ⟨inputs, hd, rfl⟩
    · rintro h e rfl hno
      have hconcat : g.kind? c = some .concat := by
        by_contra hkind
        obtain ⟨inputs, hd⟩ := hdetach.mpr hkind
        exact hno n inputs (hasEdge_iff.mpr hedge) hn hd
      exact ⟨[], c, cs, rfl, by simp, hconcat, hk, fun _ => rfl⟩
    · rintro h ⟨inputs, hd, rfl⟩
      have hkind : g.kind? c ≠ some .concat := hdetach.mp ⟨inputs, hd⟩
      refine (ih (hk.dropEdge hc hn hd) hnd).mono (fun _ hh => hh) (fun _ h hh => ?_) fun _ h hh => ?_
      · exact List.forall_mem_cons.mpr ⟨hkind, hh⟩
      · obtain ⟨done, b, rest, rfl, hdone, hb, hclear, _⟩ := hh
        exact ⟨c :: done, b, rest, rfl, List.forall_mem_cons.mpr ⟨hkind, hdone⟩, hb, hclear,
          fun hnil => absurd hnil (List.cons_ne_nil c done)⟩

end Edit

namespace EdgeEdit
open Edit Plan

variable {d : Draft} {g h : Plan} {id c : NodeId} {done rest : List NodeId}

/-- Dropping the edges of a node has changed nothing, when it is refused, just if it had nothing to
change. -/
theorem isolate_idle_iff (hg : g.Linked) (hchildren : ∀ b, b ∈ done ++ c :: rest ↔ g.Edge id b ∧ b ≠ id)
    (hincreasing : (done ++ c :: rest).Pairwise (· < ·)) (hdone : ∀ b ∈ done, g.kind? b ≠ some .concat)
    (hc : g.kind? c = some .concat) (hh : g.Clearing id (c :: rest) h)
    (hfirst : done = [] → h = g.orphaned id) : h = g ↔ (EdgeEdit.isolate id).Idle g := by
  obtain ⟨_, hrest, hbefore⟩ := List.pairwise_append.mp hincreasing
  constructor
  · rintro rfl
    refine ⟨hh.orphan, fun b hb => ⟨c, ?_, (hh.waiting c).mpr (by simp), hc⟩⟩
    rcases List.mem_cons.mp ((hh.waiting b).mp hb) with rfl | hb
    · exact Nat.le_refl b
    · exact Nat.le_of_lt ((List.pairwise_cons.mp hrest).1 b hb)
  · rintro ⟨hnone, hleast⟩
    cases done with
    | nil => exact (hfirst rfl).trans (hg.orphaned_eq_self hnone)
    | cons b done =>
      -- the first child was dropped, so it is no concatenation, and none comes before it
      obtain ⟨a, hab, ha, hconcat⟩ := hleast b ((hchildren b).mp (by simp)).1
      have hself : a ≠ id := by
        rintro rfl
        exact hnone a ha
      have hmem := (hchildren a).mpr ⟨ha, hself⟩
      rw [List.cons_append, List.mem_cons] at hmem
      rcases hmem with rfl | hmem
      · exact absurd hconcat (hdone a (by simp))
      · rw [List.cons_append, List.pairwise_cons] at hincreasing
        exact absurd (hincreasing.1 a hmem) (Nat.not_lt.mpr hab)

theorem isolate_meets (hg : g.Linked) (hid : id < g.size) : Meets (· = g) (Edit.isolate id)
    (fun _ _ => (EdgeEdit.isolate id).Completed g)
    fun _ h => ¬ (EdgeEdit.isolate id).Completed g ∧ (h = g ↔ (EdgeEdit.isolate id).Idle g) := by
  obtain ⟨n, hn⟩ := lt_size_iff.mp (show id < (g.orphaned id).size by rwa [size_orphaned])
  have hclear := hg.clearing_orphaned hn
  have hchildren : ∀ b, b ∈ n.children.toList ↔ g.Edge id b ∧ b ≠ id := fun b => by
    rw [← hclear.waiting b, Edge, mem_childrenOf_orphaned]
    rfl
  refine Meets.bind (M := fun _ h => h = g.orphaned id) (Meets.makeOrphan ?_ ?_ ?_) fun _ => ?_
  · rintro h rfl
    exact hg.edges
  · rintro h rfl _
    rfl
  · rintro h rfl hno
    exact absurd hid hno
  refine Meets.bind (Meets.ask_known (node_eq_ok.mpr hn)) fun m => Meets.of_fact fun hm => ?_
  subst hm
  refine (dropAll_meets hclear (IdSet.nodup_toList _)).mono (fun _ hh => hh) (fun _ h hh => ?_)
    fun _ h hh => ?_
  · exact fun c hc hne => hh c ((hchildren c).mpr ⟨hc, hne⟩)
  · obtain ⟨done, c, rest, hcs, hdone, hc, hh, hfirst⟩ := hh
    have hincreasing := m.children.increasing
    rw [hcs] at hchildren hincreasing
    refine ⟨fun hall => ?_, isolate_idle_iff hg hchildren hincreasing hdone hc hh hfirst⟩
    obtain ⟨hedge, hne⟩ := (hchildren c).mp (by simp)
    exact hall c hedge hne hc

theorem settles (hg : d.plan.Linked) (x : EdgeEdit) :
    Settles x.run d (x.Admitted d.plan) (x.Completed d.plan) (x.Idle d.plan) := by
  cases x with
  | link p c =>
    have hadmitted : p < d.plan.size ∧ c < d.plan.size ∧ True ↔
        (EdgeEdit.link p c).Admitted d.plan := by simp [Admitted]
    exact .congr hadmitted (.check (checks_require p) fun _ => .check (checks_require c) fun _ =>
      .of_meets (Meets.change fun _ _ => trivial))
  | removeParent c p =>
    rw [run, ← bind_pure (Edit.removeParent c p)]
    exact .removeParent hg fun _ _ _ _ _ => Meets.pure fun _ _ => trivial
  | replaceParent c old new =>
    have hadmitted : (old < d.plan.size ∧ c < d.plan.size ∧ d.plan.Edge old c) ∧ new < d.plan.size ∧
        True ↔ (EdgeEdit.replaceParent c old new).Admitted d.plan := by
      constructor
      · rintro ⟨⟨_, _, hedge⟩, hnew, _⟩
        exact ⟨hedge, hnew⟩
      · rintro ⟨hedge, hnew⟩
        exact ⟨⟨hedge.lt_size, hg.edges.child_lt hedge, hedge⟩, hnew, trivial⟩
    exact .congr hadmitted (.check (checks_requireEdge old c) fun _ =>
      .check (checks_require new) fun _ => .of_meets (Meets.change fun _ _ => trivial))
  | replaceChild p old new =>
    refine .removeParent hg fun n inputs hedge hn _ => ?_
    have hsize : (d.plan.dropEdge p old inputs).size = d.plan.size := by simp [dropEdge]
    refine Meets.link (fun h hh _ hnew => ?_) fun h e hh hno => ?_
    · rw [hh, hsize] at hnew
      exact hnew
    · subst hh
      rw [hsize] at hno
      refine ⟨fun hnew => hno ⟨hedge.lt_size, hnew⟩, iff_of_false (fun he => ?_) not_false⟩
      have hgone : ¬ (d.plan.dropEdge p old inputs).Edge p old := fun hkept =>
        (mem_childrenOf_dropEdge.mp hkept).2 ⟨rfl, rfl⟩
      exact hgone (he.symm ▸ hedge)
  | makeOrphan id =>
    refine .of_known (fun hid => ⟨_, apply_makeOrphan_unknown hid⟩) fun hid => ?_
    refine Meets.makeOrphan ?_ (fun _ _ _ => trivial) ?_
    · rintro h rfl
      exact hg.edges
    · rintro h rfl hno
      exact absurd hid hno
  | isolate id =>
    refine .of_known (fun hid => ⟨.unknownNode id, ?_⟩) fun hid => isolate_meets hg hid
    rw [run, Edit.isolate, apply_bind, apply_makeOrphan_unknown hid]

end EdgeEdit

/-- After any run of calls, an edit of edges succeeds just if it is given what it asks for, at the outset
and under way. One that is not admitted changes nothing. So what is refused leaves the plan as it was
exactly if an edit that is admitted is also completed, or has nothing to change before it is refused. For
all edits but two nothing is asked under way. -/
theorem edge_edit_clean_iff (d : Draft) (h : Reached (fun _ _ => True) d) (x : EdgeEdit) :
    ((∃ d', x.run.apply d = (.ok (), d')) ↔ x.Admitted d.plan ∧ x.Completed d.plan) ∧
    (¬ x.Admitted d.plan → ∃ e, x.run.apply d = (.error e, d)) ∧
    ((∀ e d', x.run.apply d = (.error e, d') → d'.plan = d.plan) ↔
      (x.Admitted d.plan → x.Completed d.plan ∨ x.Idle d.plan)) := by
  rcases x.settles h.linked with ⟨ha, hc, d', hok⟩ | ⟨ha, e, he⟩ | ⟨ha, hc, e, d', he, hidle⟩
  · simp [hok, ha, hc]
  · simp [he, ha]
  · simp [he, ha, hc, hidle]

def stacked : List Call :=
  [.build (.create "in" [⟨"a", .integer, ∅⟩] (.singleton 1)), .build (.shuffle 0 "mixed"),
    .build (.create "more" [⟨"a", .integer, ∅⟩] (.singleton 1)), .build (.concat [1, 2] "rows" none)]

/-- The source that has no child but the concatenation is not isolated, and the plan stays as it was. -/
theorem stacked_refused_cleanly :
    let d := Call.afterAll stacked ⟨∅, []⟩
    Reached (fun _ _ => True) d ∧ (EdgeEdit.isolate 2).Admitted d.plan ∧
      ¬ (∃ d', (EdgeEdit.isolate 2).run.apply d = (.ok (), d')) ∧
      ∀ e d', (EdgeEdit.isolate 2).run.apply d = (.error e, d') → d'.plan = d.plan := by
  intro d
  have hd : Reached (fun _ _ => True) d := Reached.start.afterAll (by simp [stacked, Call.AllAllowed])
  have hadmitted : (EdgeEdit.isolate 2).Admitted d.plan := by
    show 2 < d.plan.size
    decide +kernel
  have hparents : d.plan.parentsOf 2 = ∅ := by decide +kernel
  have hchildren : d.plan.childrenOf 2 = .singleton 3 := by decide +kernel
  have hkind : d.plan.kind? 3 = some .concat := by decide +kernel
  have hedge : d.plan.Edge 2 3 := by
    rw [Plan.Edge, hchildren]
    exact IdSet.mem_singleton.mpr rfl
  obtain ⟨hok, _, hclean⟩ := edge_edit_clean_iff d hd (.isolate 2)
  refine ⟨hd, hadmitted, fun hdone => ?_, hclean.mpr fun _ => .inr ⟨fun p hp => ?_, fun b hb => ?_⟩⟩
  · exact (hok.mp hdone).2 3 hedge (by decide) hkind
  · rw [Plan.Edge, ← hd.linked.edges, hparents] at hp
    exact IdSet.not_mem_empty p hp
  · rw [Plan.Edge, hchildren, IdSet.mem_singleton] at hb
    exact ⟨3, Nat.le_of_eq hb.symm, hedge, hkind⟩

/-- An edge is to lead to a node that is not there, and a node is to lose all its edges, of which the last
leads to the concatenation. Both are refused, when the edge from the source is gone. -/
theorem stacked_refused_halfway :
    let d := Call.afterAll stacked ⟨∅, []⟩
    let replaced := (EdgeEdit.replaceChild 0 1 7).run.apply d
    let isolated := (EdgeEdit.isolate 1).run.apply d
    Reached (fun _ _ => True) d ∧ d.plan.hasEdge 0 1 = true ∧
      (replaced.1 = .error (.unknownNode 7) ∧ replaced.2.plan.hasEdge 0 1 = false) ∧
      isolated.1 = .error .orderedRemoval ∧ isolated.2.plan.hasEdge 0 1 = false :=
  ⟨Reached.start.afterAll (by simp [stacked, Call.AllAllowed]), by decide +kernel⟩

end PartyPlan
