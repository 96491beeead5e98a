import PartyPlan.Proofs.Optimization

/-! Plans whose numbers all lead to nodes. Edges, roots and named inputs of such a plan can be followed
without looking. The edits that put a special form in the place of a join keep it so, whether or not the
records of the plan agree otherwise and also where they are refused midway; they never take a node away. -/
namespace PartyPlan

/-- A number was followed that leads to no node. -/
def Error.Misses : Error → Prop
  | .outOfRange _ _ => True
  | _ => False

def Unmissed {α : Type} (x : Except Error α) : Prop := ∀ e, x = .error e → ¬ e.Misses

namespace Unmissed

variable {α β : Type}

theorem ok (a : α) : Unmissed (.ok a) := by
  intro e he
  cases he

theorem error {e : Error} (h : ¬ e.Misses) : Unmissed (.error e : Except Error α) := by
  intro e' he
  cases he
  exact h

/-- A check of the records. -/
theorem agreement {holds : Prop} [Decidable holds] {fault : Inconsistency} :
    Unmissed (if holds then .ok () else Plan.refuseInconsistent fault) := by
  split
  · exact ok ()
  · exact error not_false

theorem bind {x : Except Error α} {f : α → Except Error β} (hx : Unmissed x)
    (hf : ∀ a, Unmissed (f a)) : Unmissed (x >>= f) := by
  intro e he
  rcases except_bind_eq_error.mp he with he | ⟨a, _, he⟩
  · exact hx e he
  · exact hf a e he

theorem mapM {f : α → Except Error β} (h : ∀ a, Unmissed (f a)) (l : List α) :
    Unmissed (l.mapM f) := by
  intro e he
  obtain ⟨a, _, ha⟩ := exists_of_mapM_eq_error he
  exact h a e ha

theorem each {check : α → Except Error Unit} (h : ∀ a, Unmissed (check a)) (l : List α) :
    Unmissed (checkEach check l) := by
  induction l with
  | nil => exact ok ()
  | cons a l ih =>
    rw [checkEach]
    cases ha : check a with
    | ok _ => exact ih
    | error e => exact error (h a e ha)

theorem ofExcept {x : Except Error β} (h : Unmissed x) (whole : α) (f : β → α) :
    Unmissed (Refreshed.ofExcept whole f x).outcome := by
  cases x with
  | ok _ => exact ok ()
  | error e => exact error (h e rfl)

end Unmissed

/-! Validation looks every number up, and a column that is not found is no number of a node. -/

theorem Plan.node_unmissed (g : Plan) (id : NodeId) : Unmissed (g.node id) := by
  unfold node
  cases g.get? id with
  | none => exact .error not_false
  | some n => exact .ok n

theorem Plan.validate_unmissed (g : Plan) : Unmissed g.validate := by
  have hparent : ∀ id p, Unmissed (g.checkParent id p) := by
    intro id p
    unfold checkParent
    cases hp : g.node p with
    | error e => exact .error (g.node_unmissed p e hp)
    | ok parent => exact .agreement
  have hchild : ∀ id c, Unmissed (g.checkChild id c) := by
    intro id c
    unfold checkChild
    cases hc : g.node c with
    | error e => exact .error (g.node_unmissed c e hc)
    | ok child => exact .agreement
  have hroot : ∀ r, Unmissed (g.checkRoot r) := by
    intro r
    unfold checkRoot
    cases hr : g.node r with
    | error e => exact .error (g.node_unmissed r e hr)
    | ok n => exact .agreement
  have hnamed : ∀ n, Unmissed (g.checkNamed n) := by
    intro n
    unfold checkNamed
    split
    · exact .error not_false
    · exact .ok ()
  have hunnamed : ∀ n, Unmissed (g.checkUnnamed n) := by
    intro n
    unfold checkUnnamed
    split
    · exact .error not_false
    · exact .ok ()
  have hordered : ∀ n, Unmissed (g.checkOrdered n) := by
    intro n
    unfold checkOrdered
    split
    · exact .agreement
    · exact .ok ()
  have hnode : ∀ n, Unmissed (g.checkNode n) := fun n =>
    (Unmissed.each (hparent n.id) _).bind fun _ => (Unmissed.each (hchild n.id) _).bind fun _ =>
      (hnamed n).bind fun _ => (hunnamed n).bind fun _ => hordered n
  exact (Unmissed.each hnode _).bind fun _ => Unmissed.each hroot _

theorem Relation.resolve_unmissed (r : Relation) (c : Column) : Unmissed (r.resolve c) := by
  unfold resolve
  split
  · exact .ok _
  · exact .error not_false

theorem Relation.resolveAll_unmissed (r : Relation) (cs : List Column) : Unmissed (r.resolveAll cs) :=
  .mapM r.resolve_unmissed cs

theorem JoinKeys.refresh_unmissed (keys : JoinKeys) (left right : Option Relation) :
    Unmissed (keys.refresh left right).outcome := by
  have hside : ∀ input cs, Unmissed (resolveIn input cs) := by
    intro input cs
    cases input with
    | none => exact .ok cs
    | some r => exact r.resolveAll_unmissed cs
  unfold refresh
  cases hl : resolveIn left keys.left with
  | ok ls => exact (hside right keys.right).ofExcept _ _
  | error e => exact .error (hside left keys.left e hl)

theorem Aggregation.refresh_unmissed (spec : Aggregation) (input : Relation) :
    Unmissed (spec.refresh input).outcome := by
  unfold refresh
  cases hg : input.resolveAll spec.groupBy with
  | ok groupBy => exact (input.resolve_unmissed spec.folded).ofExcept _ _
  | error e => exact .error (input.resolveAll_unmissed spec.groupBy e hg)

theorem Arithmetic.refresh_unmissed (spec : Arithmetic) (input : Relation) :
    Unmissed (spec.refresh input).outcome := by
  refine (Unmissed.mapM (fun operand => ?_) spec.operands).ofExcept _ _
  cases operand with
  | column c =>
    rw [Operand.refresh]
    cases hc : input.resolve c with
    | ok c' => exact .ok _
    | error e => exact .error (input.resolve_unmissed c e hc)
  | _ => exact .ok _

theorem Condition.refresh_unmissed (condition : Condition) (input : Relation) :
    Unmissed (condition.refresh input).outcome :=
  (input.resolve_unmissed condition.column).ofExcept _ _

namespace Operator

theorem refreshUnary_unmissed (op : Operator) (input : Relation) :
    Unmissed (op.refreshUnary input).outcome := by
  cases op with
  | aggregate spec => exact spec.refresh_unmissed input
  | indexAggregate spec _ _ => exact spec.refresh_unmissed input
  | project cs => exact (input.resolveAll_unmissed cs).ofExcept _ _
  | distinct cs => exact (input.resolveAll_unmissed cs).ofExcept _ _
  | multiply spec => exact spec.refresh_unmissed input
  | divide spec => exact spec.refresh_unmissed input
  | filter condition => exact condition.refresh_unmissed input
  | sortBy c => exact (input.resolve_unmissed c).ofExcept _ _
  | compareNeighbours c => exact (input.resolve_unmissed c).ofExcept _ _
  | _ => exact .ok ()

/-- Refreshing an operator misses columns, never nodes. -/
theorem refresh_unmissed (op : Operator) (inputs : InputRelations) :
    Unmissed (op.refresh inputs).outcome := by
  unfold refresh
  split
  · next keys => exact keys.refresh_unmissed _ _
  · next keys _ => exact keys.refresh_unmissed _ _
  · next keys _ => exact keys.refresh_unmissed _ _
  · next keys _ =>
    dsimp only
    cases hk : (keys.refresh inputs.left inputs.right).outcome with
    | ok _ => exact .ok ()
    | error e => exact .error (keys.refresh_unmissed _ _ e hk)
  · cases inputs.primary with
    | none => exact .ok ()
    | some input => exact refreshUnary_unmissed op input

end Operator

theorem Plan.generalJoin_unmissed (g : Plan) (id : NodeId) : Unmissed (g.generalJoin id) := by
  refine (g.node_unmissed id).bind fun n => ?_
  split
  · split
    · exact .ok _
    · exact .error not_false
  · exact .error not_false

structure Node.Within (k : Nat) (n : Node) : Prop where
  parents : ∀ p ∈ n.parents, p < k
  children : ∀ c ∈ n.children, c < k
  inputs : ∀ p ∈ n.inputs.ids, p < k

namespace Node.Within

variable {n : Node} {k l p c old new : Nat}

theorem mono (h : n.Within k) (hkl : k ≤ l) : n.Within l :=
  ⟨fun p hp => (h.parents p hp).trans_le hkl, fun c hc => (h.children c hc).trans_le hkl,
    fun p hp => (h.inputs p hp).trans_le hkl⟩

theorem detached (i : NodeId) (op : Operator) (r : Relation) : (Node.detached i op r).Within k := by
  constructor <;> simp [Node.detached]

theorem withChild (h : n.Within k) (hc : c < k) : (n.withChild c).Within k where
  parents := h.parents
  children q hq := by
    rcases IdSet.mem_insert.mp hq with rfl | hq
    · exact hc
    · exact h.children q hq
  inputs := h.inputs

theorem withoutChild (h : n.Within k) (c : NodeId) : (n.withoutChild c).Within k :=
  ⟨h.parents, fun q hq => h.children q (IdSet.mem_erase.mp hq).1, h.inputs⟩

theorem withParent (h : n.Within k) (hp : p < k) : (n.withParent p).Within k where
  parents q hq := by
    rcases IdSet.mem_insert.mp hq with rfl | hq
    · exact hp
    · exact h.parents q hq
  children := h.children
  inputs q hq := by
    rcases Inputs.mem_ids_attach hq with rfl | hq
    · exact hp
    · exact h.inputs q hq

theorem withParentReplaced (h : n.Within k) (old : NodeId) (hnew : new < k) :
    (n.withParentReplaced old new).Within k where
  parents q hq := by
    rcases IdSet.mem_insert.mp hq with rfl | hq
    · exact hnew
    · exact h.parents q (IdSet.mem_erase.mp hq).1
  children := h.children
  inputs q hq := by
    simp only [Node.withParentReplaced, Inputs.ids_replace, List.mem_map] at hq
    obtain ⟨p, hp, rfl⟩ := hq
    unfold Operator.swap
    split
    · exact hnew
    · exact h.inputs p hp

theorem withoutParents (h : n.Within k) : n.withoutParents.Within k :=
  ⟨by simp [Node.withoutParents], h.children, h.inputs⟩

theorem withoutInputs (h : n.Within k) : n.withoutInputs.Within k :=
  ⟨h.parents, h.children, by simp [Node.withoutInputs]⟩

end Node.Within

structure Plan.Bounded (k : Nat) (g : Plan) : Prop where
  nodes : ∀ i n, g.get? i = some n → n.Within g.size
  roots : ∀ r ∈ g.roots, r < g.size
  size : k ≤ g.size

namespace Plan

variable {g : Plan} {k l id p c old new : Nat} {f : Node → Node}

namespace Bounded

theorem mono (h : g.Bounded l) (hkl : k ≤ l) : g.Bounded k := ⟨h.nodes, h.roots, hkl.trans h.size⟩

theorem full (h : g.Bounded k) : g.Bounded g.size := ⟨h.nodes, h.roots, le_rfl⟩

theorem inRange (h : g.Bounded k) : g.InRange where
  parents c p hp := by
    obtain ⟨n, hn, hmem⟩ := mem_parentsOf.mp hp
    exact (h.nodes c n hn).parents p hmem
  children p c hc := by
    obtain ⟨n, hn, hmem⟩ := mem_childrenOf.mp hc
    exact (h.nodes p n hn).children c hmem
  roots := h.roots

theorem update (h : g.Bounded k) (hf : ∀ n, n.Within g.size → (f n).Within g.size) :
    (g.update id f).Bounded k where
  nodes := by
    rw [size_update]
    exact forall_update h.nodes fun n hn => hf n (h.nodes id n hn)
  roots := by
    rw [size_update]
    exact h.roots
  size := by
    rw [size_update]
    exact h.size

theorem push (h : g.Bounded k) (op : Operator) (r : Relation) : (g.push op r).Bounded k where
  nodes i n hn := by
    rw [size_push]
    rw [get?_push] at hn
    split at hn
    · cases hn
      exact .detached ..
    · exact (h.nodes i n hn).mono (Nat.le_succ _)
  roots q hq := by
    rw [size_push]
    exact (h.roots q hq).trans (Nat.lt_succ_self _)
  size := by
    rw [size_push]
    exact h.size.trans (Nat.le_succ _)

theorem addEdge (h : g.Bounded k) (hp : p < g.size) (hc : c < g.size) :
    (g.addEdge p c).Bounded k := by
  refine Bounded.update (h.update fun n hn => hn.withChild hc) fun n hn => hn.withParent ?_
  rwa [size_update]

theorem moveEdge (h : g.Bounded k) (hc : c < g.size) (hnew : new < g.size) :
    (g.moveEdge c old new).Bounded k := by
  refine Bounded.update (Bounded.update (h.update fun n hn => hn.withoutChild c) fun n hn =>
    hn.withChild ?_) fun n hn => hn.withParentReplaced old ?_
  · rwa [size_update]
  · rwa [size_update, size_update]

theorem disown (h : g.Bounded k) (ps : List NodeId) (id : NodeId) : (g.disown ps id).Bounded k := by
  induction ps generalizing g with
  | nil => exact h
  | cons p ps ih => exact ih (h.update fun n hn => hn.withoutChild id)

theorem bereft (h : g.Bounded k) (id : NodeId) (n : Node) : (g.bereft id n).Bounded k :=
  (Bounded.disown (h.update fun _ hm => hm.withoutParents) _ id).update fun _ hm => hm.withoutInputs

theorem join_inputs (h : g.Bounded k) {join : GeneralJoin} (hj : g.generalJoin id = .ok join) :
    join.left < g.size ∧ join.right < g.size := by
  obtain ⟨n, hn, _, hi⟩ := generalJoin_eq_ok hj
  have hlt := (h.nodes id n hn).inputs
  rw [hi] at hlt
  exact ⟨hlt _ (by simp [Inputs.ids]), hlt _ (by simp [Inputs.ids])⟩

end Bounded

/-- Validation finds every edge, named input and root, also of nodes that do not know their numbers. -/
theorem bounded_of_validate (h : g.validate = .ok ()) : g.Bounded g.size where
  nodes i n hn := by
    have hr := inRange_of_validate h
    have hp : ∀ p ∈ n.parents, p < g.size := fun p hp => hr.parents i p (mem_parentsOf.mpr ⟨n, hn, hp⟩)
    exact ⟨hp, fun c hc => hr.children i c (mem_childrenOf.mpr ⟨n, hn, hc⟩),
      fun p hi => hp p ((checkNode_of_validate h hn).2.2.named p hi)⟩
  roots := (inRange_of_validate h).roots
  size := le_rfl

end Plan

namespace Edit

variable {α β : Type} {k l p c old new : Nat}

/-- Work on a bounded plan that leaves it bounded and is refused for no number that leads nowhere. -/
def Safe (k : Nat) (x : Edit α) : Prop :=
  Meets (Plan.Bounded k) x (fun _ => Plan.Bounded k) fun e _ => ¬ e.Misses

namespace Safe

theorem bind {x : Edit α} {f : α → Edit β} (hx : Safe k x) (hf : ∀ a, Safe k (f a)) :
    Safe k (x >>= f) := Meets.bind hx hf

theorem pure (a : α) : Safe k (pure a) := Meets.pure fun _ hg => hg

theorem report (e : Event) : Safe k (report e) := Meets.report fun _ hg => hg

theorem settle {x : Except Error α} (h : Unmissed x) : Safe k (settle x) :=
  Meets.settle (fun _ _ _ hg => hg) fun e he _ _ => h e he

theorem ask {question : Plan → Except Error α} (h : ∀ g, g.Bounded k → Unmissed (question g)) :
    Safe k (ask question) :=
  Meets.ask (fun _ _ hg _ => hg) fun g e hg he => h g hg e he

theorem fetch {id : NodeId} (hid : id < k) : Safe k (fetch id) :=
  Meets.fetch (fun _ _ hg _ => hg) fun _ hg hlt => absurd (hid.trans_le hg.size) hlt

theorem forM {f : β → Edit Unit} {l : List β} (h : ∀ b ∈ l, Safe k (f b)) : Safe k (l.forM f) := by
  induction l with
  | nil => exact pure ()
  | cons b l ih => exact bind (h b (by simp)) fun _ => ih fun b' hb => h b' (by simp [hb])

/-- Work may use the size and all else it finds in the plan it starts from. -/
theorem of_size {P : Plan → Prop} {x : Edit α}
    (h : ∀ g, g.Bounded k → P g → Meets (· = g) x (fun _ => Plan.Bounded g.size) fun e _ => ¬ e.Misses) :
    Meets (fun g => g.Bounded k ∧ P g) x (fun _ => Plan.Bounded k) fun e _ => ¬ e.Misses := by
  refine Meets.of_each fun g hg => ?_
  exact (h g hg.1 hg.2).mono (fun _ hh => hh) (fun _ _ hh => hh.mono hg.1.size) fun _ _ hh => hh

end Safe

theorem makeOrphan_safe (id : NodeId) : Safe k (makeOrphan id) :=
  Meets.makeOrphan_bereft (fun _ hg p hp => hg.inRange.parents id p hp)
    (fun _ n hg _ => hg.bereft id n) fun _ _ _ => not_false

theorem setFlags_safe (id : NodeId) (isLocal isMpc : Option Bool) : Safe k (setFlags id isLocal isMpc) :=
  Meets.setFlags (fun _ hg _ => hg.update fun _ hn => ⟨hn.parents, hn.children, hn.inputs⟩)
    fun _ _ _ => not_false

theorem link_safe (hp : p < k) (hc : c < k) : Safe k (link p c) :=
  Meets.link (fun _ hg => hg.addEdge) fun _ _ hg hlt =>
    absurd ⟨hp.trans_le hg.size, hc.trans_le hg.size⟩ hlt

theorem requireEdge_safe (p c : NodeId) : Safe k (requireEdge p c) := by
  have hrequire : ∀ id, Safe k (require id) := fun id =>
    Meets.require (fun _ hg _ => hg) fun _ _ _ => not_false
  refine (hrequire p).bind fun _ => (hrequire c).bind fun _ => ?_
  refine Meets.bind (M := fun _ => Plan.Bounded k) (Meets.plan fun _ hg => hg) fun g => ?_
  split
  · exact Safe.pure ()
  · exact Meets.throw fun _ _ => not_false

theorem replaceParent_safe (old : NodeId) (hc : c < k) (hnew : new < k) :
    Safe k (replaceParent c old new) := by
  refine (requireEdge_safe old c).bind fun _ => ?_
  refine Safe.bind (Meets.require (fun _ hg _ => hg) fun _ _ _ => not_false) fun _ => ?_
  exact Meets.change fun g hg => hg.moveEdge (hc.trans_le hg.size) (hnew.trans_le hg.size)

theorem refreshColumns_safe (id : NodeId) : Safe k (refreshColumns id) := by
  refine Meets.refreshColumns (fun g n op hg _ _ => ?_) (fun g n op e _ _ he => ?_)
    fun _ _ _ => not_false
  · exact hg.update fun _ hn => ⟨hn.parents, hn.children, hn.inputs⟩
  · exact n.op.refresh_unmissed (g.operatorInputs id) e (by rw [he])

end Edit

namespace Specialize
open Edit

variable {k : Nat}

/-- The new node is looked up without a check; it is the one just added. -/
theorem substitute_safe (old : NodeId) (op : Operator) {ps : List NodeId} (hps : ∀ p ∈ ps, p < k) :
    Safe k (substitute old op ps) := by
  refine Meets.bind (M := fun n g => g.Bounded k ∧ g.get? old = some n)
    (Meets.node (fun _ _ hg hn => ⟨hg, hn⟩) fun _ _ _ => not_false) fun n => Safe.of_size fun g hg hn => ?_
  have hkids : ∀ c ∈ n.children, c < g.size := (hg.nodes old n hn).children
  refine Meets.mono (P := Plan.Bounded g.size) (Q := fun _ => Plan.Bounded g.size) ?_
    (fun h hh => hh ▸ hg.full) (fun _ _ hh => hh) fun _ _ hh => hh
  refine (makeOrphan_safe old).bind fun _ => ?_
  -- from here on the bound is that of the plan with the new node
  refine Meets.bind (M := fun new h => h.Bounded (new + 1) ∧ g.size ≤ new)
    (Meets.addNode fun h hh => ⟨⟨(hh.push op _).nodes, (hh.push op _).roots, by simp⟩, hh.size⟩)
    fun new => Meets.of_fact fun hnew => ?_
  have hlt : ∀ i < g.size, i < new + 1 := fun i hi => (hi.trans_le hnew).trans (Nat.lt_succ_self _)
  refine Meets.mono (P := Plan.Bounded (new + 1)) (Q := fun _ => Plan.Bounded (new + 1)) ?_
    (fun _ hh => hh) (fun _ _ hh => hh.mono (hnew.trans (Nat.le_succ _))) fun _ _ hh => hh
  refine (setFlags_safe new _ _).bind fun _ => ?_
  refine Safe.bind (Safe.forM fun p hp => ?_) fun _ => ?_
  · exact link_safe (hlt p ((hps p hp).trans_le hg.size)) (Nat.lt_succ_self _)
  refine Safe.bind (Safe.forM fun c hc => ?_) fun _ => ?_
  · exact (replaceParent_safe old (hlt c (hkids c hc)) (Nat.lt_succ_self _)).bind fun _ =>
      refreshColumns_safe c
  refine (refreshColumns_safe new).bind fun _ => ?_
  exact (Safe.bind (Safe.fetch (Nat.lt_succ_self _)) fun _ => .report _).bind fun _ => .pure new

/-- A form of a general join is safe if what it does to the join is, below the inputs of the join. -/
theorem ofJoin_safe (id : NodeId) {make : GeneralJoin → Edit NodeId}
    (h : ∀ join k, join.left < k → join.right < k → Safe k (make join)) :
    Safe k (ask (·.generalJoin id) >>= make) := by
  refine Meets.bind (M := fun join g => g.Bounded k ∧ g.generalJoin id = .ok join)
    (Meets.ask (fun _ _ hg hj => ⟨hg, hj⟩) fun g e _ he => g.generalJoin_unmissed id e he) fun join => ?_
  refine Safe.of_size fun g hg hj => ?_
  obtain ⟨hl, hr⟩ := hg.join_inputs hj
  exact (h join g.size hl hr).mono (fun _ hh => hh ▸ hg.full) (fun _ _ hh => hh) fun _ _ hh => hh

theorem hybridJoin_safe (id : NodeId) (trusted : Party) : Safe k (hybridJoin id trusted) :=
  ofJoin_safe id fun join k hl hr => substitute_safe id _ (by simp [hl, hr])

theorem revealJoin_safe (id : NodeId) (side : Side) (recipient : Party) :
    Safe k (revealJoin id side recipient) :=
  ofJoin_safe id fun join k hl hr =>
    Safe.bind (Meets.node (fun _ _ hg _ => hg) fun _ _ _ => not_false) fun _ =>
      substitute_safe id _ (by simp [hl, hr])

end Specialize
end PartyPlan
