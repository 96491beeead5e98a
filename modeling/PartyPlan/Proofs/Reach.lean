import Mathlib.Logic.Relation
import PartyPlan.Plan.TopSort
import PartyPlan.Proofs.Links

/-! Reading a plan from its roots. Where every edge and every root leads to a node that is there, a
reading visits just the nodes some root leads to, and sorting fails only on a cycle below a root. -/
open Relation (ReflTransGen TransGen)

namespace PartyPlan.Plan

variable {g : Plan} {id p c x : NodeId}

structure InRange (g : Plan) : Prop where
  parents : ∀ c p, p ∈ g.parentsOf c → p < g.size
  children : ∀ p c, c ∈ g.childrenOf p → c < g.size
  roots : ∀ r ∈ g.roots, r < g.size

/-- An edge as its upper end knows it. -/
def Edge (g : Plan) (p c : NodeId) : Prop := c ∈ g.childrenOf p

theorem Edge.lt_size (h : g.Edge p c) : p < g.size :=
  lt_size_iff.mpr ((mem_childrenOf.mp h).imp fun _ hn => hn.1)

/-- Some root leads to a node. -/
inductive Reaches (g : Plan) : NodeId → Prop where
  | root {r : NodeId} : r ∈ g.roots → Reaches g r
  | child {p c : NodeId} : Reaches g p → g.Edge p c → Reaches g c

theorem Reaches.along (h : g.Reaches p) (hx : ReflTransGen g.Edge p x) : g.Reaches x := by
  induction hx with
  | refl => exact h
  | tail _ he ih => exact ih.child he

theorem Reaches.lt_size (hroots : ∀ r ∈ g.roots, r < g.size)
    (hchildren : ∀ p c, c ∈ g.childrenOf p → c < g.size) (h : g.Reaches x) : x < g.size := by
  cases h with
  | root hr => exact hroots x hr
  | child _ he => exact hchildren _ x he

theorem InRange.reaches_lt (hg : g.InRange) (h : g.Reaches x) : x < g.size :=
  h.lt_size hg.roots hg.children

/-- No node below a root lies on a cycle. -/
def Acyclic (g : Plan) : Prop := ∀ x, g.Reaches x → ¬ TransGen g.Edge x x

/-- No node lies on a cycle, whether or not a root leads to it. -/
def CycleFree (g : Plan) : Prop := ∀ x, ¬ TransGen g.Edge x x

theorem CycleFree.acyclic (h : g.CycleFree) : g.Acyclic := fun x _ => h x

/-- Where every edge leads to a later node there is no cycle. -/
theorem cycleFree_of_lt (h : ∀ p c, g.Edge p c → p < c) : g.CycleFree := by
  intro x hcycle
  have hlt : ∀ y, TransGen g.Edge x y → x < y := by
    intro y hy
    induction hy with
    | single he => exact h x _ he
    | tail _ he ih => exact Nat.lt_trans ih (h _ _ he)
  exact absurd (hlt x hcycle) (Nat.lt_irrefl x)

theorem acyclic_of_lt (h : ∀ p c, g.Edge p c → p < c) : g.Acyclic := (cycleFree_of_lt h).acyclic

theorem fetch_eq_ok {n : Node} : g.fetch id = .ok n ↔ g.get? id = some n := by
  unfold fetch
  cases g.get? id <;> simp

theorem exists_fetch (h : id < g.size) : ∃ n, g.fetch id = .ok n := by
  obtain ⟨n, hn⟩ := lt_size_iff.mp h
  exact ⟨n, fetch_eq_ok.mpr hn⟩

def Grounded (g : Plan) : Prop := ∀ x, g.Reaches x → x < g.size

theorem InRange.grounded (hg : g.InRange) : g.Grounded := fun _ hx => hg.reaches_lt hx

/-- What a reading of a list of nodes adds to what was seen. -/
structure Visited (g : Plan) (todo : List NodeId) (v v' : Visits) : Prop where
  seen : ∀ x ∈ v.seen, x ∈ v'.seen
  done : ∀ x ∈ todo, x ∈ v'.seen
  below : ∀ x ∈ v'.seen, x ∈ v.seen ∨ ∃ t ∈ todo, ReflTransGen g.Edge t x
  closed : ∀ x ∈ v'.seen, x ∈ v.seen ∨ ∀ c, g.Edge x c → c ∈ v'.seen
  there : ∀ x ∈ v'.seen, x ∈ v.seen ∨ x < g.size

theorem mem_children_iff_edge {n : Node} (hn : g.fetch id = .ok n) :
    c ∈ n.children.toList ↔ g.Edge id c := by
  rw [Edge, childrenOf_eq (fetch_eq_ok.mp hn), IdSet.mem_def]

/-- A reading that comes to an end has seen what it should, on any plan. -/
theorem visited_of_visitAll (todo : List NodeId) (v v' : Visits) (h : g.visitAll todo v = .ok v') :
    Visited g todo v v' := by
  fun_induction visitAll g todo v with
  | case1 v =>
    cases h
    exact ⟨fun _ h => h, by simp, fun _ h => .inl h, fun _ h => .inl h, fun _ h => .inl h⟩
  | case2 v id rest hs ih =>
    have hv := ih h
    refine ⟨hv.seen, ?_, ?_, hv.closed, hv.there⟩
    · intro x hx
      rcases List.mem_cons.mp hx with rfl | hx
      · exact hv.seen x hs
      · exact hv.done x hx
    · intro x hx
      rcases hv.below x hx with h | ⟨t, h, hp⟩
      · exact .inl h
      · exact .inr ⟨t, by simp [h], hp⟩
  | case3 v id rest hs e he => cases h
  | case4 v id rest hs n hn ih =>
    have hkids : ∀ c, c ∈ n.children.toList ↔ g.Edge id c := fun c => mem_children_iff_edge hn
    have hv := ih h
    refine ⟨fun x hx => hv.seen x (by simp [hx]), ?_, ?_, ?_, ?_⟩
    · intro x hx
      rcases List.mem_cons.mp hx with rfl | hx
      · exact hv.seen x (by simp)
      · exact hv.done x (by simp [hx])
    · intro x hx
      rcases hv.below x hx with h | ⟨t, h, hp⟩
      · rcases IdSet.mem_insert.mp h with rfl | h
        · exact .inr ⟨x, by simp, .refl⟩
        · exact .inl h
      · rcases List.mem_append.mp h with h | h
        · exact .inr ⟨id, by simp, .head ((hkids t).mp h) hp⟩
        · exact .inr ⟨t, by simp [h], hp⟩
    · intro x hx
      rcases hv.closed x hx with h | h
      · rcases IdSet.mem_insert.mp h with rfl | h
        · exact .inr fun c hc => hv.done c (List.mem_append_left _ ((hkids c).mpr hc))
        · exact .inl h
      · exact .inr h
    · intro x hx
      rcases hv.there x hx with h | h
      · rcases IdSet.mem_insert.mp h with rfl | h
        · exact .inr (lt_size_of_fetch hn)
        · exact .inl h
      · exact .inr h

/-- A reading comes to an end where nothing it is led to is missing. -/
theorem visitAll_eq_ok (hg : g.Grounded) (todo : List NodeId) (v : Visits)
    (ht : ∀ t ∈ todo, g.Reaches t) : ∃ v', g.visitAll todo v = .ok v' := by
  fun_induction visitAll g todo v with
  | case1 v => exact ⟨v, rfl⟩
  | case2 v id rest hs ih => exact ih fun t h => ht t (by simp [h])
  | case3 v id rest hs e he =>
    obtain ⟨n, hn⟩ := exists_fetch (hg id (ht id (by simp)))
    simp [hn] at he
  | case4 v id rest hs n hn ih =>
    refine ih fun t h => ?_
    rcases List.mem_append.mp h with h | h
    · exact (ht id (by simp)).child ((mem_children_iff_edge hn).mp h)
    · exact ht t (by simp [h])

/-- What is seen from the roots is what some root leads to. -/
theorem mem_seen_iff {v : Visits} (h : g.visits = .ok v) : x ∈ v.seen ↔ g.Reaches x := by
  have hv := visited_of_visitAll g.roots.toList {} v h
  have hnew : ∀ x, ¬ x ∈ ({} : Visits).seen := fun x => IdSet.not_mem_empty x
  constructor
  · intro hx
    rcases hv.below x hx with h | ⟨t, ht, hp⟩
    · exact absurd h (hnew x)
    · exact (Reaches.root ht).along hp
  · intro hx
    induction hx with
    | root hr => exact hv.done _ hr
    | child _ hedge ih =>
      rcases hv.closed _ ih with h | h
      · exact absurd h (hnew _)
      · exact h _ hedge

theorem grounded_of_visits {v : Visits} (h : g.visits = .ok v) : g.Grounded := by
  intro x hx
  have hv := visited_of_visitAll g.roots.toList {} v h
  exact (hv.there x ((mem_seen_iff h).mpr hx)).resolve_left (IdSet.not_mem_empty x)

/-- A reading visits just the nodes some root leads to. -/
theorem Grounded.visits_spec (hg : g.Grounded) :
    ∃ v, g.visits = .ok v ∧ ∀ x, x ∈ v.seen ↔ g.Reaches x := by
  obtain ⟨v, he⟩ := visitAll_eq_ok hg g.roots.toList {} fun t ht => .root ht
  exact ⟨v, he, fun x => mem_seen_iff he⟩

theorem visits_spec (hg : g.InRange) :
    ∃ v, g.visits = .ok v ∧ ∀ x, x ∈ v.seen ↔ g.Reaches x := hg.grounded.visits_spec

theorem insertByName_perm (a : NodeId) (l : List NodeId) : (g.insertByName a l).Perm (a :: l) := by
  induction l with
  | nil => exact .refl _
  | cons b l ih =>
    simp only [insertByName]
    split
    · exact .refl _
    · exact (ih.cons b).trans (.swap a b l)

theorem sortByName_perm (l : List NodeId) : (g.sortByName l).Perm l := by
  induction l with
  | nil => exact .refl _
  | cons a l ih => exact (insertByName_perm a _).trans (ih.cons a)

theorem mem_sortByName {b : NodeId} {l : List NodeId} : b ∈ g.sortByName l ↔ b ∈ l :=
  (sortByName_perm l).mem_iff

theorem sortedChildren_eq_ok (hid : id < g.size) (hlt : ∀ c ∈ g.childrenOf id, c < g.size) :
    g.sortedChildren id = .ok (g.sortByName (g.childrenOf id).toList) := by
  obtain ⟨n, hn⟩ := exists_fetch hid
  have hc := childrenOf_eq (fetch_eq_ok.mp hn)
  rw [sortedChildren, hn, hc]
  exact sortedByName_eq_ok fun c h => hlt c (hc ▸ h)

theorem sortedParents_eq_ok (hg : g.InRange) (hid : id < g.size) :
    g.sortedParents id = .ok (g.sortByName (g.parentsOf id).toList) := by
  obtain ⟨n, hn⟩ := exists_fetch hid
  have hp := parentsOf_eq (fetch_eq_ok.mp hn)
  rw [sortedParents, hn, hp]
  exact sortedByName_eq_ok fun p h => hg.parents id p (hp ▸ h)

theorem orderedChildren_eq_ok (byName : Bool) (hg : g.Grounded) (hid : g.Reaches id) :
    ∃ cs, g.orderedChildren byName id = .ok cs ∧ ∀ c, c ∈ cs ↔ g.Edge id c := by
  unfold orderedChildren
  cases byName with
  | true =>
    have hlt : ∀ c ∈ g.childrenOf id, c < g.size := fun c hc => hg c (hid.child hc)
    exact ⟨_, sortedChildren_eq_ok (hg id hid) hlt, fun c => mem_sortByName⟩
  | false =>
    obtain ⟨n, hn⟩ := exists_fetch (hg id hid)
    refine ⟨n.children.toList, by simp [hn, Except.map], fun c => ?_⟩
    rw [Edge, childrenOf_eq (fetch_eq_ok.mp hn), IdSet.mem_def]

/-- Whatever is still to be entered before a node is left lies below that node. -/
def Below (g : Plan) : List Visit → Prop
  | [] => True
  | .enter x :: rest => (∀ a, .leave a ∈ rest → TransGen g.Edge a x) ∧ Below g rest
  | .leave _ :: rest => Below g rest

theorem below_enter {cs : List NodeId} {rest : List Visit} (hcs : ∀ c ∈ cs, g.Edge id c)
    (h : Below g (.enter id :: rest)) : Below g (cs.map .enter ++ .leave id :: rest) := by
  induction cs with
  | nil => exact h.2
  | cons c cs ih =>
    refine ⟨fun a ha => ?_, ih fun d hd => hcs d (by simp [hd])⟩
    have hc := hcs c (by simp)
    replace ha : .leave a ∈ cs.map Visit.enter ++ .leave id :: rest := ha
    simp only [List.mem_append, List.mem_map, reduceCtorEq, and_false, exists_false, false_or,
      List.mem_cons, Visit.leave.injEq] at ha
    rcases ha with rfl | ha
    · exact .single hc
    · exact (h.1 a ha).tail hc

/-- The work left to a sort: it concerns reachable nodes, every node that is entered and not left is
still to be left, and what is entered before that lies below it. -/
structure Pending (g : Plan) (todo : List Visit) (active : NodeSet) : Prop where
  enter : ∀ x, .enter x ∈ todo → g.Reaches x
  leave : ∀ x, .leave x ∈ todo → g.Reaches x
  active : ∀ a ∈ active, .leave a ∈ todo
  below : Below g todo

/-- Sorting places reachable nodes only, and is refused only for a reachable node on a cycle. -/
theorem sortLoop_spec (hg : g.Grounded) (byName : Bool) (todo : List Visit) (active marked : NodeSet)
    (placed : List NodeId) (h : Pending g todo active) :
    (∃ order, g.sortLoop byName todo active marked placed = .ok order ∧
      ∀ x ∈ order, x ∈ placed ∨ g.Reaches x) ∨
    ∃ x, g.sortLoop byName todo active marked placed = .error (.cycle (g.describe x)) ∧
      g.Reaches x ∧ TransGen g.Edge x x := by
  fun_induction sortLoop g byName todo active marked placed with
  | case1 active marked placed => exact .inl ⟨placed, rfl, fun x hx => .inl hx⟩
  | case2 active marked placed id rest ih =>
    have hr := h.leave id (by simp)
    have hp : Pending g rest (active.erase id) := by
      refine ⟨fun x hx => h.enter x (by simp [hx]), fun x hx => h.leave x (by simp [hx]), ?_, h.below⟩
      intro a ha
      obtain ⟨ha, hne⟩ := IdSet.mem_erase.mp ha
      simpa [hne] using h.active a ha
    rcases ih hp with ⟨order, he, ho⟩ | hcycle
    · refine .inl ⟨order, he, fun x hx => ?_⟩
      rcases ho x hx with hx | hx
      · rcases List.mem_cons.mp hx with rfl | hx
        · exact .inr hr
        · exact .inl hx
      · exact .inr hx
    · exact .inr hcycle
  | case3 active marked placed id rest ha =>
    have hleave : .leave id ∈ rest := by simpa using h.active id ha
    exact .inr ⟨id, rfl, h.enter id (by simp), h.below.1 id hleave⟩
  | case4 active marked placed id rest ha hm ih =>
    refine ih ⟨fun x hx => h.enter x (by simp [hx]), fun x hx => h.leave x (by simp [hx]), ?_,
      h.below.2⟩
    intro a ha
    simpa using h.active a ha
  | case5 active marked placed id rest ha hm e he =>
    obtain ⟨cs, hcs, _⟩ := orderedChildren_eq_ok byName hg (h.enter id (by simp))
    simp [hcs] at he
  | case6 active marked placed id rest ha hm cs hcs ih =>
    have hid := h.enter id (by simp)
    obtain ⟨cs', hcs', hedge⟩ := orderedChildren_eq_ok byName hg hid
    rw [hcs] at hcs'
    cases hcs'
    refine ih ⟨fun x hx => ?_, fun x hx => ?_, fun a ha => ?_,
      below_enter (fun c hc => (hedge c).mp hc) h.below⟩
    · simp only [List.mem_append, List.mem_map, Visit.enter.injEq, exists_eq_right, List.mem_cons,
        reduceCtorEq, false_or] at hx
      rcases hx with hx | hx
      · exact hid.child ((hedge x).mp hx)
      · exact h.enter x (by simp [hx])
    · simp only [List.mem_append, List.mem_map, reduceCtorEq, and_false, exists_false, false_or,
        List.mem_cons, Visit.leave.injEq] at hx
      rcases hx with rfl | hx
      · exact hid
      · exact h.leave x (by simp [hx])
    · rcases IdSet.mem_insert.mp ha with rfl | ha
      · simp
      · have := h.active a ha
        simp only [List.mem_cons, reduceCtorEq, false_or] at this
        simp [this]

def leaving : List Visit → List NodeId
  | [] => []
  | .enter _ :: rest => leaving rest
  | .leave id :: rest => id :: leaving rest

@[simp] theorem leaving_enter_append (cs : List NodeId) (rest : List Visit) :
    leaving (cs.map .enter ++ rest) = leaving rest := by
  induction cs with
  | nil => rfl
  | cons c cs ih => exact ih

/-- What was ever entered is placed or still to be left, once. -/
structure Kept (todo : List Visit) (marked : NodeSet) (placed : List NodeId) : Prop where
  nodup : (leaving todo ++ placed).Nodup
  marked : ∀ x, x ∈ leaving todo ++ placed ↔ x ∈ marked

theorem kept_start (ids : List NodeId) : Kept (ids.map .enter) ∅ [] := by
  have hnone : leaving (ids.map .enter) = [] := by simpa [leaving] using leaving_enter_append ids []
  exact ⟨by simp [hnone], by simp [hnone]⟩

/-- A node that is left is placed. -/
theorem Kept.leave {rest : List Visit} {marked : NodeSet} {placed : List NodeId}
    (h : Kept (.leave id :: rest) marked placed) : Kept rest marked (id :: placed) := by
  have hperm : (leaving rest ++ id :: placed).Perm (leaving (.leave id :: rest) ++ placed) :=
    List.perm_middle
  exact ⟨hperm.nodup_iff.mpr h.nodup, fun x => hperm.mem_iff.trans (h.marked x)⟩

theorem Kept.skip {rest : List Visit} {marked : NodeSet} {placed : List NodeId}
    (h : Kept (.enter id :: rest) marked placed) : Kept rest marked placed := ⟨h.nodup, h.marked⟩

/-- A node that is entered for the first time is to be left. -/
theorem Kept.enter {rest : List Visit} {marked : NodeSet} {placed : List NodeId}
    (h : Kept (.enter id :: rest) marked placed) (hm : ¬ id ∈ marked) (cs : List NodeId) :
    Kept (cs.map .enter ++ .leave id :: rest) (marked.insert id) placed := by
  have hleaving : leaving (cs.map .enter ++ .leave id :: rest) = id :: leaving rest :=
    leaving_enter_append cs _
  have hnew : ¬ id ∈ leaving rest ++ placed := fun hid => hm ((h.marked id).mp hid)
  refine ⟨?_, fun x => ?_⟩
  · rw [hleaving]
    exact List.nodup_cons.mpr ⟨hnew, h.nodup⟩
  · rw [hleaving, IdSet.mem_insert, ← h.marked x]
    exact List.mem_cons

/-- A sort that is not refused places once whatever was entered or is to be entered. -/
theorem sortLoop_places {byName : Bool} {todo : List Visit} {active marked : NodeSet}
    {placed order : List NodeId} (h : g.sortLoop byName todo active marked placed = .ok order)
    (hk : Kept todo marked placed) :
    order.Nodup ∧ ∀ x, x ∈ leaving todo ++ placed ∨ .enter x ∈ todo → x ∈ order := by
  fun_induction sortLoop g byName todo active marked placed with
  | case1 active marked placed =>
    cases h
    exact ⟨hk.nodup, fun x hx => by simpa [leaving] using hx⟩
  | case2 active marked placed id rest ih =>
    obtain ⟨hnodup, hmem⟩ := ih h hk.leave
    have hperm : (leaving rest ++ id :: placed).Perm (leaving (.leave id :: rest) ++ placed) :=
      List.perm_middle
    refine ⟨hnodup, fun x hx => hmem x ?_⟩
    rw [hperm.mem_iff]
    simpa using hx
  | case3 active marked placed id rest ha => cases h
  | case4 active marked placed id rest ha hm ih =>
    obtain ⟨hnodup, hmem⟩ := ih h hk.skip
    refine ⟨hnodup, fun x hx => hmem x ?_⟩
    rcases hx with hx | hx
    · exact .inl hx
    · rcases List.mem_cons.mp hx with hx | hx
      · cases hx
        exact .inl ((hk.marked id).mpr hm)
      · exact .inr hx
  | case5 active marked placed id rest ha hm e he => cases h
  | case6 active marked placed id rest ha hm cs hcs ih =>
    obtain ⟨hnodup, hmem⟩ := ih h (hk.enter hm cs)
    refine ⟨hnodup, fun x hx => hmem x ?_⟩
    rw [leaving_enter_append]
    rcases hx with hx | hx
    · exact .inl (List.mem_cons_of_mem id hx)
    · rcases List.mem_cons.mp hx with hx | hx
      · cases hx
        exact .inl (List.mem_cons_self)
      · exact .inr (by simp [hx])

/-- A sort by name starts by entering the reachable nodes by name. -/
theorem topSort_true {v : Visits} (hv : g.visits = .ok v) : g.topSort true =
    g.sortLoop true ((g.sortByName v.seen.toList).reverse.map .enter) ∅ ∅ [] := by
  have hlt : ∀ x ∈ v.seen.toList, x < g.size := fun x hx =>
    grounded_of_visits hv x ((mem_seen_iff hv).mp hx)
  simp [topSort, reachable, hv, Except.map, bind, Except.bind, sortedByName_eq_ok hlt]

/-- A sort starts by entering the reachable nodes. -/
theorem topSort_eq_sortLoop (hg : g.Grounded) (byName : Bool) :
    ∃ ids : List NodeId, g.topSort byName = g.sortLoop byName (ids.reverse.map .enter) ∅ ∅ [] ∧
      ∀ x, x ∈ ids ↔ g.Reaches x := by
  obtain ⟨v, hv, hseen⟩ := hg.visits_spec
  cases byName with
  | true => exact ⟨_, topSort_true hv, fun x => mem_sortByName.trans (hseen x)⟩
  | false =>
    refine ⟨v.seen.toList, ?_, hseen⟩
    simp [topSort, reachable, hv, Except.map, bind, Except.bind]

/-- Where no reachable node is missing, a sort places reachable nodes only, or names a reachable node
on a cycle. -/
theorem topSort_spec (hg : g.Grounded) (byName : Bool) :
    (∃ order, g.topSort byName = .ok order ∧ ∀ x ∈ order, g.Reaches x) ∨
    ∃ x, g.topSort byName = .error (.cycle (g.describe x)) ∧ g.Reaches x ∧
      TransGen g.Edge x x := by
  obtain ⟨ids, hsort, hreach⟩ := topSort_eq_sortLoop hg byName
  rw [hsort]
  have hp : Pending g (ids.reverse.map .enter) ∅ := by
    refine ⟨fun x hx => (hreach x).mp (by simpa using hx), fun x hx => by simp at hx,
      fun a ha => absurd ha (IdSet.not_mem_empty a), ?_⟩
    generalize ids.reverse = todo
    induction todo with
    | nil => trivial
    | cons a todo ih => exact ⟨fun b hb => by simp at hb, ih⟩
  rcases sortLoop_spec hg byName (ids.reverse.map .enter) ∅ ∅ [] hp with ⟨order, he, ho⟩ | hcycle
  · exact .inl ⟨order, he, fun x hx => (ho x hx).resolve_left (by simp)⟩
  · exact .inr hcycle

theorem grounded_of_topSort {byName : Bool} {order : List NodeId}
    (h : g.topSort byName = .ok order) : g.Grounded := by
  cases hv : g.visits with
  | error e => simp [topSort, reachable, hv, Except.map, bind, Except.bind] at h
  | ok v => exact grounded_of_visits hv

theorem reaches_of_mem_topSort {byName : Bool} {order : List NodeId}
    (h : g.topSort byName = .ok order) (hx : x ∈ order) : g.Reaches x := by
  rcases topSort_spec (grounded_of_topSort h) byName with ⟨order', hok, hreach⟩ | ⟨y, herr, _⟩
  · cases hok.symm.trans h
    exact hreach x hx
  · cases herr.symm.trans h

/-- A sort places every reachable node, and each once. -/
theorem topSort_places {byName : Bool} {order : List NodeId} (h : g.topSort byName = .ok order) :
    order.Nodup ∧ ∀ x, x ∈ order ↔ g.Reaches x := by
  obtain ⟨ids, hsort, hreach⟩ := topSort_eq_sortLoop (grounded_of_topSort h) byName
  obtain ⟨hnodup, hmem⟩ := sortLoop_places (hsort.symm.trans h) (kept_start ids.reverse)
  refine ⟨hnodup, fun x => ⟨reaches_of_mem_topSort h, fun hx => hmem x (.inr ?_)⟩⟩
  simpa using (hreach x).mpr hx

theorem Acyclic.topSort_eq_ok (h : g.Acyclic) (hg : g.InRange) (byName : Bool) :
    ∃ order, g.topSort byName = .ok order ∧ ∀ x ∈ order, g.Reaches x := by
  rcases topSort_spec hg.grounded byName with hok | ⟨x, _, hx, hcycle⟩
  · exact hok
  · exact absurd hcycle (h x hx)

theorem anySecure_eq_ok (except : Kind) {ids : List NodeId} (h : ∀ x ∈ ids, x < g.size) :
    ∃ b, g.anySecure except ids = .ok b := by
  induction ids with
  | nil => exact ⟨false, rfl⟩
  | cons a ids ih =>
    obtain ⟨n, hn⟩ := exists_fetch (h a (by simp))
    obtain ⟨b, hb⟩ := ih fun x hx => h x (by simp [hx])
    rw [anySecure, hn]
    simp only [bind, Except.bind]
    split
    · exact ⟨true, rfl⟩
    · exact ⟨b, hb⟩

structure Readable (g : Plan) : Prop where
  visits : ∃ v, g.visits = .ok v
  topSort : ∀ byName, (∃ order, g.topSort byName = .ok order) ∨
    ∃ x, g.topSort byName = .error (.cycle (g.describe x))
  sortedChildren : ∀ id < g.size, ∃ ids, g.sortedChildren id = .ok ids
  sortedParents : ∀ id < g.size, ∃ ids, g.sortedParents id = .ok ids
  requiresMpc : ∀ id < g.size, ∃ b, g.requiresMpc id = .ok b
  isUpperBoundary : ∀ id < g.size, ∃ b, g.isUpperBoundary id = .ok b
  isLowerBoundary : ∀ id < g.size, ∃ b, g.isLowerBoundary id = .ok b
  isBoundary : ∀ id < g.size, ∃ b, g.isBoundary id = .ok b

theorem requiresMpc_eq_ok (hid : id < g.size) : ∃ b, g.requiresMpc id = .ok b := by
  obtain ⟨n, hn⟩ := exists_fetch hid
  rw [requiresMpc, hn]
  simp only [bind, Except.bind]
  split
  · exact ⟨false, rfl⟩
  · split <;> exact ⟨_, rfl⟩

theorem isUpperBoundary_eq_ok (hg : g.InRange) (hid : id < g.size) :
    ∃ b, g.isUpperBoundary id = .ok b := by
  obtain ⟨n, hn⟩ := exists_fetch hid
  have hp : ∀ p ∈ n.parents.toList, p < g.size := fun p h =>
    hg.parents id p (parentsOf_eq (fetch_eq_ok.mp hn) ▸ h)
  obtain ⟨b, hb⟩ := anySecure_eq_ok .closing hp
  rw [isUpperBoundary, hn]
  simp only [bind, Except.bind]
  split
  · exact ⟨!b, by rw [hb]; rfl⟩
  · exact ⟨false, rfl⟩

theorem isLowerBoundary_eq_ok (hg : g.InRange) (hid : id < g.size) :
    ∃ b, g.isLowerBoundary id = .ok b := by
  obtain ⟨n, hn⟩ := exists_fetch hid
  have hc : ∀ c ∈ n.children.toList, c < g.size := fun c h =>
    hg.children id c (childrenOf_eq (fetch_eq_ok.mp hn) ▸ h)
  obtain ⟨b, hb⟩ := anySecure_eq_ok .opening hc
  rw [isLowerBoundary, hn]
  simp only [bind, Except.bind]
  split
  · exact ⟨!b, by rw [hb]; rfl⟩
  · exact ⟨false, rfl⟩

theorem InRange.readable (hg : g.InRange) : g.Readable where
  visits := (visits_spec hg).imp fun _ h => h.1
  topSort byName := (topSort_spec hg.grounded byName).imp (.imp fun _ h => h.1) (.imp fun _ h => h.1)
  sortedChildren id hid := ⟨_, sortedChildren_eq_ok hid (hg.children id)⟩
  sortedParents _ hid := ⟨_, sortedParents_eq_ok hg hid⟩
  requiresMpc _ hid := requiresMpc_eq_ok hid
  isUpperBoundary _ hid := isUpperBoundary_eq_ok hg hid
  isLowerBoundary _ hid := isLowerBoundary_eq_ok hg hid
  isBoundary _ hid := isUpperBoundary_eq_ok hg hid

end PartyPlan.Plan
