import Mathlib.Data.List.Nodup
import PartyPlan.Proofs.Integrity

/-! Walking down from the roots. A walk goes over the children of a node before it comes to the next node of
its list, and takes along the set of the nodes seen. Reading a plan with a list of nodes to come is this
walk: it shows a visitor the same nodes in the same order. The walk comes back on every plan whose roots and
children are there, one with cycles too. -/
open Relation (TransGen)

namespace PartyPlan
namespace Plan

variable {g : Plan} {todo rest : List NodeId} {v v' : Visits} {id x : NodeId} {n : Node}

/-- A walk over a list of nodes, from the nodes seen and the state of the visitor before it to those after
it, with the number of nodes it was called for. A node seen before is passed by. -/
inductive Walk (g : Plan) {σ : Type} (visitor : σ → Node → σ) :
    List NodeId → NodeSet × σ → Nat → NodeSet × σ → Prop where
  | stop {a} : Walk g visitor [] a 0 a
  | pass {id rest a k b} : id ∈ a.1 → Walk g visitor rest a k b → Walk g visitor (id :: rest) a (k + 1) b
  | visit {id rest n a k b l c} : ¬ id ∈ a.1 → g.get? id = some n →
      Walk g visitor n.children.toList (a.1.insert id, visitor a.2 n) k b → Walk g visitor rest b l c →
      Walk g visitor (id :: rest) a (k + l + 1) c

namespace Walk

variable {σ : Type} {visitor : σ → Node → σ} {a b c : NodeSet × σ} {k l : Nat}

/-- There is one way to walk. -/
theorem unique (h : g.Walk visitor todo a k b) (h' : g.Walk visitor todo a l c) : k = l ∧ b = c := by
  induction h generalizing l c with
  | stop =>
    cases h'
    exact ⟨rfl, rfl⟩
  | pass hs _ ih =>
    cases h' with
    | pass _ hrest =>
      obtain ⟨rfl, rfl⟩ := ih hrest
      exact ⟨rfl, rfl⟩
    | visit hs' => exact absurd hs hs'
  | visit hs hn _ _ ihchildren ihrest =>
    cases h' with
    | pass hs' => exact absurd hs' hs
    | visit _ hn' hchildren hrest =>
      cases Option.some.inj (hn.symm.trans hn')
      obtain ⟨rfl, rfl⟩ := ihchildren hchildren
      obtain ⟨rfl, rfl⟩ := ihrest hrest
      exact ⟨rfl, rfl⟩

/-- A walk over two lists comes back from the first before it starts on the second. -/
theorem split {front back : List NodeId} (h : g.Walk visitor (front ++ back) a k c) :
    ∃ i j b, g.Walk visitor front a i b ∧ g.Walk visitor back b j c ∧ k = i + j := by
  induction front generalizing a k with
  | nil => exact ⟨0, k, a, .stop, h, (Nat.zero_add k).symm⟩
  | cons id front ih =>
    cases h with
    | pass hs hrest =>
      obtain ⟨i, j, b, hfront, hback, rfl⟩ := ih hrest
      exact ⟨_, j, b, .pass hs hfront, hback, by omega⟩
    | visit hs hn hchildren hrest =>
      obtain ⟨i, j, b, hfront, hback, rfl⟩ := ih hrest
      exact ⟨_, j, b, .visit hs hn hchildren hfront, hback, by omega⟩

end Walk

def shown (g : Plan) (v : Visits) : List Node := v.order.filterMap g.get?

theorem visitedNodes_eq (h : g.visits = .ok v) : g.visitedNodes = .ok (g.shown v) := by
  rw [visitedNodes, h]
  rfl

def edgesFrom (g : Plan) (order : List NodeId) : Nat :=
  (order.flatMap fun x => (g.childrenOf x).toList).length

theorem edgesFrom_concat {order : List NodeId} (hn : g.get? id = some n) :
    g.edgesFrom (order ++ [id]) = g.edgesFrom order + n.children.toList.length := by
  simp [edgesFrom, childrenOf_eq hn]

theorem shown_visit (hn : g.get? id = some n) :
    g.shown ⟨v.seen.insert id, v.order ++ [id]⟩ = g.shown v ++ [n] := by
  simp [shown, hn]

/-- A reading that comes to an end is a walk. Each node visited costs one call for every child, when its
children are put in front of the nodes to come. -/
theorem walk_of_visitAll {σ : Type} (visitor : σ → Node → σ) (s : σ) (h : g.visitAll todo v = .ok v') :
    ∃ k, g.Walk visitor todo (v.seen, (g.shown v).foldl visitor s) k
        (v'.seen, (g.shown v').foldl visitor s) ∧
      k + g.edgesFrom v.order = todo.length + g.edgesFrom v'.order := by
  fun_induction visitAll g todo v with
  | case1 v =>
    cases h
    exact ⟨0, .stop, by simp⟩
  | case2 v id rest hs ih =>
    obtain ⟨k, hwalk, hcalls⟩ := ih h
    exact ⟨k + 1, .pass hs hwalk, by simp only [List.length_cons]; omega⟩
  | case3 v id rest hs e he => cases h
  | case4 v id rest hs n hn ih =>
    obtain ⟨k, hwalk, hcalls⟩ := ih h
    have hget := fetch_eq_ok.mp hn
    rw [shown_visit hget, List.foldl_append] at hwalk
    -- The list does not say where the children end; the walk over them is cut off from the walk over the rest.
    obtain ⟨i, j, b, hchildren, hrest, rfl⟩ := hwalk.split
    refine ⟨i + j + 1, .visit hs hget hchildren hrest, ?_⟩
    rw [edgesFrom_concat hget, List.length_append] at hcalls
    simp only [List.length_cons]
    omega

def LedTo (g : Plan) (before : List NodeId) (x : NodeId) : Prop :=
  x ∈ g.roots ∨ ∃ p ∈ before, g.Edge p x

theorem LedTo.mono {before later : List NodeId} (h : g.LedTo before x) (hsub : before ⊆ later) :
    g.LedTo later x :=
  h.imp_right fun hled => hled.imp fun _ hp => ⟨hsub hp.1, hp.2⟩

/-- What holds at every moment of a reading: the order has the nodes seen, each once, and something before
each node led to it; so it is with the nodes to come. -/
structure OnTrack (g : Plan) (todo : List NodeId) (v : Visits) : Prop where
  nodup : v.order.Nodup
  mem : ∀ x, x ∈ v.order ↔ x ∈ v.seen
  ahead : ∀ x ∈ todo, g.LedTo v.order x
  trail : ∀ before x after, v.order = before ++ x :: after → g.LedTo before x

namespace OnTrack

theorem start : g.OnTrack g.roots.toList {} where
  nodup := .nil
  mem x := by simp
  ahead _ hx := .inl hx
  trail before x after h := by simp at h

theorem pass (h : g.OnTrack (id :: rest) v) : g.OnTrack rest v where
  nodup := h.nodup
  mem := h.mem
  ahead x hx := h.ahead x (List.mem_cons_of_mem id hx)
  trail := h.trail

/-- A first visit. The node was led to while it was to come, and leads to its children. -/
theorem visit (h : g.OnTrack (id :: rest) v) (hs : ¬ id ∈ v.seen) (hn : g.fetch id = .ok n) :
    g.OnTrack (n.children.toList ++ rest) ⟨v.seen.insert id, v.order ++ [id]⟩ where
  nodup := by
    have hnew : ¬ id ∈ v.order := fun hid => hs ((h.mem id).mp hid)
    simpa using h.nodup.concat hnew
  mem x := by simp [h.mem x, or_comm]
  ahead x hx := by
    rcases List.mem_append.mp hx with hx | hx
    · exact .inr ⟨id, by simp, (mem_children_iff_edge hn).mp hx⟩
    · exact (h.ahead x (List.mem_cons_of_mem id hx)).mono (List.subset_append_left _ _)
  trail before x after ho := by
    -- The last node of the order is the one visited now; any other stands where it stood.
    rcases List.eq_nil_or_concat after with rfl | ⟨after', last, rfl⟩
    · obtain ⟨rfl, hx⟩ := List.append_inj' ho rfl
      cases hx
      exact h.ahead id List.mem_cons_self
    · have ho' : v.order ++ [id] = (before ++ x :: after') ++ [last] := by simpa using ho
      exact h.trail before x after' (List.append_inj' ho' rfl).1

theorem visitAll (h : g.OnTrack todo v) (hv : g.visitAll todo v = .ok v') : g.OnTrack [] v' := by
  fun_induction Plan.visitAll g todo v with
  | case1 v =>
    cases hv
    exact h
  | case2 v id rest hs ih => exact ih h.pass hv
  | case3 v id rest hs e he => cases hv
  | case4 v id rest hs n hn ih => exact ih (h.visit hs hn) hv

end OnTrack

theorem onTrack_of_visits (h : g.visits = .ok v) : g.OnTrack [] v := OnTrack.start.visitAll h

/-- A visitor is shown what stands at each place of the order. -/
theorem map_shown (hlt : ∀ x ∈ v.order, x < g.size) : (g.shown v).map some = v.order.map g.get? := by
  rw [shown, List.map_filterMap_some_eq_filter_map_isSome]
  refine List.filter_eq_self.mpr fun o ho => ?_
  obtain ⟨x, hx, rfl⟩ := List.mem_map.mp ho
  obtain ⟨n, hn⟩ := lt_size_iff.mp (hlt x hx)
  rw [hn]
  rfl

/-- The walk from the roots comes back, with what the reading of the plan has seen and shown, and in no
other way. -/
theorem walk_roots_iff {σ : Type} (visitor : σ → Node → σ) (h : g.visits = .ok v) (s t : σ) (calls : Nat)
    (seen : NodeSet) :
    g.Walk visitor g.roots.toList (∅, s) calls (seen, t) ↔
      calls = g.roots.size + g.edgesFrom v.order ∧ seen = v.seen ∧
        t = (g.shown v).foldl visitor s := by
  obtain ⟨k, hwalk, hcalls⟩ := walk_of_visitAll visitor s h
  have hk : k = g.roots.size + g.edgesFrom v.order := hcalls
  subst hk
  constructor
  · intro hother
    obtain ⟨hcalls, hend⟩ := hother.unique hwalk
    obtain ⟨hseen, ht⟩ := Prod.mk.inj hend
    exact ⟨hcalls, hseen, ht⟩
  · rintro ⟨rfl, rfl, rfl⟩
    exact hwalk

end Plan

open Plan

/-- Reading a plan whose roots and children are there comes to an end, with or without cycles. It sees just
the nodes some root leads to and visits each of them once, a node that is no root after some node it is a
child of. For every visitor it is the walk from the roots, which takes one call for every root and for every
child of a node visited. -/
theorem reading_exact (g : Plan) (hroots : ∀ r ∈ g.roots, r < g.size)
    (hchildren : ∀ p c, c ∈ g.childrenOf p → c < g.size) :
    ∃ v nodes, g.visits = .ok v ∧ g.reachable = .ok v.seen ∧ g.visitedNodes = .ok nodes ∧
      (∀ x, x ∈ v.seen ↔ g.Reaches x) ∧
      (∀ x, v.order.count x = if x ∈ v.seen then 1 else 0) ∧
      nodes.map some = v.order.map g.get? ∧
      (∀ before x after, v.order = before ++ x :: after → ¬ x ∈ g.roots →
        ∃ p ∈ before, x ∈ g.childrenOf p) ∧
      ∀ (σ : Type) (visitor : σ → Node → σ) (s t : σ) (calls : Nat) (seen : NodeSet),
        g.Walk visitor g.roots.toList (∅, s) calls (seen, t) ↔
          calls = g.roots.size + g.edgesFrom v.order ∧ seen = v.seen ∧
            t = nodes.foldl visitor s := by
  have hg : g.Grounded := fun _ hx => hx.lt_size hroots hchildren
  obtain ⟨v, hv, hseen⟩ := hg.visits_spec
  have htrack := onTrack_of_visits hv
  refine ⟨v, g.shown v, hv, by rw [reachable, hv]; rfl, visitedNodes_eq hv, hseen, fun x => ?_, ?_, ?_, ?_⟩
  · split
    · next hx => exact List.count_eq_one_of_mem htrack.nodup ((htrack.mem x).mpr hx)
    · next hx => exact List.count_eq_zero.mpr fun ho => hx ((htrack.mem x).mp ho)
  · exact map_shown fun x hx => hg x ((hseen x).mp ((htrack.mem x).mp hx))
  · intro before x after ho hx
    exact (htrack.trail before x after ho).resolve_left hx
  · intro σ visitor
    exact walk_roots_iff visitor hv

/-- A cycle below both roots, first seen from the first of them, and a node aside that leads there too. -/
def converging : List Call :=
  [.addNode .create "a" [] ∅, .addNode .concat "b" [] ∅, .addNode .concat "c" [] ∅,
    .addNode .create "d" [] ∅, .addNode .concat "e" [] ∅, .addRoot 0, .addRoot 3, .link 0 2, .link 2 1,
    .link 1 2, .link 3 1, .link 4 4, .link 4 1]

/-- The visitor collects the names of the four nodes below the roots, and is called for no other. -/
theorem converging_reading_exact :
    let g := (Call.afterAll converging ⟨∅, []⟩).plan
    let collect (names : List String) (n : Node) : List String := names ++ [n.output.name]
    TransGen g.Edge 2 2 ∧ 1 ∈ g.childrenOf 4 ∧ ¬ g.Reaches 4 ∧
    ∃ v, g.visits = .ok v ∧ v.order = [0, 2, 1, 3] ∧ v.order.count 2 = 1 ∧ v.order.count 4 = 0 ∧
      (∃ p ∈ [0, 2], 1 ∈ g.childrenOf p) ∧
      ∀ names calls seen, g.Walk collect g.roots.toList (∅, []) calls (seen, names) ↔
        calls = 6 ∧ seen = .ofList [0, 1, 2, 3] ∧ names = ["a", "c", "b", "d"] := by
  intro g collect
  have hg : g.InRange := (Call.linked_afterAll _).inRange
  have hcycle : TransGen g.Edge 2 2 :=
    .tail (.single (show 1 ∈ g.childrenOf 2 by decide +kernel)) (show 2 ∈ g.childrenOf 1 by decide +kernel)
  have hvisits : g.visits = .ok ⟨.ofList [0, 1, 2, 3], [0, 2, 1, 3]⟩ := by decide +kernel
  have hcalls : g.roots.size + g.edgesFrom [0, 2, 1, 3] = 6 := by decide +kernel
  have hnames : g.visitedNodes.map (·.foldl collect []) = .ok ["a", "c", "b", "d"] := by decide +kernel
  obtain ⟨v, nodes, hv, _, hnodes, hseen, hcount, _, hbefore, hwalk⟩ :=
    reading_exact g hg.roots hg.children
  cases hvisits.symm.trans hv
  have hcollected : nodes.foldl collect [] = ["a", "c", "b", "d"] := by
    rw [hnodes] at hnames
    exact Except.ok.inj hnames
  refine ⟨hcycle, by decide +kernel, fun h => ?_, _, hv, rfl, hcount 2, hcount 4,
    hbefore [0, 2] 1 [3] rfl (by decide +kernel), fun names calls seen => ?_⟩
  · exact absurd ((hseen 4).mpr h) (by decide)
  · rw [hwalk, hcalls, hcollected]

end PartyPlan
