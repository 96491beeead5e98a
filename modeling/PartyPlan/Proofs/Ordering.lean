import Mathlib.Data.List.Basic
import Mathlib.Data.Set.Card
import PartyPlan.Proofs.Integrity
import PartyPlan.Verify

/-! The order a sort finds. A node is placed when it is left, in front of what was placed before, and by
then its children are placed: they were entered after it and had to be left first. So every node stands
before its children, which on a cycle is impossible. -/
open Relation (TransGen)

namespace PartyPlan

/-- A set listed without repetition has as many members as the list. -/
theorem ncard_eq_length {s : Set Nat} {l : List Nat} (hl : l.Nodup) (h : ∀ x, x ∈ s ↔ x ∈ l) :
    s.ncard = l.length := by
  have hs : s = ↑l.toFinset := by
    ext x
    simp [h x]
  rw [hs, Set.ncard_coe_finset, List.toFinset_card_of_nodup hl]

namespace Plan

variable {g : Plan} {id p c x : NodeId} {byName : Bool} {cs order placed : List NodeId}
  {todo rest : List Visit}

theorem mem_orderedChildren (h : g.orderedChildren byName id = .ok cs) : c ∈ cs ↔ g.Edge id c := by
  unfold orderedChildren sortedChildren at h
  cases hn : g.fetch id with
  | error e => cases byName <;> simp [hn, bind, Except.bind, Except.map] at h
  | ok n =>
    rw [← mem_children_iff_edge hn]
    cases byName with
    | false =>
      simp only [hn, Except.map, Bool.false_eq_true, if_false, Except.ok.injEq] at h
      rw [← h]
    | true =>
      simp only [hn, bind, Except.bind, if_true, sortedByName] at h
      split at h
      · cases h
      · simp only [Except.ok.injEq] at h
        rw [← h, mem_sortByName]

/-! Lists in which children come later. -/

def Descending (g : Plan) : List NodeId → Prop
  | [] => True
  | x :: rest => (∀ c, g.Edge x c → c ∈ rest) ∧ Descending g rest

theorem Descending.closed (h : g.Descending order) (hp : p ∈ order) (he : g.Edge p c) : c ∈ order := by
  induction order with
  | nil => simp at hp
  | cons x rest ih =>
    rcases List.mem_cons.mp hp with rfl | hp
    · exact List.mem_cons_of_mem p (h.1 c he)
    · exact List.mem_cons_of_mem x (ih h.2 hp)

/-- No edge leads back to the first node. -/
theorem Descending.not_edge_head (h : g.Descending (x :: order)) (hn : (x :: order).Nodup)
    (hp : p ∈ x :: order) : ¬ g.Edge p x := by
  intro he
  have hx : ¬ x ∈ order := (List.nodup_cons.mp hn).1
  rcases List.mem_cons.mp hp with rfl | hp
  · exact hx (h.1 p he)
  · exact hx (h.2.closed hp he)

theorem Descending.idxOf_lt (h : g.Descending order) (hn : order.Nodup) (hp : p ∈ order)
    (he : g.Edge p c) : order.idxOf p < order.idxOf c := by
  induction order with
  | nil => simp at hp
  | cons x rest ih =>
    have hcx : x ≠ c := by
      rintro rfl
      exact h.not_edge_head hn hp he
    rw [List.idxOf_cons_ne rest hcx]
    by_cases hpx : x = p
    · rw [hpx, List.idxOf_cons_self]
      exact Nat.succ_pos _
    · rw [List.idxOf_cons_ne rest hpx]
      have hrest : p ∈ rest := (List.mem_cons.mp hp).resolve_left (Ne.symm hpx)
      exact Nat.succ_lt_succ (ih h.2 (List.nodup_cons.mp hn).2 hrest)

/-! The loop. -/

/-- When a node is left its children are there: they were there at the start, or they were entered or
left before. -/
def Supplied (g : Plan) (there : NodeId → Prop) : List Visit → Prop
  | [] => True
  | .enter x :: rest => Supplied g (fun c => c = x ∨ there c) rest
  | .leave x :: rest => (∀ c, g.Edge x c → there c) ∧ Supplied g (fun c => c = x ∨ there c) rest

theorem Supplied.mono {there there' : NodeId → Prop} (h : g.Supplied there todo)
    (hsub : ∀ c, there c → there' c) : g.Supplied there' todo := by
  induction todo generalizing there there' with
  | nil => trivial
  | cons v rest ih =>
    cases v with
    | enter x => exact ih h fun c => Or.imp_right (hsub c)
    | leave x => exact ⟨fun c he => hsub c (h.1 c he), ih h.2 fun c => Or.imp_right (hsub c)⟩

theorem supplied_enter_append {there : NodeId → Prop}
    (h : g.Supplied (fun c => c ∈ cs ∨ there c) rest) : g.Supplied there (cs.map .enter ++ rest) := by
  induction cs generalizing there with
  | nil => exact h.mono fun c hc => by simpa using hc
  | cons a cs ih =>
    refine ih (h.mono fun c hc => ?_)
    simp only [List.mem_cons] at hc
    tauto

/-- What a sort places stands before its children, if it was so from the start. -/
theorem sortLoop_descends {active marked : NodeSet}
    (h : g.sortLoop byName todo active marked placed = .ok order) (hk : Kept todo marked placed)
    (ha : ∀ x ∈ leaving todo, x ∈ active) (hs : g.Supplied (· ∈ placed) todo)
    (hd : g.Descending placed) : g.Descending order := by
  fun_induction sortLoop g byName todo active marked placed with
  | case1 active marked placed =>
    cases h
    exact hd
  | case2 active marked placed id rest ih =>
    have hid : ¬ id ∈ leaving rest := fun hx =>
      (List.nodup_cons.mp hk.nodup).1 (List.mem_append_left placed hx)
    have hactive : ∀ x ∈ leaving rest, x ∈ active.erase id := by
      intro x hx
      refine IdSet.mem_erase.mpr ⟨ha x (List.mem_cons_of_mem id hx), ?_⟩
      rintro rfl
      exact hid hx
    exact ih h hk.leave hactive (hs.2.mono fun c hc => List.mem_cons.mpr hc) ⟨hs.1, hd⟩
  | case3 active marked placed id rest hactive => cases h
  | case4 active marked placed id rest hactive hm ih =>
    -- a node that was entered and is not active has been left
    have hplaced : id ∈ placed := by
      rcases List.mem_append.mp ((hk.marked id).mpr hm) with hid | hid
      · exact absurd (ha id hid) hactive
      · exact hid
    refine ih h hk.skip ha (Supplied.mono hs fun c hc => ?_) hd
    rcases hc with rfl | hc
    · exact hplaced
    · exact hc
  | case5 active marked placed id rest hactive hm e he => cases h
  | case6 active marked placed id rest hactive hm cs hcs ih =>
    refine ih h (hk.enter hm cs) (fun x hx => ?_) (supplied_enter_append ⟨fun c he => ?_, ?_⟩) hd
    · rw [leaving_enter_append] at hx
      rcases List.mem_cons.mp hx with rfl | hx
      · exact IdSet.mem_insert.mpr (.inl rfl)
      · exact IdSet.mem_insert.mpr (.inr (ha x hx))
    · exact .inl ((mem_orderedChildren hcs).mpr he)
    · exact Supplied.mono hs fun c => Or.imp_right Or.inr

/-- A sort places every node before its children. -/
theorem topSort_descends (h : g.topSort byName = .ok order) : g.Descending order := by
  obtain ⟨ids, hsort, _⟩ := topSort_eq_sortLoop (grounded_of_topSort h) byName
  have hnone : leaving (ids.reverse.map .enter) = [] := by
    simpa [leaving] using leaving_enter_append ids.reverse []
  have hstart : g.Supplied (· ∈ []) (ids.reverse.map .enter ++ []) := supplied_enter_append trivial
  rw [List.append_nil] at hstart
  refine sortLoop_descends (hsort.symm.trans h) (kept_start ids.reverse) (fun x hx => ?_) hstart trivial
  rw [hnone] at hx
  cases hx

theorem topSort_idxOf_lt (h : g.topSort byName = .ok order) (hp : g.Reaches p) (he : g.Edge p c) :
    order.idxOf p < order.idxOf c := by
  obtain ⟨hnodup, hmem⟩ := topSort_places h
  exact (topSort_descends h).idxOf_lt hnodup ((hmem p).mpr hp) he

/-- Along a path the places in the order grow, so no path comes back. -/
theorem acyclic_of_topSort (h : g.topSort byName = .ok order) : g.Acyclic := by
  intro x hx hcycle
  have hlt : ∀ y, TransGen g.Edge x y → order.idxOf x < order.idxOf y := by
    intro y hy
    induction hy with
    | single he => exact topSort_idxOf_lt h hx he
    | tail hpath he ih => exact Nat.lt_trans ih (topSort_idxOf_lt h (hx.along hpath.to_reflTransGen) he)
  exact Nat.lt_irrefl _ (hlt x hcycle)

/-- The order of a sort passes the check of orders: a parent that stands in it at all stands among the
nodes seen. -/
theorem topologicalFrom_eq_ok {seen : NodeSet} (hup : ∀ p c, p < g.size → p ∈ g.parentsOf c → g.Edge p c)
    (hd : g.Descending cs) (hn : cs.Nodup) (hlt : ∀ x ∈ cs, x < g.size)
    (hseen : ∀ p ∈ order, p ∈ seen ∨ p ∈ cs) : Verify.topologicalFrom g order seen cs = .ok () := by
  induction cs generalizing seen with
  | nil => rfl
  | cons id rest ih =>
    obtain ⟨n, hfetch⟩ := exists_fetch (hlt id (by simp))
    have hnone : (n.parents.toList.find? fun p => decide (p ∈ order ∧ ¬ p ∈ seen)) = none := by
      refine List.find?_eq_none.mpr fun p hp hbad => ?_
      obtain ⟨hpo, hps⟩ := of_decide_eq_true hbad
      have hrest : p ∈ id :: rest := (hseen p hpo).resolve_left hps
      have hparent : p ∈ g.parentsOf id := mem_parentsOf.mpr ⟨n, fetch_eq_ok.mp hfetch, hp⟩
      exact hd.not_edge_head hn hrest (hup p id (hlt p hrest) hparent)
    have hnext : Verify.topologicalFrom g order (seen.insert id) rest = .ok () := by
      refine ih hd.2 (List.nodup_cons.mp hn).2 (fun x hx => hlt x (by simp [hx])) fun p hp => ?_
      rcases hseen p hp with hps | hrest
      · exact .inl (IdSet.mem_insert.mpr (.inr hps))
      · exact (List.mem_cons.mp hrest).imp_left fun h => IdSet.mem_insert.mpr (.inl h)
    simp only [Verify.topologicalFrom, Verify.fetch, hfetch, bind, Except.bind, hnone, hnext]

end Plan

open Plan

/-- Sorting a plan whose roots and edges lead to nodes that are there succeeds just when no node below a
root lies on a cycle, by name or by number; otherwise it names such a node. The order it finds has every
reachable node once and each before its children, and passes the check of orders where every parent that
is there knows its child. -/
theorem topSort_exact (g : Plan) (hroots : ∀ r ∈ g.roots, r < g.size)
    (hchildren : ∀ p c, c ∈ g.childrenOf p → c < g.size) (deterministic : Bool) :
    ((∃ order, g.topSort deterministic = .ok order) ↔ g.Acyclic) ∧
    (¬ g.Acyclic → ∃ x, g.topSort deterministic = .error (.cycle (g.describe x)) ∧ g.Reaches x ∧
      TransGen g.Edge x x) ∧
    ∀ order, g.topSort deterministic = .ok order →
      order.Nodup ∧ (∃ seen, g.reachable = .ok seen ∧ ∀ x, x ∈ order ↔ x ∈ seen) ∧
      (∀ p c, g.Reaches p → c ∈ g.childrenOf p →
        c ∈ order ∧ order.idxOf p < order.idxOf c) ∧
      ((∀ p c, p < g.size → p ∈ g.parentsOf c → c ∈ g.childrenOf p) →
        Verify.topological g order = .ok ()) := by
  have hg : g.Grounded := by
    intro x hx
    cases hx with
    | root hr => exact hroots x hr
    | child _ he => exact hchildren _ x he
  have hcases := topSort_spec hg deterministic
  refine ⟨⟨fun ⟨order, h⟩ => acyclic_of_topSort h, fun hacyclic => ?_⟩, fun hcyclic => ?_, ?_⟩
  · rcases hcases with ⟨order, h, _⟩ | ⟨x, _, hx, hcycle⟩
    · exact ⟨order, h⟩
    · exact absurd hcycle (hacyclic x hx)
  · rcases hcases with ⟨order, h, _⟩ | hcycle
    · exact absurd (acyclic_of_topSort h) hcyclic
    · exact hcycle
  · intro order h
    obtain ⟨hnodup, hmem⟩ := topSort_places h
    obtain ⟨v, hv, hseen⟩ := hg.visits_spec
    refine ⟨hnodup, ⟨v.seen, by rw [reachable, hv]; rfl, fun x => (hmem x).trans (hseen x).symm⟩,
      fun p c hp he => ⟨(hmem c).mpr (hp.child he), topSort_idxOf_lt h hp he⟩, fun hup => ?_⟩
    exact topologicalFrom_eq_ok hup (topSort_descends h) hnodup (fun x hx => hg x ((hmem x).mp hx))
      fun p hp => .inr hp

/-- Two ways from the root to a node, some of equal name, and a loop that no root leads to. -/
def knotted : List Call :=
  [.addNode .create "a" [] ∅, .addNode .concat "b" [] ∅, .addNode .concat "b" [] ∅,
    .addNode .concat "a" [] ∅, .addNode .concat "a" [] ∅, .addRoot 0, .link 0 2, .link 0 1, .link 2 3,
    .link 1 3, .link 4 4]

theorem knotted_topSort_exact :
    let g := (Call.afterAll knotted ⟨∅, []⟩).plan
    let h := (Call.afterAll (knotted ++ [.link 3 4]) ⟨∅, []⟩).plan
    (g.Acyclic ∧ ∃ order, g.topSort true = .ok order ∧ order.Nodup ∧
      order.idxOf 0 < order.idxOf 2 ∧ order.idxOf 2 < order.idxOf 3 ∧
      Verify.topological g order = .ok ()) ∧
    ¬ h.Acyclic ∧ ∃ x, h.topSort false = .error (.cycle (h.describe x)) ∧ TransGen h.Edge x x := by
  intro g h
  have hlinked : ∀ cs, (Call.afterAll cs ⟨∅, []⟩).plan.Linked := by
    intro cs
    have hreached : Reached (fun _ _ => True) (Call.afterAll cs ⟨∅, []⟩) :=
      Reached.start.afterAll (Call.allAllowed_of_forall (fun _ _ => trivial) _)
    exact hreached.linked
  have hg : g.Linked := hlinked _
  have hh : h.Linked := hlinked _
  have hsort : g.topSort true = .ok [0, 1, 2, 3] := by decide +kernel
  have hknot : (h.topSort false).toOption = none := by decide +kernel
  obtain ⟨hiff, _, horder⟩ := topSort_exact g hg.inRange.roots hg.inRange.children true
  obtain ⟨hiff', hcycle, _⟩ := topSort_exact h hh.inRange.roots hh.inRange.children false
  obtain ⟨hnodup, _, hbefore, hcheck⟩ := horder _ hsort
  have hknotted : ¬ h.Acyclic := by
    intro hacyclic
    obtain ⟨order, ho⟩ := hiff'.mpr hacyclic
    rw [ho] at hknot
    cases hknot
  obtain ⟨x, hx, _, hpath⟩ := hcycle hknotted
  have hroot : g.Reaches 0 := .root (by decide)
  refine ⟨⟨hiff.mp ⟨_, hsort⟩, _, hsort, hnodup, (hbefore 0 2 hroot (by decide)).2,
    (hbefore 2 3 (hroot.child (show 2 ∈ g.childrenOf 0 by decide)) (by decide)).2,
    hcheck fun p c _ hp => (hg.edges p c).mp hp⟩, hknotted, x, hx, hpath⟩

end PartyPlan
