import PartyPlan.Plan.Query

/-! Reading a plan from its roots down. The nodes still to be visited stand in a list; a visited node
puts its children in front. Every step either takes a node off the list or spends the children of a
node that is visited for the first and only time, so the reading ends on every plan, one with cycles
too. -/
namespace PartyPlan

/-- The sum of `f` over the members of a list outside of a set. -/
def weightOutside (f : Nat → Nat) (s : IdSet) : List Nat → Nat
  | [] => 0
  | a :: as => (if a ∈ s then 0 else f a) + weightOutside f s as

theorem weightOutside_insert_of_not_mem (f : Nat → Nat) (s : IdSet) {a : Nat} {l : List Nat}
    (h : ¬ a ∈ l) : weightOutside f (s.insert a) l = weightOutside f s l := by
  induction l with
  | nil => rfl
  | cons b bs ih =>
    simp only [List.mem_cons, not_or] at h
    simp [weightOutside, ih h.2, Ne.symm h.1]

/-- A new member takes its weight away. -/
theorem weightOutside_insert (f : Nat → Nat) (s : IdSet) {a : Nat} {l : List Nat} (hl : l.Nodup)
    (ha : a ∈ l) (hs : ¬ a ∈ s) :
    weightOutside f (s.insert a) l + f a = weightOutside f s l := by
  induction l with
  | nil => simp at ha
  | cons b bs ih =>
    obtain ⟨hb, hbs⟩ := List.nodup_cons.mp hl
    by_cases hab : a = b
    · subst hab
      simp [weightOutside, weightOutside_insert_of_not_mem f s hb, hs]
      omega
    · have := ih hbs ((List.mem_cons.mp ha).resolve_left hab)
      simp only [weightOutside, IdSet.mem_insert, Ne.symm hab, false_or]
      omega

namespace Plan

def childCount (g : Plan) (id : NodeId) : Nat := ((g.get? id).map (·.children.size)).getD 0

theorem childCount_of_fetch {g : Plan} {id : NodeId} {n : Node} (h : g.fetch id = .ok n) :
    g.childCount id = n.children.toList.length := by
  unfold fetch at h
  split at h <;> simp_all [childCount, IdSet.size]

theorem lt_size_of_fetch {g : Plan} {id : NodeId} {n : Node} (h : g.fetch id = .ok n) :
    id < g.size := by
  unfold fetch at h
  split at h
  · next m hm =>
    obtain ⟨h, _⟩ := Array.getElem?_eq_some_iff.mp hm
    exact h
  · simp at h

/-- What a reading has seen: the set of nodes, and the order of their first visits. -/
structure Visits where
  seen : NodeSet := ∅
  order : List NodeId := []
deriving DecidableEq

/-- Visit the nodes of a list and all below them, depth first and children by number. -/
def visitAll (g : Plan) (todo : List NodeId) (v : Visits) : Except Error Visits :=
  match todo with
  | [] => .ok v
  | id :: rest =>
    if _hs : id ∈ v.seen then g.visitAll rest v
    else
      match _hn : g.fetch id with
      | .error e => .error e
      | .ok n => g.visitAll (n.children.toList ++ rest) ⟨v.seen.insert id, v.order ++ [id]⟩
termination_by todo.length + weightOutside g.childCount v.seen (List.range g.size)
decreasing_by
  · simp
  · have := weightOutside_insert g.childCount v.seen List.nodup_range
      (List.mem_range.mpr (lt_size_of_fetch _hn)) _hs
    rw [childCount_of_fetch _hn] at this
    simp only [List.length_append, List.length_cons]
    omega

/-- Visit every node some root leads to. -/
def visits (g : Plan) : Except Error Visits := g.visitAll g.roots.toList {}

/-- The nodes some root leads to, in the order of their first visits. -/
def visitedNodes (g : Plan) : Except Error (List Node) :=
  g.visits.map fun v => v.order.filterMap g.get?

def reachable (g : Plan) : Except Error NodeSet := g.visits.map (·.seen)

end Plan
end PartyPlan
