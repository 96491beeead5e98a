import PartyPlan.Plan.Traversal

/-! The order in which a plan is carried out: every node after all of its parents. Nodes are entered
depth first and placed when they are left, each before those placed earlier. Entering a node that is
entered and not yet left closes a cycle. -/
namespace PartyPlan

/-- What is left to do for a node. -/
inductive Visit where
  | enter (id : NodeId)
  | leave (id : NodeId)
deriving DecidableEq

namespace Plan

/-- The children of a node as the sort takes them: by name, or by number. -/
def orderedChildren (g : Plan) (byName : Bool) (id : NodeId) : Except Error (List NodeId) :=
  if byName then g.sortedChildren id else (g.fetch id).map (·.children.toList)

theorem length_insertByName (g : Plan) (a : NodeId) (l : List NodeId) :
    (g.insertByName a l).length = l.length + 1 := by
  induction l with
  | nil => rfl
  | cons b bs ih => simp only [insertByName]; split <;> simp [ih]

theorem length_sortByName (g : Plan) (l : List NodeId) : (g.sortByName l).length = l.length := by
  induction l with
  | nil => rfl
  | cons a as ih => simp [sortByName, length_insertByName, ih]

/-- A node's children and one more. -/
def visitCost (g : Plan) (id : NodeId) : Nat := g.childCount id + 1

theorem orderedChildren_spec {g : Plan} {byName : Bool} {id : NodeId} {cs : List NodeId}
    (h : g.orderedChildren byName id = .ok cs) :
    id < g.size ∧ cs.length + 1 = g.visitCost id := by
  unfold orderedChildren sortedChildren at h
  cases hf : g.fetch id with
  | error e => cases byName <;> simp [hf, bind, Except.bind, Except.map] at h
  | ok n =>
    refine ⟨lt_size_of_fetch hf, ?_⟩
    rw [visitCost, childCount_of_fetch hf]
    cases byName with
    | false => simp [hf, Except.map] at h; simp [← h]
    | true =>
      simp only [hf, bind, Except.bind, if_true, sortedByName] at h
      split at h
      · simp at h
      · simp only [Except.ok.injEq] at h
        rw [← h, length_sortByName]

/-- Carry out visits. `active` nodes are entered and not left, `marked` ones were ever entered, and
`placed` ones stand in order. -/
def sortLoop (g : Plan) (byName : Bool) (todo : List Visit) (active marked : NodeSet)
    (placed : List NodeId) : Except Error (List NodeId) :=
  match todo with
  | [] => .ok placed
  | .leave id :: rest => g.sortLoop byName rest (active.erase id) marked (id :: placed)
  | .enter id :: rest =>
    if id ∈ active then .error (.cycle (g.describe id))
    else if _hm : id ∈ marked then g.sortLoop byName rest active marked placed
    else
      match hc : g.orderedChildren byName id with
      | .error e => .error e
      | .ok cs =>
        g.sortLoop byName (cs.map .enter ++ .leave id :: rest) (active.insert id)
          (marked.insert id) placed
termination_by todo.length + weightOutside g.visitCost marked (List.range g.size)
decreasing_by
  · simp
  · simp
  · obtain ⟨hid, hlen⟩ := orderedChildren_spec hc
    have := weightOutside_insert g.visitCost marked List.nodup_range (List.mem_range.mpr hid) _hm
    simp only [List.length_append, List.length_map, List.length_cons]
    omega

/-- The reachable nodes, each after its parents. With `deterministic` every choice goes by relation
name, so that it does not hang on the numbers of nodes. -/
def topSort (g : Plan) (deterministic : Bool) : Except Error (List NodeId) := do
  let seen ← g.reachable
  let ids ← if deterministic then g.sortedByName seen.toList else .ok seen.toList
  g.sortLoop deterministic (ids.reverse.map .enter) ∅ ∅ []

end Plan
end PartyPlan
