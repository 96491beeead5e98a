import PartyPlan.Proofs.Renumbering

/-! Plans whose nodes are changed one by one. A reading of a plan goes by its roots, by the children of
nodes, by the names of relations and by how nodes are described; no other change is seen by it. -/
namespace PartyPlan

/-- A change of nodes that leaves alone all that the reading of a plan goes by. -/
structure Node.Unseen (k : Node → Node) : Prop where
  children : ∀ n, (k n).children = n.children
  name : ∀ n, (k n).output.name = n.output.name
  describe : ∀ n, (k n).describe = n.describe

namespace Plan

variable {g : Plan} {k : Node → Node} {byName : Bool}

def mapNodes (k : Node → Node) (g : Plan) : Plan := { g with nodes := g.nodes.map k }

theorem get?_mapNodes (i : NodeId) : (g.mapNodes k).get? i = (g.get? i).map k := by
  simp [mapNodes, get?]

@[simp] theorem size_mapNodes : (g.mapNodes k).size = g.size := by simp [mapNodes, size]

theorem node_mapNodes (i : NodeId) : (g.mapNodes k).node i = (g.node i).map k := by
  rw [node, node, get?_mapNodes]
  cases g.get? i <;> rfl

theorem fetch_mapNodes (i : NodeId) : (g.mapNodes k).fetch i = (g.fetch i).map k := by
  rw [fetch, fetch, get?_mapNodes, size_mapNodes]
  cases g.get? i <;> rfl

section Unseen

variable (hk : Node.Unseen k)
include hk

theorem name?_mapNodes : (g.mapNodes k).name? = g.name? := by
  funext i
  rw [name?, name?, output?, output?, get?_mapNodes, Option.map_map, Option.map_map, Option.map_map]
  congr 1
  funext n
  exact hk.name n

theorem before_mapNodes : (g.mapNodes k).before = g.before := by
  have hname : (g.mapNodes k).nameOf = g.nameOf := by
    funext i
    exact congrArg (Option.getD · "") (congrFun (name?_mapNodes hk) i)
  funext a b
  rw [before, before, hname]

theorem sortedByName_mapNodes (l : List NodeId) : (g.mapNodes k).sortedByName l = g.sortedByName l := by
  have hinsert : ∀ a l, (g.mapNodes k).insertByName a l = g.insertByName a l := by
    intro a l
    induction l with
    | nil => rfl
    | cons b l ih => rw [insertByName, insertByName, before_mapNodes hk, ih]
  have hsort : (g.mapNodes k).sortByName l = g.sortByName l := by
    induction l with
    | nil => rfl
    | cons a l ih => rw [sortByName, sortByName, ih, hinsert]
  simp [sortedByName, firstMissing?, before_mapNodes hk, hsort]

theorem orderedChildren_mapNodes (i : NodeId) :
    (g.mapNodes k).orderedChildren byName i = g.orderedChildren byName i := by
  rw [orderedChildren, orderedChildren, sortedChildren, sortedChildren, fetch_mapNodes]
  cases g.fetch i with
  | error e => rfl
  | ok n => simp [Except.map, bind, Except.bind, hk.children, sortedByName_mapNodes hk]

theorem visitAll_mapNodes (todo : List NodeId) (v : Visits) :
    (g.mapNodes k).visitAll todo v = g.visitAll todo v := by
  fun_induction visitAll g todo v with
  | case1 v => rw [visitAll]
  | case2 v id rest hs ih => rw [visitAll, dif_pos hs, ih]
  | case3 v id rest hs e he =>
    have herr : (g.mapNodes k).fetch id = .error e := by rw [fetch_mapNodes, he]; rfl
    rw [visitAll, dif_neg hs]
    split
    · next e' he' =>
      cases he'.symm.trans herr
      rfl
    · next n hn => cases hn.symm.trans herr
  | case4 v id rest hs n hn ih =>
    have hok : (g.mapNodes k).fetch id = .ok (k n) := by
      rw [fetch_mapNodes, hn]
      rfl
    rw [visitAll, dif_neg hs]
    split
    · next e he => cases he.symm.trans hok
    · next m hm =>
      cases hm.symm.trans hok
      rw [hk.children]
      exact ih

theorem describe_mapNodes (i : NodeId) : (g.mapNodes k).describe i = g.describe i := by
  rw [describe, describe, get?_mapNodes]
  cases g.get? i with
  | none => rfl
  | some n => simp [hk.describe]

theorem sortLoop_mapNodes (todo : List Visit) (active marked : NodeSet) (placed : List NodeId) :
    (g.mapNodes k).sortLoop byName todo active marked placed =
      g.sortLoop byName todo active marked placed := by
  fun_induction sortLoop g byName todo active marked placed with
  | case1 active marked placed => rw [sortLoop_nil]
  | case2 active marked placed id rest ih => rw [sortLoop_leave, ih]
  | case3 active marked placed id rest ha => rw [sortLoop_active ha, describe_mapNodes hk]
  | case4 active marked placed id rest ha hm ih => rw [sortLoop_marked ha hm, ih]
  | case5 active marked placed id rest ha hm e he =>
    have herr := (orderedChildren_mapNodes hk id).trans he
    rw [sortLoop, if_neg ha, dif_neg hm]
    split
    · next e' he' => exact he'.symm.trans herr
    · next cs hcs => cases hcs.symm.trans herr
  | case6 active marked placed id rest ha hm cs hcs ih =>
    rw [sortLoop_enter ha hm ((orderedChildren_mapNodes hk id).trans hcs), ih]

theorem topSort_mapNodes : (g.mapNodes k).topSort byName = g.topSort byName := by
  have hvisits : (g.mapNodes k).visits = g.visits := visitAll_mapNodes hk _ _
  simp only [topSort, reachable, hvisits, sortedByName_mapNodes hk, sortLoop_mapNodes hk]

end Unseen

end Plan
end PartyPlan
