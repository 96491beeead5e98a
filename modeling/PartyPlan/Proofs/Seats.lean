import PartyPlan.Proofs.Links

/-! A new node is linked to its parents one after the other. The first of them take the places its
operator has for inputs; further ones find no place left and stay unnamed. -/
namespace PartyPlan

/-- There is a place for each input: one, two, or as many as there are different ones. -/
def Arity.Seats : Arity → List NodeId → Prop
  | .unary, ps => ps.length = 1
  | .binary, ps => ps.length = 2
  | .nary, ps => ps.Nodup

namespace Inputs

def seated : Arity → List NodeId → Inputs
  | .unary, ps => .unary ps[0]?
  | .binary, ps => .binary ps[0]? ps[1]?
  | .nary, ps => .nary ps

variable {a : Arity} {ps hs : List NodeId}

theorem ids_seated (h : a.Seats ps) : (seated a ps).ids = ps := by
  cases a with
  | unary =>
    obtain ⟨p, rfl⟩ := List.length_eq_one_iff.mp h
    rfl
  | binary =>
    match ps, h with
    | [l, r], _ => rfl
  | nary => rfl

theorem foldl_attach_unary (p : NodeId) (hs : List NodeId) :
    hs.foldl attach (.unary (some p)) = .unary (some p) := by
  induction hs with
  | nil => rfl
  | cons h hs ih => exact ih

theorem foldl_attach_binary (l r : NodeId) (hs : List NodeId) :
    hs.foldl attach (.binary (some l) (some r)) = .binary (some l) (some r) := by
  induction hs with
  | nil => rfl
  | cons h hs ih => exact ih

theorem foldl_attach_nary (named ps : List NodeId) :
    ps.foldl attach (.nary named) = .nary (named ++ ps) := by
  induction ps generalizing named with
  | nil => simp
  | cons p ps ih =>
    rw [List.foldl_cons, attach, ih]
    simp

/-- The nodes that have a place are named, and those after them are not. An ordered list has a place
for every node, so there none may follow. -/
theorem foldl_attach_vacant (h : a.Seats ps) (hn : a = .nary → hs = []) :
    (ps ++ hs).foldl attach (vacant a) = seated a ps := by
  cases a with
  | unary =>
    obtain ⟨p, rfl⟩ := List.length_eq_one_iff.mp h
    exact foldl_attach_unary p hs
  | binary =>
    match ps, h with
    | [l, r], _ => exact foldl_attach_binary l r hs
  | nary =>
    rw [hn rfl, List.append_nil]
    exact foldl_attach_nary [] ps

end Inputs

/-- The node in place `i` after `c` was linked below the nodes of a list. -/
def Node.linkedIn (i c : NodeId) (ps : List NodeId) (n : Node) : Node :=
  { n with
    children := if i ∈ ps then n.children.insert c else n.children
    parents := if i = c then ps.foldl IdSet.insert n.parents else n.parents
    inputs := if i = c then ps.foldl Inputs.attach n.inputs else n.inputs }

namespace Plan

variable {g : Plan} {ps : List NodeId} {c i q d : NodeId}

def linkAll (g : Plan) (ps : List NodeId) (c : NodeId) : Plan :=
  ps.foldl (fun g p => g.addEdge p c) g

@[simp] theorem size_addEdge (g : Plan) (p c : NodeId) : (g.addEdge p c).size = g.size := by
  simp [addEdge]

@[simp] theorem roots_addEdge (g : Plan) (p c : NodeId) : (g.addEdge p c).roots = g.roots := rfl

@[simp] theorem size_linkAll (g : Plan) (ps : List NodeId) (c : NodeId) :
    (g.linkAll ps c).size = g.size := by
  induction ps generalizing g with
  | nil => rfl
  | cons p ps ih => exact (ih _).trans (size_addEdge g p c)

@[simp] theorem roots_linkAll (g : Plan) (ps : List NodeId) (c : NodeId) :
    (g.linkAll ps c).roots = g.roots := by
  induction ps generalizing g with
  | nil => rfl
  | cons p ps ih => exact ih _

theorem get?_addEdge (g : Plan) (p c i : NodeId) :
    (g.addEdge p c).get? i = (g.get? i).map (.linkedIn i c [p]) := by
  rw [addEdge, get?_update, get?_update]
  cases g.get? i with
  | none => simp
  | some n =>
    by_cases hp : p = i <;> by_cases hc : c = i <;>
      simp [hp, hc, Ne.symm, Node.linkedIn, Node.withChild, Node.withParent]

theorem get?_linkAll (g : Plan) (ps : List NodeId) (c i : NodeId) :
    (g.linkAll ps c).get? i = (g.get? i).map (.linkedIn i c ps) := by
  induction ps generalizing g with
  | nil => cases h : g.get? i <;> simp [linkAll, Node.linkedIn, h]
  | cons p ps ih =>
    rw [linkAll, List.foldl_cons, ← linkAll, ih, get?_addEdge, Option.map_map]
    congr 1
    funext n
    have hkids : ∀ s : IdSet, (s.insert c).insert c = s.insert c := fun s => by ext; simp
    have hlast : (if i ∈ ps then (if i = p then n.children.insert c else n.children).insert c
        else if i = p then n.children.insert c else n.children) =
        if i = p ∨ i ∈ ps then n.children.insert c else n.children := by
      by_cases hp : i = p
      · simp [hp, hkids]
      · simp [hp]
    by_cases hc : i = c
    · subst hc
      simp [Node.linkedIn, ← hlast]
    · simp [Node.linkedIn, hc, ← hlast]

theorem mem_parentsOf_linkAll (hc : c < g.size) :
    q ∈ (g.linkAll ps c).parentsOf d ↔ (d = c ∧ q ∈ ps) ∨ q ∈ g.parentsOf d := by
  obtain ⟨m, hm⟩ := lt_size_iff.mp hc
  simp only [mem_parentsOf, get?_linkAll, Option.map_eq_some_iff]
  by_cases hd : d = c
  · subst hd
    simp [hm, Node.linkedIn, IdSet.mem_foldl_insert]
  · simp [hd, Node.linkedIn]

theorem mem_childrenOf_linkAll (hps : ∀ p ∈ ps, p < g.size) :
    q ∈ (g.linkAll ps c).childrenOf d ↔ (d ∈ ps ∧ q = c) ∨ q ∈ g.childrenOf d := by
  simp only [mem_childrenOf, get?_linkAll, Option.map_eq_some_iff]
  by_cases hd : d ∈ ps
  · obtain ⟨m, hm⟩ := lt_size_iff.mp (hps d hd)
    simp [hm, hd, Node.linkedIn]
  · simp [hd, Node.linkedIn]

end Plan

/-- Linking a node below nodes that are all there is not refused. -/
theorem Edit.Meets.linkAll {P : Plan → Prop} {Q : Unit → Plan → Prop} {R : Error → Plan → Prop}
    {ps : List NodeId} {c : NodeId} (hin : ∀ g, P g → c < g.size ∧ ∀ p ∈ ps, p < g.size)
    (hok : ∀ g, P g → Q () (g.linkAll ps c)) : Meets P (ps.forM fun p => Edit.link p c) Q R := by
  -- the invariant of the loop: the nodes before the current one are linked
  let I : List NodeId → Plan → Prop := fun rest g' =>
    ∃ g done, P g ∧ ps = done ++ rest ∧ g' = g.linkAll done c
  refine (Meets.forM (I := I) (fun p rest => ?_) ps).mono (fun g hg => ⟨g, [], hg, rfl, rfl⟩) ?_
    fun _ _ hg => hg
  · refine Meets.link (fun g' hg' _ _ => ?_) fun g' e hg' hout => ?_
    · obtain ⟨g, done, hg, hps, rfl⟩ := hg'
      refine ⟨g, done ++ [p], hg, by simpa using hps, ?_⟩
      simp [Plan.linkAll, List.foldl_append]
    · obtain ⟨g, done, hg, hps, rfl⟩ := hg'
      obtain ⟨hc, hin⟩ := hin g hg
      exact absurd ⟨by simpa using hin p (hps ▸ by simp), by simpa using hc⟩ hout
  · rintro _ g' ⟨g, done, hg, hps, rfl⟩
    rw [List.append_nil] at hps
    exact hps ▸ hok g hg

end PartyPlan
