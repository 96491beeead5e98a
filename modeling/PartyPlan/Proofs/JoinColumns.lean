import Mathlib.Data.List.Dedup
import Mathlib.Data.List.Count
import PartyPlan.Proofs.Reversible

/-! The columns of a join. Keys are found by name and left out by position, so what becomes of the columns
is said of positions: each column of the output has an origin, which is a place in one of the inputs. The
inputs may be one relation, and names may stand for several columns or be given twice. -/
namespace PartyPlan

/-- Where a column of a join comes from: one of the inputs, and a place there. -/
structure Origin where
  side : Side
  place : Nat
deriving DecidableEq

def Origin.column? (l r : Relation) (o : Origin) : Option Column :=
  (o.side.pick l r).columns[o.place]?

def Relation.otherPlaces (r : Relation) (places : List Nat) : List Nat :=
  (List.range r.width).filter fun i => decide (¬ i ∈ places)

/-- The origins of the columns of a join: the keys where they stand on the left, then what else stands on
the left, then what stands on the right and is no key there. -/
def JoinKeys.origins (l r : Relation) (keys : JoinKeys) : List Origin :=
  (keys.left.map (·.index) ++ l.otherPlaces (keys.left.map (·.index))).map (.mk .left) ++
    (r.otherPlaces (keys.right.map (·.index))).map (.mk .right)

section Places

variable {r : Relation} {places : List Nat} {i : Nat}

theorem Relation.mem_otherPlaces : i ∈ r.otherPlaces places ↔ i < r.width ∧ ¬ i ∈ places := by
  simp [otherPlaces]

theorem Relation.nodup_otherPlaces (r : Relation) (places : List Nat) : (r.otherPlaces places).Nodup :=
  List.nodup_range.filter _

theorem Relation.count_otherPlaces (hi : i < r.width) :
    (r.otherPlaces places).count i = if i ∈ places then 0 else 1 := by
  rw [(r.nodup_otherPlaces places).count]
  by_cases hp : i ∈ places <;> simp [mem_otherPlaces, hp, hi]

/-- The places that are listed and those that are not make up the relation. -/
theorem Relation.length_otherPlaces (hplaces : ∀ i ∈ places, i < r.width) :
    (r.otherPlaces places).length = r.width - places.dedup.length := by
  have hlisted : ((List.range r.width).filter (· ∈ places)).Perm places.dedup := by
    rw [List.perm_ext_iff_of_nodup (List.nodup_range.filter _) places.nodup_dedup]
    intro i
    rw [List.mem_filter, List.mem_dedup, List.mem_range, decide_eq_true_eq]
    exact ⟨fun h => h.2, fun h => ⟨hplaces i h, h⟩⟩
  have hsplit := List.length_eq_length_filter_add (l := List.range r.width) fun i => decide (i ∈ places)
  have hothers : (List.range r.width).filter (fun i => !decide (i ∈ places)) = r.otherPlaces places := by
    simp [otherPlaces]
  rw [hothers, hlisted.length_eq, List.length_range] at hsplit
  omega

theorem Relation.map_some_columns (r : Relation) :
    r.columns.map some = (List.range r.width).map (r.columns[·]?) := by
  apply List.ext_getElem?
  intro i
  rw [List.getElem?_map, List.getElem?_map]
  by_cases hi : i < r.columns.length
  · simp [width, hi]
  · simp [width, Nat.not_lt.mp hi]

/-- What is left of a relation without its keys is what stands in the other places. -/
theorem map_some_nonKeys (hr : r.WellFormed) (keys : List Column) :
    (Derive.nonKeys r keys).map some =
      (r.otherPlaces (keys.map (·.index))).map (r.columns[·]?) := by
  let free (c : Option Column) : Bool := c.any fun c => decide (¬ c.index ∈ keys.map (·.index))
  calc (Derive.nonKeys r keys).map some
      = (r.columns.map some).filter free := by
        rw [List.filter_map]
        rfl
    _ = ((List.range r.width).map (r.columns[·]?)).filter free := by rw [r.map_some_columns]
    _ = ((List.range r.width).filter (free ∘ (r.columns[·]?))).map (r.columns[·]?) := List.filter_map
    _ = (r.otherPlaces (keys.map (·.index))).map (r.columns[·]?) := by
        congr 1
        apply List.filter_congr
        intro i hi
        have hlt : i < r.columns.length := List.mem_range.mp hi
        have hc : r.columns[i]? = some r.columns[i] := List.getElem?_eq_getElem hlt
        show free r.columns[i]? = _
        rw [hc]
        show decide (¬ r.columns[i].index ∈ keys.map (·.index)) = _
        rw [(hr i _ hc).1]

theorem index_lt_width {c : Column} (hc : r.columns[c.index]? = some c) : c.index < r.width :=
  (List.getElem?_eq_some_iff.mp hc).1

end Places

section Origins

variable {l r : Relation} {keys : JoinKeys} {i : Nat}

theorem Origin.mk_injective (side : Side) : Function.Injective (Origin.mk side) := by
  intro i j h
  exact congrArg Origin.place h

theorem Origin.count_map_other {side other : Side} (h : side ≠ other) (places : List Nat) (i : Nat) :
    (places.map (Origin.mk other)).count ⟨side, i⟩ = 0 := by
  apply List.count_eq_zero_of_not_mem
  intro hmem
  obtain ⟨j, _, hj⟩ := List.mem_map.mp hmem
  exact h (congrArg Origin.side hj).symm

namespace JoinKeys

theorem count_left (hi : i < l.width) : (keys.origins l r).count ⟨.left, i⟩ =
    (keys.left.map (·.index)).count i + if i ∈ keys.left.map (·.index) then 0 else 1 := by
  have hright := Origin.count_map_other (show Side.left ≠ .right by decide)
  rw [origins, List.count_append, hright, Nat.add_zero, List.count_map_of_injective _ _ (Origin.mk_injective .left),
    List.count_append, Relation.count_otherPlaces hi]

theorem count_right (hi : i < r.width) : (keys.origins l r).count ⟨.right, i⟩ =
    if i ∈ keys.right.map (·.index) then 0 else 1 := by
  have hleft := Origin.count_map_other (show Side.right ≠ .left by decide)
  rw [origins, List.count_append, hleft, Nat.zero_add,
    List.count_map_of_injective _ _ (Origin.mk_injective .right), Relation.count_otherPlaces hi]

/-- Every place on the left is an origin, of a key or of another column. -/
theorem left_mem_origins (hi : i < l.width) : ⟨.left, i⟩ ∈ keys.origins l r := by
  rw [← List.count_pos_iff, count_left hi]
  by_cases hk : i ∈ keys.left.map (·.index)
  · have := List.count_pos_iff.mpr hk
    omega
  · rw [if_neg hk]
    omega

theorem count_left_eq_one (hkeys : (keys.left.map (·.index)).Nodup) (hi : i < l.width) :
    (keys.origins l r).count ⟨.left, i⟩ = 1 := by
  rw [count_left hi, hkeys.count]
  by_cases hk : i ∈ keys.left.map (·.index)
  · rw [if_pos hk, if_pos hk]
  · rw [if_neg hk, if_neg hk]

theorem length_origins (hl : ∀ c ∈ keys.left, c.index < l.width)
    (hr : ∀ c ∈ keys.right, c.index < r.width) : (keys.origins l r).length =
    keys.left.length + (l.width - (keys.left.map (·.index)).dedup.length) +
      (r.width - (keys.right.map (·.index)).dedup.length) := by
  rw [origins, List.length_append, List.length_map, List.length_map, List.length_append,
    List.length_map, Relation.length_otherPlaces (by simpa using hl),
    Relation.length_otherPlaces (by simpa using hr)]

/-- The columns at the origins are the keys and what is left of the inputs. -/
theorem map_column?_origins (hl : l.WellFormed) (hr : r.WellFormed)
    (hkeys : ∀ c ∈ keys.left, l.columns[c.index]? = some c) :
    (keys.origins l r).map (Origin.column? l r) =
      (keys.left ++ Derive.nonKeys l keys.left ++ Derive.nonKeys r keys.right).map some := by
  have hleft : Origin.column? l r ∘ Origin.mk .left = (l.columns[·]?) := rfl
  have hright : Origin.column? l r ∘ Origin.mk .right = (r.columns[·]?) := rfl
  have hfirst : (keys.left.map (·.index)).map (l.columns[·]?) = keys.left.map some := by
    rw [List.map_map]
    exact List.map_congr_left hkeys
  rw [origins, List.map_append, List.map_map, List.map_map, hleft, hright, List.map_append, hfirst,
    ← map_some_nonKeys hl, ← map_some_nonKeys hr, List.map_append, List.map_append]

end JoinKeys
end Origins

structure JoinedFrom (l r : Relation) (name : String) (leftKeys rightKeys : List String)
    (keys : JoinKeys) (output : Relation) : Prop where
  paired : keys.left ≠ [] ∧ keys.left.length = keys.right.length
  found : leftKeys.map l.find? = keys.left.map some ∧ rightKeys.map r.find? = keys.right.map some
  standing : (∀ c ∈ keys.left, l.columns[c.index]? = some c) ∧
    ∀ c ∈ keys.right, r.columns[c.index]? = some c
  keysFirst : ∀ (i : Nat) (c : Column), keys.left[i]? = some c →
    output.columns[i]? = some (c.cleared.placed name i)
  columns : output.columns.map some =
    (keys.origins l r).mapIdx fun i o => (o.column? l r).map fun c => c.cleared.placed name i
  leftKept : ∀ i < l.width, ⟨.left, i⟩ ∈ keys.origins l r
  leftOnce : leftKeys.Nodup → ∀ i < l.width, (keys.origins l r).count ⟨.left, i⟩ = 1
  rightOnce : ∀ i < r.width, (keys.origins l r).count ⟨.right, i⟩ =
    if i ∈ keys.right.map (·.index) then 0 else 1
  width : output.width = keys.left.length + (l.width - (keys.left.map (·.index)).dedup.length) +
    (r.width - (keys.right.map (·.index)).dedup.length)
  stamped : output.name = name ∧ output.WellFormed

section Derived

variable {l r : Relation} {name : String} {names leftKeys rightKeys : List String} {cs : List Column}
  {d d' : Draft} {left right id : NodeId}

theorem Relation.map_find?_of_findAll (h : r.findAll names = .ok cs) :
    names.map r.find? = cs.map some := by
  have hall : List.Forall₂ (fun name c => r.find name = .ok c) names cs := mapM_eq_ok.mp h
  rw [map_eq_map_iff]
  exact hall.imp fun _ _ hc => find_eq_ok.mp hc

theorem Relation.WellFormed.standing (hr : r.WellFormed) (h : r.findAll names = .ok cs) :
    ∀ c ∈ cs, r.columns[c.index]? = some c := by
  intro c hc
  obtain ⟨_, _, hfound⟩ := mem_of_mapM_eq_ok h c hc
  exact hr.found hfound

/-- Different columns that stand where they say stand in different places. -/
theorem nodup_places (hs : ∀ c ∈ cs, r.columns[c.index]? = some c) (hcs : cs.Nodup) :
    (cs.map (·.index)).Nodup := by
  apply hcs.map_on
  intro c hc b hb he
  have hb' := hs b hb
  rw [← he, hs c hc] at hb'
  exact Option.some.inj hb'

theorem getElem?_stamped (cs : List Column) (holders : PartySet) (i : Nat) :
    (Relation.stamped name (Derive.clearedAll cs) holders).columns[i]? =
      cs[i]?.map fun c => c.cleared.placed name i := by
  rw [Relation.stamped, Derive.clearedAll, List.getElem?_mapIdx, List.getElem?_map, Option.map_map]
  rfl

/-- Columns that come from origins are cleared and get their places in the order of the origins. -/
theorem map_some_stamped {origins : List Origin} (h : origins.map (Origin.column? l r) = cs.map some)
    (holders : PartySet) : (Relation.stamped name (Derive.clearedAll cs) holders).columns.map some =
      origins.mapIdx fun i o => (o.column? l r).map fun c => c.cleared.placed name i := by
  apply List.ext_getElem?
  intro i
  have hi : (origins.map (Origin.column? l r))[i]? = (cs.map some)[i]? := by rw [h]
  rw [List.getElem?_map, List.getElem?_map] at hi
  rw [List.getElem?_map, getElem?_stamped, List.getElem?_mapIdx]
  cases ho : origins[i]? with
  | none =>
    rw [ho, Option.map_none, eq_comm, Option.map_eq_none_iff] at hi
    rw [hi]
    rfl
  | some o =>
    rw [ho, Option.map_some, eq_comm, Option.map_eq_some_iff] at hi
    obtain ⟨c, hc, hoc⟩ := hi
    rw [hc, Option.map_some, Option.map_some, Option.map_some, ← hoc]
    rfl

theorem joinedFrom_of_join (hl : l.WellFormed) (hr : r.WellFormed) (hne : leftKeys ≠ [])
    (hlen : leftKeys.length = rightKeys.length) {v : Derived}
    (h : Derive.join l r name leftKeys rightKeys = .ok v) :
    ∃ keys, v.op = .join keys ∧ JoinedFrom l r name leftKeys rightKeys keys v.output := by
  obtain ⟨ls, rs, hls, hrs, rfl⟩ := Derive.join_result h
  have hfoundl := Relation.map_find?_of_findAll hls
  have hfoundr := Relation.map_find?_of_findAll hrs
  have hlenl : leftKeys.length = ls.length := by simpa using congrArg List.length hfoundl
  have hlenr : rightKeys.length = rs.length := by simpa using congrArg List.length hfoundr
  have hstandl := hl.standing hls
  have hstandr := hr.standing hrs
  have horigins : (JoinKeys.origins l r ⟨ls, rs⟩).map (Origin.column? l r) =
      (ls ++ Derive.nonKeys l ls ++ Derive.nonKeys r rs).map some :=
    JoinKeys.map_column?_origins hl hr hstandl
  have hcleared : Derive.clearedAll ls ++ Derive.clearedAll (Derive.nonKeys l ls) ++
      Derive.clearedAll (Derive.nonKeys r rs) =
        Derive.clearedAll (ls ++ Derive.nonKeys l ls ++ Derive.nonKeys r rs) := by
    simp only [Derive.clearedAll, List.map_append]
  refine ⟨⟨ls, rs⟩, rfl, ?_⟩
  constructor
  case paired =>
    refine ⟨?_, hlenl.symm.trans (hlen.trans hlenr)⟩
    rintro rfl
    exact hne (List.length_eq_zero_iff.mp hlenl)
  case found => exact ⟨hfoundl, hfoundr⟩
  case standing => exact ⟨hstandl, hstandr⟩
  case keysFirst =>
    intro i c hc
    have hi : i < ls.length := (List.getElem?_eq_some_iff.mp hc).1
    rw [hcleared, getElem?_stamped, List.append_assoc, List.getElem?_append_left hi, hc]
    rfl
  case columns =>
    rw [hcleared]
    exact map_some_stamped horigins _
  case leftKept => exact fun i hi => JoinKeys.left_mem_origins hi
  case leftOnce =>
    intro hnodup i hi
    exact JoinKeys.count_left_eq_one
      (nodup_places hstandl ((Relation.nodup_of_findAll hls).mpr hnodup)) hi
  case rightOnce => exact fun i hi => JoinKeys.count_right hi
  case width =>
    have hlength := congrArg List.length horigins
    rw [List.length_map, List.length_map] at hlength
    rw [hcleared, Relation.width, Relation.length_stamped, Derive.clearedAll, List.length_map, ← hlength]
    exact JoinKeys.length_origins (fun c hc => index_lt_width (hstandl c hc))
      fun c hc => index_lt_width (hstandr c hc)
  case stamped => exact ⟨rfl, Relation.stamped_wellFormed _ _ _⟩

/-- A join that is granted has found lists of keys that match and relations to derive its output from, and
adds a node with what was derived. -/
theorem Build.join_granted
    (h : (Build.join left right name leftKeys rightKeys).apply d = (.ok id, d')) :
    ∃ l r v n, d.plan.output? left = some l ∧ d.plan.output? right = some r ∧ leftKeys ≠ [] ∧
      leftKeys.length = rightKeys.length ∧ Derive.join l r name leftKeys rightKeys = .ok v ∧
      d'.plan.get? id = some n ∧ n.op = v.op ∧ n.output = v.output := by
  rw [Build.apply_join, Edit.apply_bind, Edit.apply_settle] at h
  cases hv : (Builder.join left right name leftKeys rightKeys).deriveFrom d.plan.relationOf with
  | error e =>
    rw [hv] at h
    cases h
  | ok v =>
    rw [hv] at h
    have hkeys : ¬ (leftKeys.isEmpty ∨ leftKeys.length ≠ rightKeys.length) := by
      intro hbad
      rw [Builder.deriveFrom, if_pos hbad] at hv
      cases hv
    push Not at hkeys
    obtain ⟨l, r, hl, hr, hjoin⟩ := Builder.join_of_deriveFrom hv
    rw [Plan.relationOf_eq_ok] at hl hr
    have hprod : Edit.Produce [left, right] [l, r] d.plan := by simp [Edit.Produce, hl, hr]
    have hin : ∀ p ∈ [left, right], p < d.plan.size := fun p hp => hprod.lt_size hp
    have hattach := Edit.attach_exact (d := v) (R := fun _ _ => False) hin d rfl
    dsimp only at h
    rw [h] at hattach
    obtain ⟨rfl, hplan⟩ := hattach
    have hnode := Plan.get?_attached_new (d := v) hin
    rw [← hplan] at hnode
    exact ⟨l, r, v, _, hl, hr, by simpa using hkeys.1, hkeys.2, hjoin, hnode, rfl, rfl⟩

end Derived

/-- A join of two well-formed relations, which may be the same, loses no column and invents none. The
stored keys are as many on the left as on the right, and there are some; each is the first column of its
name. The output has the left keys first, under their names and types, then the other columns of the left
and then of the right input, in order. So every column on the left has a place in the output, and just one
if no name was given twice on the left; a column on the right has one if it is no key there and none if it
is. The output is as wide as this says, and its columns say their places and its name. -/
theorem join_columns_exact (d d' : Draft) (left right id : NodeId) (name : String)
    (leftKeys rightKeys : List String) (l r : Relation) (hl : d.plan.output? left = some l)
    (hr : d.plan.output? right = some r) (hwl : l.WellFormed) (hwr : r.WellFormed)
    (hjoin : (Build.join left right name leftKeys rightKeys).apply d = (.ok id, d')) :
    ∃ n keys, d'.plan.get? id = some n ∧ n.op = .join keys ∧
      JoinedFrom l r name leftKeys rightKeys keys n.output := by
  obtain ⟨l', r', v, n, hl', hr', hne, hlen, hv, hn, hop, hout⟩ := Build.join_granted hjoin
  rw [hl, Option.some.injEq] at hl'
  rw [hr, Option.some.injEq] at hr'
  subst hl' hr'
  obtain ⟨keys, hkeys, hfrom⟩ := joinedFrom_of_join hwl hwr hne hlen hv
  rw [← hop] at hkeys
  rw [← hout] at hfrom
  exact ⟨n, keys, hn, hkeys, hfrom⟩

def repeatedNames : List Call :=
  [.build (.create "in" [⟨"a", .integer, ∅⟩, ⟨"b", .float, .singleton 2⟩] (.singleton 1)),
    .build (.project 0 "twice" ["a", "b", "a"])]

/-- The relation is joined with itself, on a key that is given twice on the left. -/
theorem repeatedNames_columns_exact :
    let d := Call.afterAll repeatedNames ⟨∅, []⟩
    let x := (Build.join 1 1 "pairs" ["a", "a"] ["b", "a"]).apply d
    (x.1 = .ok 2 ∧ (x.2.plan.output? 2).map (·.columns.map (·.name)) = some ["a", "a", "b", "a", "a"]) ∧
      ∃ l n keys, d.plan.output? 1 = some l ∧ x.2.plan.get? 2 = some n ∧ n.op = .join keys ∧
        JoinedFrom l l "pairs" ["a", "a"] ["b", "a"] keys n.output := by
  intro d x
  have hreached : Reached (fun _ _ => True) d :=
    Reached.start.afterAll (Call.allAllowed_of_forall (fun _ _ => trivial) _)
  have hok : x.1 = .ok 2 := by decide +kernel
  have hlt : 1 < d.plan.size := by decide +kernel
  obtain ⟨m, hm⟩ := Plan.lt_size_iff.mp hlt
  have hl : d.plan.output? 1 = some m.output := by rw [Plan.output?, hm]; rfl
  have hw : m.output.WellFormed := (hreached.linked.nodes 1 m hm).relation
  obtain ⟨n, keys, hn, hop, hfrom⟩ :=
    join_columns_exact d x.2 1 1 2 "pairs" ["a", "a"] ["b", "a"] m.output m.output hl hl hw hw
      (Prod.ext hok rfl)
  exact ⟨⟨hok, by decide +kernel⟩, m.output, n, keys, hl, hn, hop, hfrom⟩

end PartyPlan
