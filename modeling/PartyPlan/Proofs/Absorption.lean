import PartyPlan.Proofs.Columns

/-! Looking columns up twice. A look-up goes by the place of a reference, and a reference that was found
in a relation whose columns say their places still names the place it named before. A second look-up
elsewhere therefore finds what it would have found without the first. -/
namespace PartyPlan

/-- A refusal without the name under which the missing column was known. -/
def Error.unnamed : Error → Error
  | .schema (.noCounterpart _ index relation width) => .schema (.noCounterpart "" index relation width)
  | e => e

/-- The same value, or refusals that differ at most in the name of the missing column. -/
inductive SameAnswer {α : Type} : Except Error α → Except Error α → Prop where
  | ok (a : α) : SameAnswer (.ok a) (.ok a)
  | error {e e' : Error} (h : e.unnamed = e'.unnamed) : SameAnswer (.error e) (.error e')

namespace SameAnswer

variable {α β : Type} {x y : Except Error α}

theorem bind {f g : α → Except Error β} (h : SameAnswer x y) (hfg : ∀ a, SameAnswer (f a) (g a)) :
    SameAnswer (x >>= f) (y >>= g) := by
  cases h with
  | ok a => exact hfg a
  | error he => exact .error he

theorem map (f : α → β) (h : SameAnswer x y) : SameAnswer (x.map f) (y.map f) := by
  cases h with
  | ok a => exact .ok (f a)
  | error he => exact .error he

/-- A step that was taken before is of no account to the members of a list, one by one. -/
theorem mapM {f k : α → Except Error α} (h : ∀ a b, f a = .ok b → SameAnswer (k b) (k a))
    {as bs : List α} (hb : as.mapM f = .ok bs) : SameAnswer (bs.mapM k) (as.mapM k) := by
  rw [mapM_eq_ok] at hb
  induction hb with
  | nil => exact .ok []
  | cons hab _ ih =>
    rw [List.mapM_cons, List.mapM_cons]
    exact (h _ _ hab).bind fun c => ih.bind fun cs => .ok (c :: cs)

end SameAnswer

namespace Refreshed

/-- All is found and the same comes out, or something is missing at the same place. -/
inductive Same {α : Type} : Refreshed α → Refreshed α → Prop where
  | done (a : α) : Same ⟨a, .ok ()⟩ ⟨a, .ok ()⟩
  | refused {a a' : α} {e e' : Error} (h : e.unnamed = e'.unnamed) : Same ⟨a, .error e⟩ ⟨a', .error e'⟩

variable {α β : Type} {x y : Refreshed α}

theorem Same.refl (x : Refreshed α) : x.Same x := by
  obtain ⟨value, outcome⟩ := x
  cases outcome with
  | ok => exact .done value
  | error e => exact .refused rfl

theorem Same.map (f : α → β) (h : x.Same y) : (x.map f).Same (y.map f) := by
  cases h with
  | done a => exact .done (f a)
  | refused he => exact .refused he

theorem Same.eq_done_iff (h : x.Same y) {v : α} : x = ⟨v, .ok ()⟩ ↔ y = ⟨v, .ok ()⟩ := by
  cases h with
  | done a => rfl
  | refused he => simp

theorem same_ofExcept {x y : Except Error β} (h : SameAnswer x y) (whole whole' : α) (f : β → α) :
    (ofExcept whole f x).Same (ofExcept whole' f y) := by
  cases h with
  | ok b => exact .done (f b)
  | error he => exact .refused he

theorem map_eq_done {f : α → β} {v : β} :
    x.map f = ⟨v, .ok ()⟩ ↔ ∃ u, x = ⟨u, .ok ()⟩ ∧ f u = v := by
  obtain ⟨value, outcome⟩ := x
  simp only [map, mk.injEq]
  constructor
  · rintro ⟨hv, ho⟩
    exact ⟨value, ⟨rfl, ho⟩, hv⟩
  · rintro ⟨u, ⟨rfl, ho⟩, hv⟩
    exact ⟨hv, ho⟩

theorem ofExcept_eq_done {whole v : α} {f : β → α} {x : Except Error β} :
    ofExcept whole f x = ⟨v, .ok ()⟩ ↔ ∃ b, x = .ok b ∧ f b = v := by
  cases x <;> simp [ofExcept]

end Refreshed

def Relation.Placed (r : Relation) : Prop :=
  ∀ (i : Nat) (c : Column), r.columns[i]? = some c → c.index = i

theorem Relation.WellFormed.placed {r : Relation} (h : r.WellFormed) : r.Placed :=
  fun i c hc => (h i c hc).1

namespace InputRelations

structure Placed (inputs : InputRelations) : Prop where
  primary : ∀ r, inputs.primary = some r → r.Placed
  left : ∀ r, inputs.left = some r → r.Placed
  right : ∀ r, inputs.right = some r → r.Placed

theorem WellFormed.placed {inputs : InputRelations} (h : inputs.WellFormed) : inputs.Placed where
  primary r hr := (h.1 r hr).placed
  left r hr := (h.2.1 r hr).placed
  right r hr := (h.2.2 r hr).placed

structure Covers (b a : InputRelations) : Prop where
  primary : b.primary = none → a.primary = none
  left : b.left = none → a.left = none
  right : b.right = none → a.right = none

end InputRelations

section Parts

variable {a b : Relation}

theorem Relation.Placed.index_resolve (ha : a.Placed) {stale c : Column}
    (h : a.resolve stale = .ok c) : c.index = stale.index := ha _ c (resolve_eq_ok.mp h)

theorem resolve_same (ha : a.Placed) {stale mid : Column} (h : a.resolve stale = .ok mid) :
    SameAnswer (b.resolve mid) (b.resolve stale) := by
  rw [Relation.resolve, Relation.resolve, ha.index_resolve h]
  cases b.columns[stale.index]? with
  | none => exact .error rfl
  | some c => exact .ok c

theorem resolveAll_same (ha : a.Placed) {stale mid : List Column} (h : a.resolveAll stale = .ok mid) :
    SameAnswer (b.resolveAll mid) (b.resolveAll stale) :=
  SameAnswer.mapM (fun _ _ hc => resolve_same ha hc) h

theorem resolveIn_same {a b : Option Relation} (ha : ∀ r, a = some r → r.Placed)
    (hab : b = none → a = none) {stale mid : List Column} (h : resolveIn a stale = .ok mid) :
    SameAnswer (resolveIn b mid) (resolveIn b stale) := by
  cases a with
  | none =>
    cases h
    cases resolveIn b stale with
    | ok cs => exact .ok cs
    | error e => exact .error rfl
  | some r =>
    cases b with
    | none => cases hab rfl
    | some s => exact resolveAll_same (ha r rfl) h

theorem JoinKeys.refresh_eq_done {left right : Option Relation} {keys new : JoinKeys} :
    keys.refresh left right = ⟨new, .ok ()⟩ ↔
      resolveIn left keys.left = .ok new.left ∧ resolveIn right keys.right = .ok new.right := by
  obtain ⟨ls', rs'⟩ := new
  rw [refresh]
  cases resolveIn left keys.left with
  | error e => simp
  | ok ls =>
    rw [Refreshed.ofExcept_eq_done]
    simp only [mk.injEq, Except.ok.injEq]
    constructor
    · rintro ⟨rs, hr, hl, rfl⟩
      exact ⟨hl, hr⟩
    · rintro ⟨hl, hr⟩
      exact ⟨rs', hr, hl, rfl⟩

/-- Keys whose columns get the same answers are refreshed alike. -/
theorem JoinKeys.refresh_congr {left right : Option Relation} {keys keys' : JoinKeys}
    (hl : SameAnswer (resolveIn left keys.left) (resolveIn left keys'.left))
    (hr : SameAnswer (resolveIn right keys.right) (resolveIn right keys'.right)) :
    (keys.refresh left right).Same (keys'.refresh left right) := by
  rw [refresh, refresh]
  revert hl
  generalize resolveIn left keys.left = x
  generalize resolveIn left keys'.left = y
  intro hl
  cases hl with
  | error he => exact .refused he
  | ok ls => exact Refreshed.same_ofExcept hr _ _ _

theorem JoinKeys.refresh_same {left right left' right' : Option Relation} {keys mid : JoinKeys}
    (hl : ∀ r, left = some r → r.Placed) (hr : ∀ r, right = some r → r.Placed)
    (hleft : left' = none → left = none) (hright : right' = none → right = none)
    (h : keys.refresh left right = ⟨mid, .ok ()⟩) :
    (mid.refresh left' right').Same (keys.refresh left' right') := by
  obtain ⟨hls, hrs⟩ := refresh_eq_done.mp h
  exact refresh_congr (resolveIn_same hl hleft hls) (resolveIn_same hr hright hrs)

theorem Aggregation.refresh_eq_done {spec new : Aggregation} :
    spec.refresh a = ⟨new, .ok ()⟩ ↔ a.resolveAll spec.groupBy = .ok new.groupBy ∧
      a.resolve spec.folded = .ok new.folded ∧ spec.aggregator = new.aggregator := by
  obtain ⟨groupBy', folded', aggregator'⟩ := new
  rw [refresh]
  cases a.resolveAll spec.groupBy with
  | error e => simp
  | ok groupBy =>
    rw [Refreshed.ofExcept_eq_done]
    simp only [mk.injEq, Except.ok.injEq]
    constructor
    · rintro ⟨folded, hf, hg, rfl, hagg⟩
      exact ⟨hg, hf, hagg⟩
    · rintro ⟨hg, hf, hagg⟩
      exact ⟨folded', hf, hg, rfl, hagg⟩

theorem Aggregation.refresh_congr {spec spec' : Aggregation} (hagg : spec.aggregator = spec'.aggregator)
    (hg : SameAnswer (b.resolveAll spec.groupBy) (b.resolveAll spec'.groupBy))
    (hf : SameAnswer (b.resolve spec.folded) (b.resolve spec'.folded)) :
    (spec.refresh b).Same (spec'.refresh b) := by
  rw [refresh, refresh]
  revert hg
  generalize b.resolveAll spec.groupBy = x
  generalize b.resolveAll spec'.groupBy = y
  intro hg
  cases hg with
  | error he => exact .refused he
  | ok groupBy =>
    dsimp only
    rw [hagg]
    exact Refreshed.same_ofExcept hf _ _ _

theorem Aggregation.refresh_same (ha : a.Placed) {spec mid : Aggregation}
    (h : spec.refresh a = ⟨mid, .ok ()⟩) : (mid.refresh b).Same (spec.refresh b) := by
  obtain ⟨hg, hf, hagg⟩ := refresh_eq_done.mp h
  exact refresh_congr hagg.symm (resolveAll_same ha hg) (resolve_same ha hf)

theorem Operand.refresh_same (ha : a.Placed) {o mid : Operand} (h : o.refresh a = .ok mid) :
    SameAnswer (mid.refresh b) (o.refresh b) := by
  cases o with
  | column stale =>
    cases hc : a.resolve stale with
    | error e => simp [refresh, hc, Except.map] at h
    | ok c =>
      simp only [refresh, hc, Except.map, Except.ok.injEq] at h
      subst h
      exact (resolve_same ha hc).map _
  | int n =>
    cases h
    exact .ok _
  | float x =>
    cases h
    exact .ok _

theorem Arithmetic.refresh_same (ha : a.Placed) {spec mid : Arithmetic}
    (h : spec.refresh a = ⟨mid, .ok ()⟩) : (mid.refresh b).Same (spec.refresh b) := by
  obtain ⟨operands, hos, rfl⟩ := Refreshed.ofExcept_eq_done.mp h
  exact Refreshed.same_ofExcept (SameAnswer.mapM (fun _ _ ho => Operand.refresh_same ha ho) hos) _ _ _

theorem Condition.refresh_same (ha : a.Placed) {condition mid : Condition}
    (h : condition.refresh a = ⟨mid, .ok ()⟩) : (mid.refresh b).Same (condition.refresh b) := by
  obtain ⟨column, hc, rfl⟩ := Refreshed.ofExcept_eq_done.mp h
  exact Refreshed.same_ofExcept (resolve_same ha hc) _ _ _

theorem Revelation.refresh_refresh {revealed : Revelation} {left right left' right' : Option Relation}
    (hleft : left' = none → left = none) (hright : right' = none → right = none) :
    (revealed.refresh left right).refresh left' right' = revealed.refresh left' right' := by
  obtain ⟨side, relation, recipient⟩ := revealed
  cases side with
  | left => cases left' <;> simp_all [refresh]
  | right => cases right' <;> simp_all [refresh]

end Parts

namespace Operator

variable {a b : InputRelations} {op mid new : Operator}

theorem refreshUnary_same {r : Relation} (hr : r.Placed) (hj : op.joinKeys? = none)
    (h : op.refreshUnary r = ⟨mid, .ok ()⟩) (s : Relation) :
    mid.joinKeys? = none ∧ (mid.refreshUnary s).Same (op.refreshUnary s) := by
  cases op with
  | join | indexJoin | hybridJoin | revealJoin => simp [joinKeys?] at hj
  | aggregate spec =>
    obtain ⟨spec', hs, rfl⟩ := Refreshed.map_eq_done.mp h
    exact ⟨rfl, (Aggregation.refresh_same hr hs).map _⟩
  | indexAggregate spec eqFlags sortedKeys =>
    rw [refreshUnary, Refreshed.map_eq_done] at h
    obtain ⟨spec', hs, rfl⟩ := h
    exact ⟨rfl, (Aggregation.refresh_same hr hs).map (indexAggregate · eqFlags sortedKeys)⟩
  | multiply spec =>
    obtain ⟨spec', hs, rfl⟩ := Refreshed.map_eq_done.mp h
    exact ⟨rfl, (Arithmetic.refresh_same hr hs).map _⟩
  | divide spec =>
    obtain ⟨spec', hs, rfl⟩ := Refreshed.map_eq_done.mp h
    exact ⟨rfl, (Arithmetic.refresh_same hr hs).map _⟩
  | filter condition =>
    obtain ⟨condition', hc, rfl⟩ := Refreshed.map_eq_done.mp h
    exact ⟨rfl, (Condition.refresh_same hr hc).map _⟩
  | project columns =>
    obtain ⟨columns', hc, rfl⟩ := Refreshed.ofExcept_eq_done.mp h
    exact ⟨rfl, Refreshed.same_ofExcept (resolveAll_same hr hc) _ _ _⟩
  | distinct columns =>
    obtain ⟨columns', hc, rfl⟩ := Refreshed.ofExcept_eq_done.mp h
    exact ⟨rfl, Refreshed.same_ofExcept (resolveAll_same hr hc) _ _ _⟩
  | sortBy column =>
    obtain ⟨column', hc, rfl⟩ := Refreshed.ofExcept_eq_done.mp h
    exact ⟨rfl, Refreshed.same_ofExcept (resolve_same hr hc) _ _ _⟩
  | compareNeighbours column =>
    obtain ⟨column', hc, rfl⟩ := Refreshed.ofExcept_eq_done.mp h
    exact ⟨rfl, Refreshed.same_ofExcept (resolve_same hr hc) _ _ _⟩
  | _ =>
    cases h
    exact ⟨rfl, .refl _⟩

theorem refresh_revealJoin_eq_done {keys : JoinKeys} {revealed : Revelation} :
    (revealJoin keys revealed).refresh a = ⟨new, .ok ()⟩ ↔
      ∃ keys', keys.refresh a.left a.right = ⟨keys', .ok ()⟩ ∧
        .revealJoin keys' (revealed.refresh a.left a.right) = new := by
  rw [refresh]
  cases keys.refresh a.left a.right with
  | mk value outcome => cases outcome <;> simp [Refreshed.done]

theorem refresh_revealJoin_congr {keys keys' : JoinKeys} {revealed revealed' : Revelation}
    (hk : (keys.refresh a.left a.right).Same (keys'.refresh a.left a.right))
    (hr : revealed.refresh a.left a.right = revealed'.refresh a.left a.right) :
    ((revealJoin keys revealed).refresh a).Same ((revealJoin keys' revealed').refresh a) := by
  rw [refresh, refresh, hr]
  revert hk
  generalize keys.refresh a.left a.right = x
  generalize keys'.refresh a.left a.right = y
  intro hk
  cases hk with
  | done keys => exact .done _
  | refused he => exact .refused he

/-- A look-up in relations whose columns say their places is of no account to a later one that reads at
least as much. -/
theorem refresh_same (ha : a.Placed) (hab : b.Covers a) (h : op.refresh a = ⟨mid, .ok ()⟩) :
    (mid.refresh b).Same (op.refresh b) := by
  have hkeys : ∀ {keys keys' : JoinKeys}, keys.refresh a.left a.right = ⟨keys', .ok ()⟩ →
      (keys'.refresh b.left b.right).Same (keys.refresh b.left b.right) :=
    fun hk => JoinKeys.refresh_same ha.left ha.right hab.left hab.right hk
  have hunary : op.joinKeys? = none → (mid.refresh b).Same (op.refresh b) := by
    intro hj
    rw [refresh_of_no_keys hj] at h
    cases hp : a.primary with
    | none =>
      rw [hp] at h
      cases h
      exact .refl _
    | some r =>
      cases hq : b.primary with
      | none => cases hp.symm.trans (hab.primary hq)
      | some s =>
        rw [hp] at h
        obtain ⟨hj', hsame⟩ := refreshUnary_same (ha.primary r hp) hj h s
        rw [refresh_of_no_keys hj, refresh_of_no_keys hj', hq]
        exact hsame
  cases op with
  | join keys =>
    obtain ⟨keys', hk, rfl⟩ := Refreshed.map_eq_done.mp h
    exact (hkeys hk).map _
  | indexJoin keys aligner =>
    rw [refresh, Refreshed.map_eq_done] at h
    obtain ⟨keys', hk, rfl⟩ := h
    exact (hkeys hk).map (indexJoin · aligner)
  | hybridJoin keys trusted =>
    rw [refresh, Refreshed.map_eq_done] at h
    obtain ⟨keys', hk, rfl⟩ := h
    exact (hkeys hk).map (hybridJoin · trusted)
  | revealJoin keys revealed =>
    obtain ⟨keys', hk, rfl⟩ := refresh_revealJoin_eq_done.mp h
    exact refresh_revealJoin_congr (hkeys hk) (Revelation.refresh_refresh hab.left hab.right)
  | _ => exact hunary rfl

end Operator
end PartyPlan
