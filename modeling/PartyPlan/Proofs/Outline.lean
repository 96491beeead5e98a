import PartyPlan.Proofs.Absorption

/-! What a look-up leaves alone. An operator is its references to columns and everything else, and a
look-up may change the references only, whether or not it succeeds. Where the columns of the inputs say
their places, not even the places change, so looking up a second time is looking up once. -/
namespace PartyPlan

def Column.bare (place : Nat) : Column := ⟨"", "", place, .integer, ∅⟩

/-! The outline of an operator has `view c` in the stead of each reference `c`, and of a relation that is
shown only the side and the recipient. -/

def JoinKeys.outline (view : Column → Column) (keys : JoinKeys) : JoinKeys :=
  ⟨keys.left.map view, keys.right.map view⟩

def Aggregation.outline (view : Column → Column) (spec : Aggregation) : Aggregation :=
  { spec with groupBy := spec.groupBy.map view, folded := view spec.folded }

def Operand.outline (view : Column → Column) : Operand → Operand
  | column c => column (view c)
  | scalar => scalar

/-- The target belongs to the output and is no reference. -/
def Arithmetic.outline (view : Column → Column) (spec : Arithmetic) : Arithmetic :=
  { spec with operands := spec.operands.map (Operand.outline view) }

def Condition.outline (view : Column → Column) (condition : Condition) : Condition :=
  { condition with column := view condition.column }

def Revelation.outline (revealed : Revelation) : Revelation :=
  { revealed with relation := ⟨"", [], ∅⟩ }

def Operator.outline (view : Column → Column) : Operator → Operator
  | aggregate spec => aggregate (spec.outline view)
  | indexAggregate spec eqFlags sortedKeys => indexAggregate (spec.outline view) eqFlags sortedKeys
  | project columns => project (columns.map view)
  | distinct columns => distinct (columns.map view)
  | multiply spec => multiply (spec.outline view)
  | divide spec => divide (spec.outline view)
  | filter condition => filter (condition.outline view)
  | sortBy column => sortBy (view column)
  | compareNeighbours column => compareNeighbours (view column)
  | join keys => join (keys.outline view)
  | indexJoin keys aligner => indexJoin (keys.outline view) aligner
  | revealJoin keys revealed => revealJoin (keys.outline view) revealed.outline
  | hybridJoin keys trusted => hybridJoin (keys.outline view) trusted
  | op => op

section Views

variable {view : Column → Column} {r : Relation}

/-- A look-up of a part leaves the whole as it looked, if the part that is taken over does. -/
theorem Refreshed.view_ofExcept {α β γ : Type} {k : α → γ} {whole : α} {f : β → α} {x : Except Error β}
    (h : ∀ b, x = .ok b → k (f b) = k whole) : k (ofExcept whole f x).value = k whole := by
  cases x with
  | error e => rfl
  | ok b => exact h b rfl

/-- What is found in a relation looks like what was looked for. -/
def Relation.Keeps (view : Column → Column) (r : Relation) : Prop :=
  ∀ stale c, r.resolve stale = .ok c → view c = view stale

theorem Relation.Placed.keeps (hr : r.Placed) : r.Keeps fun c => .bare c.index := by
  intro stale c h
  show Column.bare c.index = Column.bare stale.index
  rw [hr.index_resolve h]

theorem map_of_mapM {α : Type} {f : α → Except Error α} {k : α → α} (h : ∀ a b, f a = .ok b → k b = k a)
    {as bs : List α} (hb : as.mapM f = .ok bs) : bs.map k = as.map k := by
  rw [mapM_eq_ok] at hb
  induction hb with
  | nil => rfl
  | cons hab _ ih => rw [List.map_cons, List.map_cons, h _ _ hab, ih]

theorem map_of_resolveAll (hr : r.Keeps view) {stale cs : List Column}
    (h : r.resolveAll stale = .ok cs) : cs.map view = stale.map view := map_of_mapM hr h

theorem map_of_resolveIn {input : Option Relation} (hi : ∀ r, input = some r → r.Keeps view)
    {stale cs : List Column} (h : resolveIn input stale = .ok cs) : cs.map view = stale.map view := by
  cases input with
  | none =>
    cases h
    rfl
  | some r => exact map_of_resolveAll (hi r rfl) h

theorem JoinKeys.outline_refresh {left right : Option Relation}
    (hl : ∀ r, left = some r → r.Keeps view) (hr : ∀ r, right = some r → r.Keeps view)
    (keys : JoinKeys) : (keys.refresh left right).value.outline view = keys.outline view := by
  rw [refresh]
  cases hls : resolveIn left keys.left with
  | error e => rfl
  | ok ls =>
    have hleft : ls.map view = keys.left.map view := map_of_resolveIn hl hls
    dsimp only
    rw [Refreshed.view_ofExcept (k := outline view)]
    · rw [outline, outline, hleft]
    · intro rs hrs
      rw [outline, outline, map_of_resolveIn hr hrs]

theorem Aggregation.outline_refresh (hr : r.Keeps view) (spec : Aggregation) :
    (spec.refresh r).value.outline view = spec.outline view := by
  rw [refresh]
  cases hg : r.resolveAll spec.groupBy with
  | error e => rfl
  | ok groupBy =>
    have hgroup : groupBy.map view = spec.groupBy.map view := map_of_resolveAll hr hg
    dsimp only
    rw [Refreshed.view_ofExcept (k := outline view)]
    · rw [outline, outline, hgroup]
    · intro folded hf
      rw [outline, outline, hr _ _ hf]

theorem Operand.outline_of_refresh (hr : r.Keeps view) {o o' : Operand} (h : o.refresh r = .ok o') :
    o'.outline view = o.outline view := by
  cases o with
  | column stale =>
    cases hc : r.resolve stale with
    | error e => simp [refresh, hc, Except.map] at h
    | ok c =>
      simp only [refresh, hc, Except.map, Except.ok.injEq] at h
      subst h
      simp [outline, hr _ _ hc]
  | int n =>
    cases h
    rfl
  | float x =>
    cases h
    rfl

theorem Arithmetic.outline_refresh (hr : r.Keeps view) (spec : Arithmetic) :
    (spec.refresh r).value.outline view = spec.outline view := by
  refine Refreshed.view_ofExcept (k := outline view) fun operands ho => ?_
  rw [outline, outline, map_of_mapM (fun _ _ => Operand.outline_of_refresh hr) ho]

theorem Condition.outline_refresh (hr : r.Keeps view) (condition : Condition) :
    (condition.refresh r).value.outline view = condition.outline view := by
  refine Refreshed.view_ofExcept (k := outline view) fun c hc => ?_
  rw [outline, outline, hr _ _ hc]

theorem Revelation.outline_refresh (revealed : Revelation) (left right : Option Relation) :
    (revealed.refresh left right).outline = revealed.outline := rfl

namespace Operator

variable {inputs : InputRelations}

theorem outline_refreshUnary (hr : r.Keeps view) (op : Operator) :
    (op.refreshUnary r).value.outline view = op.outline view := by
  cases op with
  | aggregate spec => exact congrArg aggregate (spec.outline_refresh hr)
  | indexAggregate spec eqFlags sortedKeys =>
    exact congrArg (indexAggregate · eqFlags sortedKeys) (spec.outline_refresh hr)
  | multiply spec => exact congrArg multiply (spec.outline_refresh hr)
  | divide spec => exact congrArg divide (spec.outline_refresh hr)
  | filter condition => exact congrArg filter (condition.outline_refresh hr)
  | project columns =>
    exact Refreshed.view_ofExcept (k := outline view) fun cs hc =>
      congrArg project (map_of_resolveAll hr hc)
  | distinct columns =>
    exact Refreshed.view_ofExcept (k := outline view) fun cs hc =>
      congrArg distinct (map_of_resolveAll hr hc)
  | sortBy column =>
    exact Refreshed.view_ofExcept (k := outline view) fun c hc => congrArg sortBy (hr column c hc)
  | compareNeighbours column =>
    exact Refreshed.view_ofExcept (k := outline view) fun c hc =>
      congrArg compareNeighbours (hr column c hc)
  | _ => rfl

/-- A look-up keeps the outline of an operator, also where it is given up midway. -/
theorem outline_refresh (hp : ∀ r, inputs.primary = some r → r.Keeps view)
    (hl : ∀ r, inputs.left = some r → r.Keeps view) (hr : ∀ r, inputs.right = some r → r.Keeps view)
    (op : Operator) : (op.refresh inputs).value.outline view = op.outline view := by
  have hunary : op.joinKeys? = none → (op.refresh inputs).value.outline view = op.outline view := by
    intro hj
    rw [refresh_of_no_keys hj]
    cases h : inputs.primary with
    | none => rfl
    | some r => exact outline_refreshUnary (hp r h) op
  cases op with
  | join keys => exact congrArg join (keys.outline_refresh hl hr)
  | indexJoin keys aligner => exact congrArg (indexJoin · aligner) (keys.outline_refresh hl hr)
  | hybridJoin keys trusted => exact congrArg (hybridJoin · trusted) (keys.outline_refresh hl hr)
  | revealJoin keys revealed =>
    have hkeys := keys.outline_refresh hl hr
    rw [refresh]
    split
    · simp only [Refreshed.done, outline, hkeys, Revelation.outline_refresh]
    · simp only [outline, hkeys]
  | _ => exact hunary rfl

end Operator
end Views

/-- Looking up goes by places. After a look-up that succeeded in relations whose columns say their places,
one that reads at least as much comes out as it would have without the first: with the same operator, or
refused at the same place for the same reason, though the missing column may be known under another name.
In particular the first one can be repeated and changes nothing more. Whatever happens, an operator keeps
its outline: nothing of it changes but the columns it refers to and the relation it shows, and where columns
say their places, the references stay as many and name the places they named before. -/
theorem refresh_positional (op : Operator) (a b : InputRelations) (ha : a.Placed) (hab : b.Covers a) :
    ((op.refresh a).outcome = .ok () →
      ((op.refresh a).value.refresh b).Same (op.refresh b) ∧
        (op.refresh a).value.refresh a = op.refresh a) ∧
    (op.refresh a).value.outline (fun c => .bare c.index) = op.outline (fun c => .bare c.index) ∧
    ∀ inputs : InputRelations,
      (op.refresh inputs).value.outline (fun _ => .bare 0) = op.outline (fun _ => .bare 0) := by
  refine ⟨fun hok => ?_, ?_, fun inputs => ?_⟩
  · have hdone : op.refresh a = ⟨(op.refresh a).value, .ok ()⟩ := by rw [← hok]
    have hself : a.Covers a := ⟨id, id, id⟩
    have hagain := Operator.refresh_same ha hself hdone
    refine ⟨Operator.refresh_same ha hab hdone, ?_⟩
    rw [hagain.eq_done_iff.mpr hdone, ← hdone]
  · exact op.outline_refresh (fun r hr => (ha.primary r hr).keeps) (fun r hr => (ha.left r hr).keeps)
      fun r hr => (ha.right r hr).keeps
  · exact op.outline_refresh (fun _ _ _ _ _ => rfl) (fun _ _ _ _ _ => rfl) fun _ _ _ _ _ => rfl

def sides (left right : String) (leftColumns rightColumns : List String) : InputRelations :=
  let relation (name : String) (columns : List String) : Relation :=
    .stamped name (columns.map fun c => ⟨"", c, 0, .integer, ∅⟩) (.singleton 1)
  { left := some (relation left leftColumns), right := some (relation right rightColumns) }

theorem sides_covers (left right : String) (leftColumns rightColumns : List String) {a : InputRelations}
    (ha : a.primary = none) : (sides left right leftColumns rightColumns).Covers a where
  primary _ := ha
  left h := by cases h
  right h := by cases h

theorem sides_placed (left right : String) (leftColumns rightColumns : List String) :
    (sides left right leftColumns rightColumns).Placed where
  primary _ hr := by cases hr
  left _ hr := by
    cases hr
    exact (Relation.stamped_wellFormed _ _ _).placed
  right _ hr := by
    cases hr
    exact (Relation.stamped_wellFormed _ _ _).placed

def showingJoin : Operator :=
  .revealJoin ⟨[⟨"l", "k", 0, .integer, ∅⟩], [⟨"r", "k", 1, .integer, ∅⟩]⟩ ⟨.right, ⟨"r", [], ∅⟩, 2⟩

/-- The join is looked up in one pair of inputs and then in another, which is as wide or has no second
column on the right. There the missing column is known by the name it got in between. -/
theorem showingJoin_positional :
    let a := sides "l" "s" ["k"] ["v", "w"]
    let b := sides "m" "t" ["k", "u"] ["v", "x"]
    let narrow := sides "m" "t" ["k"] ["v"]
    let mid := (showingJoin.refresh a).value
    ((showingJoin.refresh a).outcome = .ok () ∧ (showingJoin.refresh b).outcome = .ok () ∧
      (showingJoin.refresh narrow).outcome = .error (.schema (.noCounterpart "r.k" 1 "t" 1)) ∧
      (mid.refresh narrow).outcome = .error (.schema (.noCounterpart "s.w" 1 "t" 1))) ∧
    (mid.refresh b).Same (showingJoin.refresh b) ∧
    (mid.refresh narrow).Same (showingJoin.refresh narrow) ∧ mid.refresh a = showingJoin.refresh a ∧
    mid.outline (fun c => .bare c.index) = showingJoin.outline (fun c => .bare c.index) := by
  intro a b narrow mid
  have ha : a.Placed := sides_placed _ _ _ _
  have hok : (showingJoin.refresh a).outcome = .ok () := by decide +kernel
  have hb := refresh_positional showingJoin a b ha (sides_covers _ _ _ _ rfl)
  have hnarrow := refresh_positional showingJoin a narrow ha (sides_covers _ _ _ _ rfl)
  exact ⟨⟨hok, by decide +kernel⟩, (hb.1 hok).1, (hnarrow.1 hok).1, (hb.1 hok).2, hb.2.1⟩

end PartyPlan
