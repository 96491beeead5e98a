import Mathlib.Data.List.Forall2
import PartyPlan.Proofs.Linked

/-! Column references that are up to date. A reference is a copy of a column; it is current when its
input still has that very column in its place. Refreshing makes references current, and changes
nothing about references that are current already. -/
namespace PartyPlan

theorem map_eq_map_iff {α β γ : Type} {f : α → γ} {g : β → γ} {as : List α} {bs : List β} :
    as.map f = bs.map g ↔ List.Forall₂ (fun a b => f a = g b) as bs := by
  rw [← List.forall₂_eq_eq_eq, List.forall₂_map_left_iff, List.forall₂_map_right_iff]

section Except

variable {ε α β : Type}

theorem except_bind_eq_ok {x : Except ε α} {f : α → Except ε β} {b : β} :
    (x >>= f) = .ok b ↔ ∃ a, x = .ok a ∧ f a = .ok b := by
  cases x with
  | error e => simp [bind, Except.bind]
  | ok a => simp [bind, Except.bind]

theorem except_bind_eq_error {x : Except ε α} {f : α → Except ε β} {e : ε} :
    (x >>= f) = .error e ↔ x = .error e ∨ ∃ a, x = .ok a ∧ f a = .error e := by
  cases x with
  | error e' => simp [bind, Except.bind]
  | ok a => simp [bind, Except.bind]

theorem toOption_eq_some {x : Except ε α} {a : α} : x.toOption = some a ↔ x = .ok a := by
  cases x <;> simp [Except.toOption]

theorem mapM_eq_ok {f : α → Except ε β} {as : List α} {bs : List β} :
    as.mapM f = .ok bs ↔ List.Forall₂ (fun a b => f a = .ok b) as bs := by
  induction as generalizing bs with
  | nil =>
    rw [List.mapM_nil, List.forall₂_nil_left_iff]
    exact ⟨fun hb => (Except.ok.inj hb).symm, fun hb => hb ▸ rfl⟩
  | cons a as ih =>
    rw [List.mapM_cons, except_bind_eq_ok, List.forall₂_cons_left_iff]
    constructor
    · rintro ⟨b, hb, hrest⟩
      obtain ⟨rest, hr, he⟩ := except_bind_eq_ok.mp hrest
      cases he
      exact ⟨b, rest, hb, ih.mp hr, rfl⟩
    · rintro ⟨b, rest, hb, hr, rfl⟩
      exact ⟨b, hb, except_bind_eq_ok.mpr ⟨rest, ih.mpr hr, rfl⟩⟩

theorem exists_mapM_eq_ok {f : α → Except ε β} {as : List α} :
    (∃ bs, as.mapM f = .ok bs) ↔ ∀ a ∈ as, ∃ b, f a = .ok b := by
  simp only [mapM_eq_ok]
  induction as with
  | nil => simp
  | cons a as ih => simp [List.forall₂_cons_left_iff, ih]

theorem mem_of_mapM_eq_ok {f : α → Except ε β} {l : List α} {out : List β}
    (h : l.mapM f = .ok out) : ∀ b ∈ out, ∃ a ∈ l, f a = .ok b := by
  induction l generalizing out with
  | nil =>
    cases h
    simp
  | cons a l ih =>
    rw [List.mapM_cons] at h
    obtain ⟨b, hb, h⟩ := except_bind_eq_ok.mp h
    obtain ⟨bs, hbs, h⟩ := except_bind_eq_ok.mp h
    cases h
    intro x hx
    rcases List.mem_cons.mp hx with rfl | hx
    · exact ⟨a, by simp, hb⟩
    · obtain ⟨y, hy, hf⟩ := ih hbs x hx
      exact ⟨y, by simp [hy], hf⟩

theorem exists_of_mapM_eq_error {f : α → Except ε β} {l : List α} {e : ε}
    (h : l.mapM f = .error e) : ∃ a ∈ l, f a = .error e := by
  induction l with
  | nil => cases h
  | cons a l ih =>
    rw [List.mapM_cons] at h
    rcases except_bind_eq_error.mp h with ha | ⟨b, _, h⟩
    · exact ⟨a, by simp, ha⟩
    rcases except_bind_eq_error.mp h with hl | ⟨bs, _, h⟩
    · obtain ⟨c, hc, he⟩ := ih hl
      exact ⟨c, by simp [hc], he⟩
    · cases h

theorem mapM_eq_self {f : α → Except ε α} {l : List α} (h : ∀ a ∈ l, f a = .ok a) :
    l.mapM f = .ok l := by
  induction l with
  | nil => rfl
  | cons a l ih =>
    rw [List.mapM_cons, h a (by simp), ih fun b hb => h b (by simp [hb])]
    rfl

end Except

namespace Relation

/-- What column references depend on; who holds the relation does not matter to them. -/
def schema (r : Relation) : String × List Column := (r.name, r.columns)

theorem resolve_eq_ok {r : Relation} {stale c : Column} :
    r.resolve stale = .ok c ↔ r.columns[stale.index]? = some c := by
  unfold resolve
  cases r.columns[stale.index]? <;> simp

/-- A column that was looked up stands in its place. -/
theorem WellFormed.resolved {r : Relation} (h : r.WellFormed) {stale c : Column}
    (hc : r.resolve stale = .ok c) : r.columns[c.index]? = some c := by
  rw [resolve_eq_ok] at hc
  rw [(h _ c hc).1]
  exact hc

theorem WellFormed.found {r : Relation} (h : r.WellFormed) {name : String} {c : Column}
    (hc : r.find name = .ok c) : r.columns[c.index]? = some c := by
  unfold find at hc
  cases hf : r.find? name with
  | none => simp [hf] at hc
  | some b =>
    simp only [hf, Except.ok.injEq] at hc
    subst hc
    obtain ⟨i, hi⟩ := List.getElem?_of_mem (List.mem_of_find?_eq_some hf)
    rw [(h i b hi).1]
    exact hi

end Relation

/-- A reference finds itself in its input, if the input is there. -/
def Column.StandsIn (input : Option Relation) (c : Column) : Prop :=
  ∀ r, input = some r → r.columns[c.index]? = some c

@[simp] theorem Column.standsIn_some {r : Relation} {c : Column} :
    c.StandsIn (some r) ↔ r.columns[c.index]? = some c :=
  ⟨fun h => h r rfl, fun h _ hr => Option.some.inj hr ▸ h⟩

theorem Column.standsIn_none (c : Column) : c.StandsIn none := fun _ hr => nomatch hr

/-- An input that is gone, or still has the name and the columns of another. -/
def Relation.Agrees (input' input : Option Relation) : Prop :=
  ∀ r', input' = some r' → ∃ r, input = some r ∧ r.schema = r'.schema

theorem Column.StandsIn.of_agrees {input input' : Option Relation} {c : Column}
    (ha : Relation.Agrees input' input) (h : c.StandsIn input) : c.StandsIn input' := by
  intro r' hr'
  obtain ⟨r, hr, hs⟩ := ha r' hr'
  have hcols : r.columns = r'.columns := congrArg Prod.snd hs
  rw [← hcols]
  exact h r hr

def JoinKeys.Current (left right : Option Relation) (keys : JoinKeys) : Prop :=
  (∀ c ∈ keys.left, c.StandsIn left) ∧ ∀ c ∈ keys.right, c.StandsIn right

def Aggregation.Current (input : Option Relation) (spec : Aggregation) : Prop :=
  (∀ c ∈ spec.groupBy, c.StandsIn input) ∧ spec.folded.StandsIn input

/-- The target is a column of the output and no reference. -/
def Arithmetic.Current (input : Option Relation) (spec : Arithmetic) : Prop :=
  ∀ c, .column c ∈ spec.operands → c.StandsIn input

def Revelation.Current (left right : Option Relation) (revealed : Revelation) : Prop :=
  ∀ r, revealed.side.pick left right = some r → revealed.relation.schema = r.schema

namespace Operator

def Current (inputs : InputRelations) : Operator → Prop
  | aggregate spec => spec.Current inputs.primary
  | indexAggregate spec _ _ => spec.Current inputs.primary
  | project columns => ∀ c ∈ columns, c.StandsIn inputs.primary
  | distinct columns => ∀ c ∈ columns, c.StandsIn inputs.primary
  | multiply spec => spec.Current inputs.primary
  | divide spec => spec.Current inputs.primary
  | filter condition => condition.column.StandsIn inputs.primary
  | sortBy column => column.StandsIn inputs.primary
  | compareNeighbours column => column.StandsIn inputs.primary
  | join keys => keys.Current inputs.left inputs.right
  | indexJoin keys _ => keys.Current inputs.left inputs.right
  | hybridJoin keys _ => keys.Current inputs.left inputs.right
  | revealJoin keys revealed =>
    keys.Current inputs.left inputs.right ∧ revealed.Current inputs.left inputs.right
  | _ => True

/-- An operator without the holders of a relation it reveals, which are all a refreshed operator may
still take over. -/
def withoutHolders : Operator → Operator
  | revealJoin keys revealed =>
    revealJoin keys { revealed with relation := revealed.relation.heldBy ∅ }
  | op => op

end Operator

structure InputRelations.Within (a b : InputRelations) : Prop where
  primary : Relation.Agrees a.primary b.primary
  left : Relation.Agrees a.left b.left
  right : Relation.Agrees a.right b.right

theorem JoinKeys.Current.of_within {a b : InputRelations} (h : a.Within b) {keys : JoinKeys}
    (hk : keys.Current b.left b.right) : keys.Current a.left a.right :=
  ⟨fun c hc => .of_agrees h.left (hk.1 c hc), fun c hc => .of_agrees h.right (hk.2 c hc)⟩

theorem Revelation.Current.of_within {a b : InputRelations} (h : a.Within b) {revealed : Revelation}
    (hr : revealed.Current b.left b.right) : revealed.Current a.left a.right := by
  have hshown : Relation.Agrees (revealed.side.pick a.left a.right)
      (revealed.side.pick b.left b.right) := by
    cases revealed.side with
    | left => exact h.left
    | right => exact h.right
  intro r' hr'
  obtain ⟨r, hshow, hs⟩ := hshown r' hr'
  rw [hr r hshow, hs]

/-- Only the names and columns of the inputs that are there matter. -/
theorem Operator.Current.of_within {a b : InputRelations} (h : a.Within b) {op : Operator}
    (hop : op.Current b) : op.Current a := by
  have hcols : ∀ {cs : List Column}, (∀ c ∈ cs, c.StandsIn b.primary) →
      ∀ c ∈ cs, c.StandsIn a.primary := fun hcs c hc => .of_agrees h.primary (hcs c hc)
  cases op with
  | aggregate spec => exact ⟨hcols hop.1, .of_agrees h.primary hop.2⟩
  | indexAggregate spec eqFlags sortedKeys => exact ⟨hcols hop.1, .of_agrees h.primary hop.2⟩
  | project columns => exact hcols hop
  | distinct columns => exact hcols hop
  | multiply spec => exact fun c hc => .of_agrees h.primary (hop c hc)
  | divide spec => exact fun c hc => .of_agrees h.primary (hop c hc)
  | filter condition => exact .of_agrees h.primary hop
  | sortBy column => exact .of_agrees h.primary hop
  | compareNeighbours column => exact .of_agrees h.primary hop
  | join keys => exact JoinKeys.Current.of_within h hop
  | indexJoin keys aligner => exact JoinKeys.Current.of_within h hop
  | hybridJoin keys trusted => exact JoinKeys.Current.of_within h hop
  | revealJoin keys revealed =>
    exact ⟨JoinKeys.Current.of_within h hop.1, Revelation.Current.of_within h hop.2⟩
  | _ => trivial

/-- An operator that reads nothing refers to nothing that could be another. -/
theorem Operator.current_of_none (op : Operator) : op.Current {} := by
  have hkeys : ∀ keys : JoinKeys, keys.Current none none := fun keys =>
    ⟨fun c _ => c.standsIn_none, fun c _ => c.standsIn_none⟩
  cases op with
  | aggregate spec => exact ⟨fun c _ => c.standsIn_none, spec.folded.standsIn_none⟩
  | indexAggregate spec eqFlags sortedKeys =>
    exact ⟨fun c _ => c.standsIn_none, spec.folded.standsIn_none⟩
  | project columns => exact fun c _ => c.standsIn_none
  | distinct columns => exact fun c _ => c.standsIn_none
  | multiply spec => exact fun c _ => c.standsIn_none
  | divide spec => exact fun c _ => c.standsIn_none
  | filter condition => exact condition.column.standsIn_none
  | sortBy column => exact column.standsIn_none
  | compareNeighbours column => exact column.standsIn_none
  | join keys => exact hkeys keys
  | indexJoin keys aligner => exact hkeys keys
  | hybridJoin keys trusted => exact hkeys keys
  | revealJoin keys revealed =>
    refine ⟨hkeys keys, fun r hr => ?_⟩
    cases hs : revealed.side <;> simp [hs] at hr
  | _ => trivial

def InputRelations.WellFormed (inputs : InputRelations) : Prop :=
  (∀ r, inputs.primary = some r → r.WellFormed) ∧ (∀ r, inputs.left = some r → r.WellFormed) ∧
    ∀ r, inputs.right = some r → r.WellFormed

section Refresh

variable {input left right : Option Relation} {r : Relation}

theorem resolveAll_current (hr : r.WellFormed) {stale cs : List Column}
    (h : r.resolveAll stale = .ok cs) : ∀ c ∈ cs, c.StandsIn (some r) := by
  intro c hc
  obtain ⟨b, _, hb⟩ := mem_of_mapM_eq_ok h c hc
  exact Column.standsIn_some.mpr (hr.resolved hb)

theorem resolve_current (hr : r.WellFormed) {stale c : Column} (h : r.resolve stale = .ok c) :
    c.StandsIn (some r) := Column.standsIn_some.mpr (hr.resolved h)

theorem resolve_eq_self {c : Column} (h : c.StandsIn (some r)) : r.resolve c = .ok c :=
  Relation.resolve_eq_ok.mpr (Column.standsIn_some.mp h)

theorem resolveAll_eq_self {cs : List Column} (h : ∀ c ∈ cs, c.StandsIn (some r)) :
    r.resolveAll cs = .ok cs := mapM_eq_self fun c hc => resolve_eq_self (h c hc)

theorem resolveIn_current (hi : ∀ r, input = some r → r.WellFormed) {stale cs : List Column}
    (h : resolveIn input stale = .ok cs) : ∀ c ∈ cs, c.StandsIn input := by
  cases input with
  | none => exact fun c _ => c.standsIn_none
  | some r => exact resolveAll_current (hi r rfl) h

theorem resolveIn_eq_self {cs : List Column} (h : ∀ c ∈ cs, c.StandsIn input) :
    resolveIn input cs = .ok cs := by
  cases input with
  | none => rfl
  | some r => exact resolveAll_eq_self h

theorem JoinKeys.current_of_refresh (hl : ∀ r, left = some r → r.WellFormed)
    (hr : ∀ r, right = some r → r.WellFormed) {keys : JoinKeys}
    (h : (keys.refresh left right).outcome = .ok ()) :
    (keys.refresh left right).value.Current left right := by
  unfold refresh at h ⊢
  cases hls : resolveIn left keys.left with
  | error e => simp [hls] at h
  | ok ls =>
    cases hrs : resolveIn right keys.right with
    | error e => simp [hls, hrs, Refreshed.ofExcept] at h
    | ok rs => exact ⟨resolveIn_current hl hls, resolveIn_current hr hrs⟩

theorem JoinKeys.refresh_of_current {keys : JoinKeys} (h : keys.Current left right) :
    keys.refresh left right = ⟨keys, .ok ()⟩ := by
  unfold refresh
  rw [resolveIn_eq_self h.1, resolveIn_eq_self h.2]
  rfl

theorem Aggregation.current_of_refresh (hr : r.WellFormed) {spec : Aggregation}
    (h : (spec.refresh r).outcome = .ok ()) : (spec.refresh r).value.Current (some r) := by
  unfold refresh at h ⊢
  cases hg : r.resolveAll spec.groupBy with
  | error e => simp [hg] at h
  | ok groupBy =>
    cases hf : r.resolve spec.folded with
    | error e => simp [hg, hf, Refreshed.ofExcept] at h
    | ok folded => exact ⟨resolveAll_current hr hg, resolve_current hr hf⟩

theorem Aggregation.refresh_of_current {spec : Aggregation} (h : spec.Current (some r)) :
    spec.refresh r = ⟨spec, .ok ()⟩ := by
  unfold refresh
  rw [resolveAll_eq_self h.1, resolve_eq_self h.2]
  rfl

theorem Arithmetic.current_of_refresh (hr : r.WellFormed) {spec : Arithmetic}
    (h : (spec.refresh r).outcome = .ok ()) : (spec.refresh r).value.Current (some r) := by
  unfold refresh at h ⊢
  cases ho : spec.operands.mapM (Operand.refresh r) with
  | error e => simp [ho, Refreshed.ofExcept] at h
  | ok operands =>
    intro c hc
    obtain ⟨o, _, hoc⟩ := mem_of_mapM_eq_ok ho _ hc
    cases o with
    | column stale =>
      cases hs : r.resolve stale with
      | error e => simp [Operand.refresh, hs, Except.map] at hoc
      | ok b =>
        simp only [Operand.refresh, hs, Except.map, Except.ok.injEq, Operand.column.injEq] at hoc
        exact hoc ▸ resolve_current hr hs
    | int n => simp [Operand.refresh] at hoc
    | float x => simp [Operand.refresh] at hoc

theorem Arithmetic.refresh_of_current {spec : Arithmetic} (h : spec.Current (some r)) :
    spec.refresh r = ⟨spec, .ok ()⟩ := by
  have hself : spec.operands.mapM (Operand.refresh r) = .ok spec.operands := by
    refine mapM_eq_self fun o ho => ?_
    cases o with
    | column c => simp [Operand.refresh, resolve_eq_self (h c ho), Except.map]
    | int n => rfl
    | float x => rfl
  unfold refresh
  rw [hself]
  rfl

theorem Condition.current_of_refresh (hr : r.WellFormed) {condition : Condition}
    (h : (condition.refresh r).outcome = .ok ()) :
    (condition.refresh r).value.column.StandsIn (some r) := by
  unfold refresh at h ⊢
  cases hc : r.resolve condition.column with
  | error e => simp [hc, Refreshed.ofExcept] at h
  | ok c => exact resolve_current hr hc

theorem Condition.refresh_of_current {condition : Condition}
    (h : condition.column.StandsIn (some r)) : condition.refresh r = ⟨condition, .ok ()⟩ := by
  unfold refresh
  rw [resolve_eq_self h]
  rfl

theorem Revelation.current_refresh (revealed : Revelation) (left right : Option Relation) :
    (revealed.refresh left right).Current left right := by
  intro r hr
  rw [refresh, show revealed.side.pick left right = some r from hr, Option.getD_some]

theorem Revelation.refresh_of_current {revealed : Revelation} (h : revealed.Current left right) :
    (revealed.refresh left right).relation.schema = revealed.relation.schema := by
  rw [refresh]
  cases hs : revealed.side.pick left right with
  | none => rfl
  | some r => exact (h r hs).symm

namespace Operator

variable {inputs : InputRelations} {op : Operator}

/-- Without keys there is nothing to look up but in a primary input. -/
theorem refresh_of_no_keys (hj : op.joinKeys? = none) :
    op.refresh inputs = inputs.primary.elim (.done op) op.refreshUnary := by
  cases op with
  | join | indexJoin | hybridJoin | revealJoin => simp [joinKeys?] at hj
  | _ =>
    unfold refresh
    cases inputs.primary <;> rfl

/-- Only joins read anything but a primary input. -/
theorem current_of_no_input (hj : op.joinKeys? = none) (hp : inputs.primary = none) :
    op.Current inputs := by
  obtain ⟨primary, left, right⟩ := inputs
  subst hp
  have h := op.current_of_none
  cases op with
  | join | indexJoin | hybridJoin | revealJoin => simp [joinKeys?] at hj
  | _ => exact h

theorem current_of_refreshUnary (hr : r.WellFormed) (hp : inputs.primary = some r)
    (hj : op.joinKeys? = none) (h : (op.refreshUnary r).outcome = .ok ()) :
    (op.refreshUnary r).value.Current inputs := by
  have hcols : ∀ {f : List Column → Operator} {stale : List Column},
      (Refreshed.ofExcept op f (r.resolveAll stale)).outcome = .ok () →
      ∃ cs, (Refreshed.ofExcept op f (r.resolveAll stale)).value = f cs ∧
        ∀ c ∈ cs, c.StandsIn inputs.primary := by
    intro f stale h
    cases hs : r.resolveAll stale with
    | error e => simp [hs, Refreshed.ofExcept] at h
    | ok cs => exact ⟨cs, rfl, hp ▸ resolveAll_current hr hs⟩
  have hcol : ∀ {f : Column → Operator} {stale : Column},
      (Refreshed.ofExcept op f (r.resolve stale)).outcome = .ok () →
      ∃ c, (Refreshed.ofExcept op f (r.resolve stale)).value = f c ∧ c.StandsIn inputs.primary := by
    intro f stale h
    cases hs : r.resolve stale with
    | error e => simp [hs, Refreshed.ofExcept] at h
    | ok c => exact ⟨c, rfl, hp ▸ resolve_current hr hs⟩
  cases op with
  | join | indexJoin | hybridJoin | revealJoin => simp [joinKeys?] at hj
  | aggregate spec =>
    have hs : (spec.refresh r).value.Current (some r) := Aggregation.current_of_refresh hr h
    rwa [← hp] at hs
  | indexAggregate spec eqFlags sortedKeys =>
    have hs : (spec.refresh r).value.Current (some r) := Aggregation.current_of_refresh hr h
    rwa [← hp] at hs
  | project columns =>
    obtain ⟨cs, he, hcs⟩ := hcols h
    exact he ▸ hcs
  | distinct columns =>
    obtain ⟨cs, he, hcs⟩ := hcols h
    exact he ▸ hcs
  | multiply spec =>
    have hs : (spec.refresh r).value.Current (some r) := Arithmetic.current_of_refresh hr h
    rwa [← hp] at hs
  | divide spec =>
    have hs : (spec.refresh r).value.Current (some r) := Arithmetic.current_of_refresh hr h
    rwa [← hp] at hs
  | filter condition =>
    have hs : (condition.refresh r).value.column.StandsIn (some r) :=
      Condition.current_of_refresh hr h
    rwa [← hp] at hs
  | sortBy column =>
    obtain ⟨c, he, hc⟩ := hcol h
    exact he ▸ hc
  | compareNeighbours column =>
    obtain ⟨c, he, hc⟩ := hcol h
    exact he ▸ hc
  | _ => trivial

/-- References that were all found again are current. -/
theorem current_of_refresh (hi : inputs.WellFormed) (h : (op.refresh inputs).outcome = .ok ()) :
    (op.refresh inputs).value.Current inputs := by
  have hunary : op.joinKeys? = none → (op.refresh inputs).value.Current inputs := by
    intro hj
    rw [refresh_of_no_keys hj] at h ⊢
    cases hp : inputs.primary with
    | none => exact current_of_no_input hj hp
    | some r =>
      rw [hp] at h
      exact current_of_refreshUnary (hi.1 r hp) hp hj h
  cases op with
  | join keys => exact JoinKeys.current_of_refresh hi.2.1 hi.2.2 h
  | indexJoin keys aligner => exact JoinKeys.current_of_refresh hi.2.1 hi.2.2 h
  | hybridJoin keys trusted => exact JoinKeys.current_of_refresh hi.2.1 hi.2.2 h
  | revealJoin keys revealed =>
    simp only [refresh] at h ⊢
    split
    · next hk => exact ⟨JoinKeys.current_of_refresh hi.2.1 hi.2.2 hk, revealed.current_refresh _ _⟩
    · next e hk => simp [hk] at h
  | _ => exact hunary rfl

theorem refreshUnary_of_current (hp : inputs.primary = some r) (hj : op.joinKeys? = none)
    (h : op.Current inputs) : op.refreshUnary r = .done op := by
  cases op with
  | join | indexJoin | hybridJoin | revealJoin => simp [joinKeys?] at hj
  | aggregate spec =>
    rw [refreshUnary, Aggregation.refresh_of_current (hp ▸ h)]
    rfl
  | indexAggregate spec eqFlags sortedKeys =>
    rw [refreshUnary, Aggregation.refresh_of_current (hp ▸ h)]
    rfl
  | project columns =>
    rw [refreshUnary, resolveAll_eq_self (hp ▸ h)]
    rfl
  | distinct columns =>
    rw [refreshUnary, resolveAll_eq_self (hp ▸ h)]
    rfl
  | multiply spec =>
    rw [refreshUnary, Arithmetic.refresh_of_current (hp ▸ h)]
    rfl
  | divide spec =>
    rw [refreshUnary, Arithmetic.refresh_of_current (hp ▸ h)]
    rfl
  | filter condition =>
    rw [refreshUnary, Condition.refresh_of_current (hp ▸ h)]
    rfl
  | sortBy column =>
    rw [refreshUnary, resolve_eq_self (hp ▸ h)]
    rfl
  | compareNeighbours column =>
    rw [refreshUnary, resolve_eq_self (hp ▸ h)]
    rfl
  | _ => rfl

/-- What a revealing join shows is taken over as it is; every other operator with current references is
left alone. -/
theorem refresh_eq_self (hk : op.kind ≠ .revealJoin) (h : op.Current inputs) :
    op.refresh inputs = ⟨op, .ok ()⟩ := by
  have hunary : op.joinKeys? = none → op.refresh inputs = .done op := by
    intro hj
    rw [refresh_of_no_keys hj]
    cases hp : inputs.primary with
    | none => rfl
    | some r => exact refreshUnary_of_current hp hj h
  cases op with
  | join keys | indexJoin keys _ | hybridJoin keys _ =>
    rw [refresh, JoinKeys.refresh_of_current h]
    rfl
  | revealJoin keys revealed => exact absurd rfl hk
  | _ => exact hunary rfl

/-- Refreshing references that are current finds all of them and changes none. -/
theorem refresh_of_current (h : op.Current inputs) :
    ∃ fresh, op.refresh inputs = ⟨fresh, .ok ()⟩ ∧ fresh.withoutHolders = op.withoutHolders := by
  by_cases hk : op.kind = .revealJoin
  · cases op with
    | revealJoin keys revealed =>
      refine ⟨.revealJoin keys (revealed.refresh inputs.left inputs.right), ?_, ?_⟩
      · simp only [refresh, JoinKeys.refresh_of_current h.1]
        rfl
      · have hs := Revelation.refresh_of_current h.2
        simp only [Relation.schema, Prod.mk.injEq] at hs
        simp only [withoutHolders, Relation.heldBy, hs]
        rfl
    | _ => cases hk
  · exact ⟨op, refresh_eq_self hk h, rfl⟩

end Operator
end Refresh

end PartyPlan
