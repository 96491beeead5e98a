import PartyPlan.Proofs.Current

/-! When a look-up of columns succeeds, and what it leaves in the plan. A reference is found when its
input has a column in the place it names, so only the width of the input matters. A look-up that fails
may have taken over some references already. -/
namespace PartyPlan

def Column.FoundIn (input : Option Relation) (c : Column) : Prop :=
  ∀ r, input = some r → c.index < r.width

namespace Operator

def references : Operator → List Column
  | aggregate spec | indexAggregate spec _ _ => spec.groupBy ++ [spec.folded]
  | project columns | distinct columns => columns
  | multiply spec | divide spec => spec.operands.filterMap Operand.column?
  | filter condition => [condition.column]
  | sortBy column | compareNeighbours column => [column]
  | _ => []

def Found (inputs : InputRelations) (op : Operator) : Prop :=
  (∀ c ∈ op.references, c.FoundIn inputs.primary) ∧
    ∀ keys, op.joinKeys? = some keys →
      (∀ c ∈ keys.left, c.FoundIn inputs.left) ∧ ∀ c ∈ keys.right, c.FoundIn inputs.right

end Operator

section Lookup

variable {input : Option Relation} {r : Relation}

theorem exists_resolve {c : Column} : (∃ c', r.resolve c = .ok c') ↔ c.index < r.width := by
  simp only [Relation.resolve_eq_ok, Relation.width]
  rw [← Option.isSome_iff_exists, isSome_getElem?]

theorem foundIn_some {c : Column} : c.FoundIn (some r) ↔ ∃ c', r.resolve c = .ok c' := by
  rw [exists_resolve]
  exact ⟨fun h => h r rfl, fun h r' hr => Option.some.inj hr ▸ h⟩

theorem exists_resolveIn (input : Option Relation) {cs : List Column} :
    (∃ cs', resolveIn input cs = .ok cs') ↔ ∀ c ∈ cs, c.FoundIn input := by
  cases input with
  | none => exact ⟨fun _ c _ r hr => (nomatch hr), fun _ => ⟨cs, rfl⟩⟩
  | some r =>
    simp only [foundIn_some]
    exact exists_mapM_eq_ok

theorem Refreshed.outcome_ofExcept {α β : Type} {whole : α} {f : β → α} {x : Except Error β} :
    (ofExcept whole f x).outcome = .ok () ↔ ∃ b, x = .ok b := by
  cases x <;> simp [ofExcept]

theorem JoinKeys.outcome_refresh {left right : Option Relation} {keys : JoinKeys} :
    (keys.refresh left right).outcome = .ok () ↔
      (∀ c ∈ keys.left, c.FoundIn left) ∧ ∀ c ∈ keys.right, c.FoundIn right := by
  rw [refresh, ← exists_resolveIn, ← exists_resolveIn]
  cases resolveIn left keys.left with
  | error e => simp
  | ok ls => simp [Refreshed.outcome_ofExcept]

theorem Aggregation.outcome_refresh {spec : Aggregation} :
    (spec.refresh r).outcome = .ok () ↔ ∀ c ∈ spec.groupBy ++ [spec.folded], c.FoundIn (some r) := by
  have hgroup : (∃ cs, r.resolveAll spec.groupBy = .ok cs) ↔
      ∀ c ∈ spec.groupBy, c.FoundIn (some r) := exists_resolveIn (some r)
  rw [refresh, List.forall_mem_append, ← hgroup, List.forall_mem_singleton, foundIn_some]
  cases r.resolveAll spec.groupBy with
  | error e => simp
  | ok cs => simp [Refreshed.outcome_ofExcept]

theorem Operand.exists_refresh {o : Operand} :
    (∃ o', o.refresh r = .ok o') ↔ ∀ c, o.column? = some c → c.FoundIn (some r) := by
  cases o with
  | column c =>
    simp only [refresh, column?, Option.some.injEq, forall_eq', foundIn_some]
    cases r.resolve c <;> simp [Except.map]
  | int n => simp [refresh, column?]
  | float x => simp [refresh, column?]

theorem Arithmetic.outcome_refresh {spec : Arithmetic} :
    (spec.refresh r).outcome = .ok () ↔
      ∀ c ∈ spec.operands.filterMap Operand.column?, c.FoundIn (some r) := by
  rw [refresh, Refreshed.outcome_ofExcept, exists_mapM_eq_ok]
  simp only [Operand.exists_refresh, List.mem_filterMap]
  exact ⟨fun h c ⟨o, ho, hc⟩ => h o ho c hc, fun h o ho c hc => h c ⟨o, ho, hc⟩⟩

theorem Condition.outcome_refresh {condition : Condition} :
    (condition.refresh r).outcome = .ok () ↔ condition.column.FoundIn (some r) := by
  rw [refresh, Refreshed.outcome_ofExcept, foundIn_some]

namespace Operator

variable {op : Operator} {inputs : InputRelations}

theorem outcome_refreshUnary (hj : op.joinKeys? = none) :
    (op.refreshUnary r).outcome = .ok () ↔ ∀ c ∈ op.references, c.FoundIn (some r) := by
  have hcols : ∀ {f : List Column → Operator} {cs : List Column},
      (Refreshed.ofExcept op f (r.resolveAll cs)).outcome = .ok () ↔
        ∀ c ∈ cs, c.FoundIn (some r) := by
    intro f cs
    rw [Refreshed.outcome_ofExcept]
    exact exists_resolveIn (some r)
  have hcol : ∀ {f : Column → Operator} {c : Column},
      (Refreshed.ofExcept op f (r.resolve c)).outcome = .ok () ↔
        ∀ c' ∈ [c], c'.FoundIn (some r) := by
    intro f c
    rw [Refreshed.outcome_ofExcept, List.forall_mem_singleton, foundIn_some]
  cases op with
  | join | indexJoin | hybridJoin | revealJoin => simp [joinKeys?] at hj
  | aggregate spec => exact Aggregation.outcome_refresh
  | indexAggregate spec eqFlags sortedKeys => exact Aggregation.outcome_refresh
  | project columns => exact hcols
  | distinct columns => exact hcols
  | multiply spec => exact Arithmetic.outcome_refresh
  | divide spec => exact Arithmetic.outcome_refresh
  | filter condition =>
    rw [references, List.forall_mem_singleton]
    exact Condition.outcome_refresh
  | sortBy column => exact hcol
  | compareNeighbours column => exact hcol
  | _ => simp [refreshUnary, Refreshed.done, references]

/-- A look-up succeeds when every reference has a place in its input. -/
theorem outcome_refresh : (op.refresh inputs).outcome = .ok () ↔ op.Found inputs := by
  have hjoin : ∀ keys, op.joinKeys? = some keys →
      ((keys.refresh inputs.left inputs.right).outcome = .ok () ↔ op.Found inputs) := by
    intro keys hk
    have hnone : op.references = [] := by cases op <;> simp_all [joinKeys?, references]
    rw [JoinKeys.outcome_refresh, Found, hnone, hk]
    simp
  have hunary : op.joinKeys? = none →
      ((op.refresh inputs).outcome = .ok () ↔ op.Found inputs) := by
    intro hj
    rw [refresh_of_no_keys hj, Found, hj]
    cases inputs.primary with
    | none => simp [Refreshed.done, Column.FoundIn]
    | some r => simp [outcome_refreshUnary hj]
  cases op with
  | join keys => exact hjoin keys rfl
  | indexJoin keys aligner => exact hjoin keys rfl
  | hybridJoin keys trusted => exact hjoin keys rfl
  | revealJoin keys revealed =>
    rw [← hjoin keys rfl, refresh]
    cases h : (keys.refresh inputs.left inputs.right).outcome <;> simp [Refreshed.done]
  | _ => exact hunary rfl

theorem found_replaceHelper {old new : NodeId} :
    (op.replaceHelper old new).Found inputs ↔ op.Found inputs := by cases op <;> rfl

end Operator
end Lookup

/-! Look-ups in a plan. -/

section Widths

variable {f f' : NodeId → Option Relation}

theorem Column.foundIn_congr {a b : Option Relation} (h : a.map Relation.width = b.map Relation.width)
    (c : Column) : c.FoundIn a ↔ c.FoundIn b := by
  cases a with
  | none =>
    cases b with
    | none => rfl
    | some r => cases h
  | some r =>
    cases b with
    | none => cases h
    | some r' =>
      have hw : r.width = r'.width := Option.some.inj h
      simp [FoundIn, hw]

/-- Only the widths of relations matter to finding columns. -/
theorem Operator.found_read_congr (h : ∀ p, (f' p).map Relation.width = (f p).map Relation.width)
    (inputs : Inputs) (op : Operator) : op.Found (inputs.read f') ↔ op.Found (inputs.read f) := by
  have hbind : ∀ input : Option NodeId,
      (input.bind f').map Relation.width = (input.bind f).map Relation.width := by
    intro input
    cases input with
    | none => rfl
    | some p => exact h p
  cases inputs with
  | unary input => simp only [Found, Inputs.read, Column.foundIn_congr (hbind input)]
  | binary left right =>
    simp only [Found, Inputs.read, Column.foundIn_congr (hbind left), Column.foundIn_congr (hbind right)]
  | nary ordered => rfl

end Widths

namespace Plan

variable {g : Plan} {id p c i old new : NodeId} {n : Node} {k : Node → Node}

/-- The operator and the inputs of a node, all of it that a look-up reads. -/
def reading (g : Plan) (i : NodeId) : Option (Operator × Inputs) :=
  (g.get? i).map fun n => (n.op, n.inputs)

theorem reading_eq (hn : g.get? i = some n) : g.reading i = some (n.op, n.inputs) := by
  rw [reading, hn, Option.map_some]

theorem reading_update_of_eq (hk : ∀ n, (k n).op = n.op ∧ (k n).inputs = n.inputs) :
    (g.update id k).reading = g.reading := by
  funext j
  rw [reading, reading, get?_update]
  split
  · rw [Option.map_map]
    congr 1
    funext n
    rw [Function.comp_apply, (hk n).1, (hk n).2]
  · rfl

theorem reading_update_of_ne (hne : id ≠ i) : (g.update id k).reading i = g.reading i := by
  rw [reading, reading, get?_update, if_neg hne]

theorem output?_update_of_eq (hk : ∀ n, (k n).output = n.output) :
    (g.update id k).output? = g.output? := by
  funext j
  rw [output?, output?, get?_update]
  split
  · rw [Option.map_map]
    congr 1
    funext n
    exact hk n
  · rfl

@[simp] theorem output?_withChild : (g.update p (.withChild c)).output? = g.output? :=
  output?_update_of_eq fun _ => rfl
@[simp] theorem output?_withoutChild : (g.update p (.withoutChild c)).output? = g.output? :=
  output?_update_of_eq fun _ => rfl
@[simp] theorem output?_withParent : (g.update c (.withParent p)).output? = g.output? :=
  output?_update_of_eq fun _ => rfl
@[simp] theorem output?_withParentReplaced :
    (g.update c (.withParentReplaced old new)).output? = g.output? :=
  output?_update_of_eq fun _ => rfl

@[simp] theorem output?_addEdge : (g.addEdge p c).output? = g.output? := by simp [addEdge]

@[simp] theorem output?_moveEdge : (g.moveEdge c old new).output? = g.output? := by simp [moveEdge]

@[simp] theorem reading_withChild : (g.update p (.withChild c)).reading = g.reading :=
  reading_update_of_eq fun _ => ⟨rfl, rfl⟩
@[simp] theorem reading_withoutChild : (g.update p (.withoutChild c)).reading = g.reading :=
  reading_update_of_eq fun _ => ⟨rfl, rfl⟩

theorem reading_update {r : Operator × Inputs → Operator × Inputs}
    (hk : ∀ n, ((k n).op, (k n).inputs) = r (n.op, n.inputs)) :
    (g.update i k).reading i = (g.reading i).map r := by
  rw [reading, reading, get?_update, if_pos rfl, Option.map_map, Option.map_map]
  congr 1
  funext n
  exact hk n

theorem reading_addEdge : (g.addEdge p c).reading c =
    (g.reading c).map fun r => (r.1, r.2.attach p) := by
  rw [addEdge, reading_update (r := fun r => (r.1, r.2.attach p)) fun _ => rfl, reading_withChild]

theorem reading_addEdge_of_ne (hi : c ≠ i) : (g.addEdge p c).reading i = g.reading i := by
  rw [addEdge, reading_update_of_ne hi, reading_withChild]

theorem reading_moveEdge : (g.moveEdge c old new).reading c =
    (g.reading c).map fun r => (r.1.replaceHelper old new, r.2.replace old new) := by
  rw [moveEdge, reading_update (r := fun r => (r.1.replaceHelper old new, r.2.replace old new))
    fun _ => rfl, reading_withChild, reading_withoutChild]

theorem reading_moveEdge_of_ne (hi : c ≠ i) : (g.moveEdge c old new).reading i = g.reading i := by
  rw [moveEdge, reading_update_of_ne hi, reading_withChild, reading_withoutChild]

/-- A node after a look-up, whether it found all columns or not. -/
def lookedUp (g : Plan) (id : NodeId) (n : Node) : Plan :=
  g.update id ({ · with op := (n.op.refresh (n.inputs.read g.output?)).value })

@[simp] theorem size_lookedUp : (g.lookedUp id n).size = g.size := size_update ..

@[simp] theorem output?_lookedUp : (g.lookedUp id n).output? = g.output? :=
  output?_update_of_eq fun _ => rfl

@[simp] theorem childrenOf_lookedUp : (g.lookedUp id n).childrenOf = g.childrenOf :=
  childrenOf_update_of_eq fun _ => rfl

@[simp] theorem parentsOf_lookedUp : (g.lookedUp id n).parentsOf = g.parentsOf :=
  parentsOf_update_of_eq fun _ => rfl

def kind? (g : Plan) (i : NodeId) : Option Kind := (g.get? i).map Node.kind

theorem kind?_update_of_eq (hk : ∀ n, g.get? id = some n → (k n).kind = n.kind) :
    (g.update id k).kind? = g.kind? := by
  funext j
  rw [kind?, kind?, get?_update]
  by_cases h : id = j
  · subst h
    rw [if_pos rfl, Option.map_map]
    cases hn : g.get? id with
    | none => rfl
    | some n => simp [hk n hn]
  · rw [if_neg h]

theorem kind?_moveEdge : (g.moveEdge c old new).kind? = g.kind? := by
  rw [moveEdge, kind?_update_of_eq (k := .withParentReplaced old new) fun n _ =>
      Operator.kind_replaceHelper ..,
    kind?_update_of_eq (k := .withChild c) fun _ _ => rfl,
    kind?_update_of_eq (k := .withoutChild c) fun _ _ => rfl]

theorem kind?_lookedUp (hn : g.get? id = some n) : (g.lookedUp id n).kind? = g.kind? := by
  refine kind?_update_of_eq fun m hm => ?_
  cases hm.symm.trans hn
  exact Operator.kind_refresh ..

theorem reading_lookedUp_of_ne (hi : id ≠ i) : (g.lookedUp id n).reading i = g.reading i :=
  reading_update_of_ne hi

end Plan

namespace Edit
open Plan

variable {P : Plan → Prop} {Q : Unit → Plan → Prop} {R : Error → Plan → Prop} {id : NodeId}

theorem Meets.lookUp
    (hok : ∀ g n, P g → g.get? id = some n → n.op.Found (n.inputs.read g.output?) →
      Q () (g.lookedUp id n))
    (hno : ∀ g n e, P g → g.get? id = some n → ¬ n.op.Found (n.inputs.read g.output?) →
      R e (g.lookedUp id n))
    (hun : ∀ g, P g → ¬ id < g.size → R (.unknownNode id) g) : Meets P (Edit.refreshColumns id) Q R := by
  refine Meets.refreshColumns (fun g n op hg hn hr => ?_) (fun g n op e hg hn hr => ?_) hun
  · rw [operatorInputs_eq hn] at hr
    have hfound := Operator.outcome_refresh.mp (congrArg Refreshed.outcome hr)
    have hdone := hok g n hg hn hfound
    rwa [lookedUp, hr] at hdone
  · rw [operatorInputs_eq hn] at hr
    have hmissed : ¬ n.op.Found (n.inputs.read g.output?) := by
      rw [← Operator.outcome_refresh, hr]
      simp
    have hdone := hno g n e hg hn hmissed
    rwa [lookedUp, hr] at hdone

end Edit

end PartyPlan
