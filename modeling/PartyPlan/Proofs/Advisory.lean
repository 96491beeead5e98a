import PartyPlan.Proofs.ClearedPlan
import PartyPlan.Proofs.Optimization
import PartyPlan.Proofs.Sortable

/-! Trust is advice. No request for an operator asks whom a column is trusted to, and the optimizing pass
asks only before it lets a trusted party match the keys of a join. So two runs of requests that differ in
the trust declared with their sources get the same answers all along and lead to plans that differ in
nothing but trust, and without hybrid joins they go on doing so through the optimizing pass. -/
namespace PartyPlan

def Draft.cleared (d : Draft) : Draft := { d with plan := d.plan.cleared }

namespace Edit

variable {α α' β β' : Type} {c : α → α'} {k : β → β'}

/-- On the cleared draft the second edit does what the first does on the draft: it is refused for the
same reason, or answers the same up to `c`, and the drafts differ at most in trust. -/
def Clears (c : α → α') (x : Edit α) (y : Edit α') : Prop :=
  ∀ d : Draft, y.apply d.cleared = ((x.apply d).1.map c, (x.apply d).2.cleared)

namespace Clears

theorem pure {a : α} {a' : α'} (h : a' = c a) : Clears c (Pure.pure a) (Pure.pure a') := by
  intro d
  rw [h]
  rfl

theorem throw (e : Error) : Clears c (MonadExcept.throw e) (MonadExcept.throw e) := fun _ => rfl

theorem bind {x : Edit α} {y : Edit α'} {f : α → Edit β} {f' : α' → Edit β'} (hx : Clears c x y)
    (hf : ∀ a, Clears k (f a) (f' (c a))) : Clears k (x >>= f) (y >>= f') := by
  intro d
  rw [apply_bind, apply_bind, hx d]
  rcases x.apply d with ⟨e | a, d'⟩
  · rfl
  · exact hf a d'

/-- What would come after a refusal does not matter. -/
theorem refuse (e : Error) {f : α → Edit β} {f' : α' → Edit β'} :
    Clears k (MonadExcept.throw e >>= f) (MonadExcept.throw e >>= f') := fun _ => rfl

theorem ite {p : Prop} [Decidable p] {x x' : Edit α} {y y' : Edit α'} (h : Clears c x y)
    (h' : Clears c x' y') : Clears c (if p then x else x') (if p then y else y') := by
  by_cases hp : p
  · rw [if_pos hp, if_pos hp]
    exact h
  · rw [if_neg hp, if_neg hp]
    exact h'

theorem settle {x : Except Error α} {y : Except Error α'} (h : y = x.map c) :
    Clears c (Edit.settle x) (Edit.settle y) := by
  intro d
  rw [h]
  rfl

theorem settle_same (x : Except Error α) : Clears id (Edit.settle x) (Edit.settle x) :=
  settle (congrFun Except.map_id x).symm

theorem plan : Clears Plan.cleared Edit.plan Edit.plan := fun _ => rfl

theorem ask {q : Plan → Except Error α} {q' : Plan → Except Error α'}
    (h : ∀ g : Plan, q' g.cleared = (q g).map c) : Clears c (Edit.ask q) (Edit.ask q') :=
  plan.bind fun g => settle (h g)

/-- A question with the same answer. -/
theorem ask_same {q : Plan → Except Error α} (h : ∀ g : Plan, q g.cleared = q g) :
    Clears id (Edit.ask q) (Edit.ask q) := by
  refine ask fun g => ?_
  rw [h, Except.map_id]
  rfl

theorem change {f f' : Plan → Plan} (h : ∀ g : Plan, f' g.cleared = (f g).cleared) :
    Clears id (Edit.change f) (Edit.change f') := by
  intro d
  exact congrArg (fun g => ((.ok (), { d with plan := g }) : Except Error Unit × Draft)) (h d.plan)

theorem update (i : NodeId) {f f' : Node → Node} (h : ∀ n : Node, f' n.cleared = (f n).cleared) :
    Clears id (Edit.change (·.update i f)) (Edit.change (·.update i f')) :=
  change fun g => g.update_cleared i f f' h

theorem report {e e' : Event} (h : e' = e) : Clears id (Edit.report e) (Edit.report e') := by
  intro d
  rw [h]
  rfl

theorem forM {f : β → Edit Unit} (h : ∀ b, Clears id (f b) (f b)) (l : List β) :
    Clears id (l.forM f) (l.forM f) := by
  induction l with
  | nil => exact pure rfl
  | cons b l ih => exact (h b).bind fun _ => ih

theorem mapM {f : β → Edit α} {f' : β → Edit α'} (h : ∀ b, Clears c (f b) (f' b)) (l : List β) :
    Clears (List.map c) (l.mapM f) (l.mapM f') := by
  induction l with
  | nil => exact pure rfl
  | cons b l ih =>
    rw [List.mapM_cons, List.mapM_cons]
    exact (h b).bind fun a => ih.bind fun as => pure rfl

/-- Drafts that differ at most in trust come out of such an edit with the same answer, and still so. -/
theorem alike {x : Edit α} (hx : Clears id x x) {d d' : Draft} (hd : d'.cleared = d.cleared) :
    (x.apply d').1 = (x.apply d).1 ∧ (x.apply d').2.cleared = (x.apply d).2.cleared := by
  have hruns := (hx d').symm.trans (hd ▸ hx d)
  rw [Except.map_id] at hruns
  exact Prod.ext_iff.mp hruns

end Clears

/-! The steps of edits. -/

theorem node_clears (i : NodeId) : Clears Node.cleared (node i) (node i) :=
  .ask fun g => g.node_cleared i

theorem fetch_clears (i : NodeId) : Clears Node.cleared (fetch i) (fetch i) :=
  .ask fun g => g.fetch_cleared i

theorem require_clears (i : NodeId) : Clears id (require i) (require i) :=
  (node_clears i).bind fun _ => .pure rfl

theorem addNode_clears (op : Operator) (r : Relation) :
    Clears id (addNode op r) (addNode op.cleared r.cleared) :=
  Clears.plan.bind fun g => (Clears.change fun h => h.push_cleared op r).bind fun _ =>
    .pure g.size_cleared

theorem addRoot_clears (i : NodeId) : Clears id (addRoot i) (addRoot i) :=
  (require_clears i).bind fun _ => .change fun _ => rfl

theorem setFlags_clears (i : NodeId) (isLocal isMpc : Option Bool) :
    Clears id (setFlags i isLocal isMpc) (setFlags i isLocal isMpc) :=
  (require_clears i).bind fun _ => .update i fun _ => rfl

theorem link_clears (p i : NodeId) : Clears id (link p i) (link p i) :=
  (require_clears p).bind fun _ => (require_clears i).bind fun _ => .change fun g => g.addEdge_cleared p i

theorem requireEdge_clears (p i : NodeId) : Clears id (requireEdge p i) (requireEdge p i) := by
  refine (require_clears p).bind fun _ => (require_clears i).bind fun _ => Clears.plan.bind fun g => ?_
  rw [g.hasEdge_cleared, g.describe_cleared, g.describe_cleared]
  exact .ite (.pure rfl) (.throw _)

theorem replaceParent_clears (i old new : NodeId) :
    Clears id (replaceParent i old new) (replaceParent i old new) :=
  (requireEdge_clears old i).bind fun _ => (require_clears new).bind fun _ =>
    .change fun g => g.moveEdge_cleared i old new

theorem makeOrphan_clears (i : NodeId) : Clears id (makeOrphan i) (makeOrphan i) := by
  have hinputs : ∀ n : Node, n.cleared.withoutInputs = n.withoutInputs.cleared := by
    intro n
    rw [Node.withoutInputs, n.arity_cleared, Node.withoutInputs]
    rfl
  refine (node_clears i).bind fun n => ?_
  refine Clears.bind (.update i fun _ => rfl) fun _ => ?_
  refine Clears.bind (.forM (fun p => ?_) _) fun _ => .update i hinputs
  exact (require_clears p).bind fun _ => .update p fun _ => rfl

theorem setHolders_clears (i : NodeId) (s : PartySet) : Clears id (setHolders i s) (setHolders i s) :=
  (require_clears i).bind fun _ => .update i fun _ => rfl

theorem refreshColumns_clears (i : NodeId) : Clears id (refreshColumns i) (refreshColumns i) := by
  refine Clears.plan.bind fun g => (node_clears i).bind fun n => ?_
  have hrefresh : n.cleared.op.refresh (g.cleared.operatorInputs i) =
      (n.op.refresh (g.operatorInputs i)).map Operator.cleared := by
    rw [g.operatorInputs_cleared]
    exact n.op.refresh_cleared _
  rw [hrefresh]
  exact Clears.bind (.update i fun _ => rfl) fun _ => .settle_same _

end Edit

open Edit

/-! Special forms. -/

namespace Specialize

theorem reportSpecialized_clears (old new : NodeId) (moved : Nat) :
    Clears id (reportSpecialized old new moved) (reportSpecialized old new moved) := by
  refine (fetch_clears new).bind fun n => .report ?_
  rw [n.kind_cleared]
  rfl

theorem substitute_clears (old : NodeId) (op : Operator) (parents : List NodeId) :
    Clears id (substitute old op parents) (substitute old op.cleared parents) := by
  refine (node_clears old).bind fun n => (makeOrphan_clears old).bind fun _ => ?_
  refine (addNode_clears op n.output).bind fun new => ?_
  refine (setFlags_clears new none _).bind fun _ => ?_
  refine (Clears.forM (fun p => link_clears p new) parents).bind fun _ => ?_
  refine Clears.bind (.forM (fun i => ?_) n.children.toList) fun _ => ?_
  · exact (replaceParent_clears i old new).bind fun _ => refreshColumns_clears i
  · exact (refreshColumns_clears new).bind fun _ =>
      (reportSpecialized_clears old new _).bind fun _ => .pure rfl

theorem indexJoin_clears (i aligner : NodeId) : Clears id (indexJoin i aligner) (indexJoin i aligner) :=
  Clears.bind (.ask fun g => g.generalJoin_cleared i) fun join => (require_clears aligner).bind fun _ =>
    substitute_clears i (.indexJoin join.keys aligner) [join.left, join.right, aligner]

theorem indexAggregate_clears (i eqFlags sortedKeys : NodeId) :
    Clears id (indexAggregate i eqFlags sortedKeys) (indexAggregate i eqFlags sortedKeys) :=
  Clears.bind (.ask fun g => g.generalAggregation_cleared i) fun agg =>
    (require_clears eqFlags).bind fun _ => (require_clears sortedKeys).bind fun _ =>
      substitute_clears i (.indexAggregate agg.spec eqFlags sortedKeys) [agg.input, eqFlags, sortedKeys]

theorem revealJoin_clears (i : NodeId) (side : Side) (recipient : Party) :
    Clears id (revealJoin i side recipient) (revealJoin i side recipient) :=
  Clears.bind (.ask fun g => g.generalJoin_cleared i) fun join => (node_clears _).bind fun shown =>
    substitute_clears i (.revealJoin join.keys ⟨side, shown.output, recipient⟩) [join.left, join.right]

end Specialize

/-! Requests for operators. -/

namespace Build

theorem outputOf_clears (i : NodeId) : Clears Relation.cleared (outputOf i) (outputOf i) :=
  (node_clears i).bind fun _ => .pure rfl

theorem attach_clears (inputs : List NodeId) (d : Derived) :
    Clears id (attach inputs d) (attach inputs d.cleared) :=
  (addNode_clears d.op d.output).bind fun i =>
    (Clears.forM (fun p => link_clears p i) inputs).bind fun _ => .pure rfl

theorem unary_clears (input : NodeId) {derive : Relation → Except Error Derived}
    (h : ∀ r : Relation, derive r.cleared = (derive r).map Derived.cleared) :
    Clears id (unary input derive) (unary input derive) :=
  (outputOf_clears input).bind fun r => (Clears.settle (h r)).bind fun d => attach_clears [input] d

theorem create_clears (name : String) (columns : List ColumnSpec) (s : PartySet) :
    Clears id (create name columns s) (create name (columns.map ColumnSpec.cleared) s) :=
  (Clears.settle (Derive.create_cleared name columns s)).bind fun d =>
    (addNode_clears d.op d.output).bind fun i => (addRoot_clears i).bind fun _ => .pure rfl

theorem aggregate_clears (input : NodeId) (name : String) (groupBy : List String) (folded : String)
    (aggregator : Aggregator) (result : String) :
    Clears id (aggregate input name groupBy folded aggregator result)
      (aggregate input name groupBy folded aggregator result) :=
  unary_clears input fun r => Derive.aggregate_cleared r name groupBy folded aggregator result

theorem join_clears (left right : NodeId) (name : String) (leftKeys rightKeys : List String) :
    Clears id (join left right name leftKeys rightKeys) (join left right name leftKeys rightKeys) := by
  refine .ite (.refuse _) ?_
  exact (outputOf_clears left).bind fun l => (outputOf_clears right).bind fun r =>
    (Clears.settle (Derive.join_cleared l name r leftKeys rightKeys)).bind fun d =>
      attach_clears [left, right] d

theorem concat_clears (inputs : List NodeId) (name : String) (names : Option (List String)) :
    Clears id (concat inputs name names) (concat inputs name names) := by
  refine .ite (.refuse _) (.ite (.refuse _) ?_)
  exact (Clears.mapM outputOf_clears inputs).bind fun rels =>
    (Clears.settle (Derive.concat_cleared name rels names)).bind fun d => attach_clears inputs d

end Build

def Builder.cleared : Builder → Builder
  | create name columns holders => create name (columns.map ColumnSpec.cleared) holders
  | b => b

/-- No request asks whom a column is trusted to. -/
theorem Builder.run_clears (b : Builder) : Clears id b.run b.cleared.run := by
  have passed : ∀ (input : NodeId) {derive : Relation → Derived},
      (∀ r : Relation, derive r.cleared = (derive r).cleared) →
      Clears id (Build.unary input fun r => .ok (derive r)) (Build.unary input fun r => .ok (derive r)) :=
    fun input _ h => Build.unary_clears input fun r => congrArg Except.ok (h r)
  cases b with
  | create name columns holders => exact Build.create_clears name columns holders
  | aggregate input name groupBy folded aggregator result =>
    exact Build.aggregate_clears input name groupBy folded aggregator result
  | indexAggregate input name groupBy folded aggregator result eqFlags sortedKeys =>
    exact (require_clears eqFlags).bind fun _ => (require_clears sortedKeys).bind fun _ =>
      (Build.aggregate_clears input name groupBy folded aggregator result).bind fun i =>
        Specialize.indexAggregate_clears i eqFlags sortedKeys
  | sortBy => exact Build.unary_clears _ fun r => Derive.sortBy_cleared ..
  | project => exact Build.unary_clears _ fun r => Derive.project_cleared ..
  | distinct => exact Build.unary_clears _ fun r => Derive.distinct_cleared ..
  | multiply => exact Build.unary_clears _ fun r => Derive.arithmetic_cleared r _ (fun _ => rfl) ..
  | divide => exact Build.unary_clears _ fun r => Derive.arithmetic_cleared r _ (fun _ => rfl) ..
  | filter => exact Build.unary_clears _ fun r => Derive.filter_cleared ..
  | join left right name leftKeys rightKeys =>
    exact Build.join_clears left right name leftKeys rightKeys
  | indexJoin left right name leftKeys rightKeys aligner =>
    exact (require_clears aligner).bind fun _ =>
      (Build.join_clears left right name leftKeys rightKeys).bind fun i =>
        Specialize.indexJoin_clears i aligner
  | concat inputs name names => exact Build.concat_clears inputs name names
  | index => exact Build.unary_clears _ fun r => Derive.index_cleared ..
  | compareNeighbours => exact Build.unary_clears _ fun r => Derive.compareNeighbours_cleared ..
  | shuffle | persist | store => exact passed _ fun r => Derive.pass_cleared r _ rfl
  | closing | opening | send => exact passed _ fun r => Derive.passTo_cleared r _ rfl _

/-! The optimizing pass. -/

namespace Optimize

theorem markNode_clears (i : NodeId) : Clears id (markNode i) (markNode i) := by
  refine (fetch_clears i).bind fun n => .ite (.pure rfl) ?_
  refine Clears.bind (.ask_same fun g => g.requiresMpc_cleared i) fun needed => .ite ?_ (.pure rfl)
  exact (setFlags_clears i none (some true)).bind fun _ => .pure rfl

theorem markAll_clears (ids : List NodeId) : Clears id (markAll ids) (markAll ids) := by
  induction ids with
  | nil => exact .pure rfl
  | cons i ids ih => exact (markNode_clears i).bind fun first => ih.bind fun rest => .pure rfl

theorem markMpc_clears : Clears id markMpc markMpc :=
  Clears.bind (.ask_same fun g => g.topSort_cleared true) fun order => (markAll_clears order).bind fun _ =>
    (Clears.report rfl).bind fun _ => .pure rfl

theorem verify_clears (cfg : Config) : Clears id (verify cfg) (verify cfg) :=
  .ite (.ask_same fun g => g.validate_cleared) (.pure rfl)

variable {cfg : Config}

theorem tryReveal_clears (i : NodeId) : Clears id (tryReveal cfg i) (tryReveal cfg i) := by
  refine .ite (.pure rfl) (Clears.bind (.ask_same fun g => g.revealCandidate_cleared i) fun found => ?_)
  rcases found with _ | ⟨side, party⟩
  · exact .pure rfl
  · exact (Specialize.revealJoin_clears i side party).bind fun new => (verify_clears cfg).bind fun _ =>
      .pure rfl

theorem warnOf_clears (i : NodeId) : Clears id (warnOf i) (warnOf i) := by
  refine Clears.bind (.ask_same fun g => g.requiresMpc_cleared i) fun needed => .ite ?_ (.pure rfl)
  exact (fetch_clears i).bind fun n => .report rfl

variable (hcfg : cfg.hybridJoins = false)
include hcfg

theorem tryHybrid_clears (i : NodeId) : Clears id (tryHybrid cfg i) (tryHybrid cfg i) := by
  have hnone : tryHybrid cfg i = pure none := by
    rw [tryHybrid, hcfg]
    rfl
  rw [hnone]
  exact .pure rfl

theorem choose_clears (i : NodeId) : Clears id (choose cfg i) (choose cfg i) := by
  refine (fetch_clears i).bind fun n => ?_
  rw [n.kind_cleared]
  refine .ite (.pure rfl) ((tryHybrid_clears hcfg i).bind fun hybrid => ?_)
  cases hybrid with
  | some new => exact .pure rfl
  | none =>
    refine (tryReveal_clears i).bind fun revealed => ?_
    cases revealed with
    | some new => exact .pure rfl
    | none => exact (warnOf_clears i).bind fun _ => .pure rfl

theorem chooseAll_clears (ids : List NodeId) (r : OptimizeReport) :
    Clears id (chooseAll cfg ids r) (chooseAll cfg ids r) := by
  induction ids generalizing r with
  | nil => exact .pure rfl
  | cons i ids ih => exact (choose_clears hcfg i).bind fun choice => ih _

theorem run_clears : Clears id (run cfg) (run cfg) := by
  refine (Clears.settle_same cfg.check).bind fun _ => ?_
  refine Clears.bind (.ask_same fun g => g.topSort_cleared cfg.deterministic) fun order => ?_
  refine (chooseAll_clears hcfg order {}).bind fun r => markMpc_clears.bind fun marked => ?_
  exact (Clears.report rfl).bind fun _ => .pure rfl

end Optimize

/-! Plans that calls put together are fit for the optimizing pass. -/

/-- The columns a node refers to stand where it reads them, and it shows no input as a whole. -/
structure Node.Refers (f : NodeId → Option Relation) (n : Node) : Prop where
  current : n.op.Current (n.inputs.read f)
  kind : n.op.kind ≠ .revealJoin

theorem Node.Refers.of_agrees {f f' : NodeId → Option Relation} {n : Node} (h : n.Refers f)
    (hf : ∀ p ∈ n.inputs.ids, Relation.Agrees (f' p) (f p)) : n.Refers f' :=
  ⟨h.current.of_within (n.inputs.read_within hf), h.kind⟩

namespace Plan

variable {g h : Plan} {b : Builder} {v : Derived} {id : NodeId}

def Refers (g : Plan) : Prop := ∀ i n, g.get? i = some n → n.Refers g.output?

theorem Refers.received (hg : g.Refers) (hl : g.Linked) (hv : b.derive g.relationOf = .ok v)
    (hr : g.Receives b v id h) : h.Refers := by
  obtain ⟨rels, hrels, hy⟩ := Builder.yields_of_deriveFrom (Builder.derive_eq_ok.mp hv).2
  have hprod := Edit.produce_of_relations hrels
  refine hr.forall_nodes (J := fun f _ n => n.Refers f) hl ?_ ?_ hg (fun i _ _ => ?_) ?_
  · exact fun _ _ _ c hn => ⟨hn.current, hn.kind⟩
  · exact fun f f' i n hf hn => hn.of_agrees fun p hp r hr => ⟨r, hf p hp ▸ hr, rfl⟩
  · refine ⟨?_, ?_⟩
    · show v.op.Current ((Inputs.vacant v.op.arity).read h.output?)
      rw [Inputs.read_vacant]
      exact v.op.current_of_none
    · show v.op.kind ≠ .revealJoin
      rw [hy.kind]
      exact b.kind_ne_revealJoin
  · refine ⟨?_, Builder.kind_form_ne_revealJoin hy.kind⟩
    rw [hy.read_nodeAt (hr.produce hprod)]
    exact Builder.current_form (hy.current fun r hm => hprod.wellFormed hl hm)

theorem Refers.heldBy (hg : g.Refers) (id : NodeId) (s : PartySet) :
    (g.update id (.heldBy s)).Refers := by
  have hschema : ∀ (r : Relation) s, (r.heldBy s).schema = r.schema := fun _ _ => rfl
  refine forall_nodes_heldBy (J := fun f _ n => n.Refers f) hschema ?_ ?_ hg id s
  · intro f f' i n hf hn
    refine hn.of_agrees fun p hp r hr => ?_
    have hview := hf p hp
    rw [hr, Option.map_some] at hview
    exact Option.map_eq_some_iff.mp hview.symm
  · exact fun f i n s hn => ⟨hn.current, hn.kind⟩

end Plan

theorem Call.Composes.grows {c : Call} (hc : c.Composes) (d : Draft) : c.Grows d := by
  cases c with
  | build b => trivial
  | collect id party => trivial
  | _ => exact hc.elim

theorem Reached.settled {d : Draft} (h : Reached (fun _ => Call.Composes) d) : d.plan.Settled := by
  have hkept : d.plan.Linked ∧ d.plan.Valid ∧ d.plan.Refers := by
    refine h.always (I := fun g => g.Linked ∧ g.Valid ∧ g.Refers) ⟨.empty, .empty, ?_⟩ ?_
    · intro i n hn
      simp at hn
    · rintro d c hc ⟨hl, hv, hg⟩
      refine ⟨(Call.linked c).after hl, Call.valid_after (hc.grows d) hl hv, ?_⟩
      exact Call.composed_after hc hl hg (fun b v id h _ hv hr => hg.received hl hv hr) hg.heldBy
  obtain ⟨hl, hv, hg⟩ := hkept
  refine ⟨fun i n hn => (hl.nodes i n hn).id, hv, fun i n hn => ?_, Plan.acyclic_of_lt h.laid.forward⟩
  rw [Plan.operatorInputs_eq hn]
  exact Operator.refresh_eq_self (hg i n hn).kind (hg i n hn).current

/-! Runs that differ in the trust they declare. -/

namespace Call

def cleared : Call → Call
  | build b => build b.cleared
  | c => c

/-- What a call answers: the number of the node it adds, if it asks for one, or why it is refused. -/
def answer (c : Call) (d : Draft) : Except Error (Option NodeId) :=
  match c with
  | build b => (b.run.apply d).1.map some
  | c => (c.run.apply d).1.map fun _ => none

def answers : List Call → Draft → List (Except Error (Option NodeId))
  | [], _ => []
  | c :: cs, d => c.answer d :: answers cs (c.after d)

variable {c : Call} {cs : List Call}

theorem composes_cleared : c.cleared.Composes ↔ c.Composes := by cases c <;> rfl

theorem after_cleared (hc : c.Composes) (d : Draft) : c.cleared.after d.cleared = (c.after d).cleared := by
  have hrun : Clears id c.run c.cleared.run := by
    cases c with
    | build b => exact b.run_clears.bind fun _ => .pure rfl
    | collect i party => exact setHolders_clears i (.singleton party)
    | _ => exact hc.elim
  exact congrArg Prod.snd (hrun d)

theorem answer_cleared (hc : c.Composes) (d : Draft) : c.cleared.answer d.cleared = c.answer d := by
  cases c with
  | build b =>
    have hrun := congrArg Prod.fst (b.run_clears d)
    rw [Except.map_id] at hrun
    exact congrArg (Except.map some) hrun
  | collect i party =>
    have hrun := congrArg Prod.fst (setHolders_clears i (.singleton party) d)
    rw [Except.map_id] at hrun
    exact congrArg (Except.map fun _ => none) hrun
  | _ => exact hc.elim

theorem run_cleared (hcs : ∀ c ∈ cs, c.Composes) (d : Draft) :
    answers (cs.map cleared) d.cleared = answers cs d ∧
      afterAll (cs.map cleared) d.cleared = (afterAll cs d).cleared := by
  induction cs generalizing d with
  | nil => exact ⟨rfl, rfl⟩
  | cons c cs ih =>
    have hc : c.Composes := hcs c (by simp)
    obtain ⟨hanswers, hafter⟩ := ih (fun b hb => hcs b (by simp [hb])) (c.after d)
    rw [← after_cleared hc] at hanswers hafter
    refine ⟨?_, hafter⟩
    rw [List.map_cons, answers, answers, answer_cleared hc, hanswers]

end Call

/-- Drafts that differ at most in whom columns are trusted to: with that taken away they are the same, and
sorting and listing the plans comes to the same without. -/
structure Draft.SameButTrust (d d' : Draft) : Prop where
  cleared : d'.cleared = d.cleared
  order : ∀ byName, d'.plan.topSort byName = d.plan.topSort byName
  code : ∀ showIds job byName,
    ((Listing.backend showIds).generate d'.plan job byName).1.map Job.code =
      ((Listing.backend showIds).generate d.plan job byName).1.map Job.code

theorem Draft.sameButTrust {d d' : Draft} (h : d'.cleared = d.cleared) : d.SameButTrust d' := by
  have hplan : d'.plan.cleared = d.plan.cleared := congrArg Draft.plan h
  refine ⟨h, fun byName => ?_, fun showIds job byName => ?_⟩
  · rw [← d'.plan.topSort_cleared, hplan, d.plan.topSort_cleared]
  · rw [← d'.plan.code_cleared, hplan, d.plan.code_cleared]

/-- Two runs of requests and deliveries that differ only in the trust declared with their sources get the
same answers call by call and lead to drafts that differ at most in trust. The optimizing pass, with
valid settings that leave out hybrid joins, then gives the same report on both, and again they differ at
most in trust. -/
theorem trust_is_advisory (cs cs' : List Call) (hcs : ∀ c ∈ cs, c.Composes)
    (hsame : cs'.map Call.cleared = cs.map Call.cleared) :
    let d := Call.afterAll cs ⟨∅, []⟩
    let d' := Call.afterAll cs' ⟨∅, []⟩
    Call.answers cs' ⟨∅, []⟩ = Call.answers cs ⟨∅, []⟩ ∧ d.SameButTrust d' ∧
      ∀ cfg : Config, cfg.check = .ok () → cfg.hybridJoins = false →
        ∃ r h h', (Optimize.run cfg).apply d = (.ok r, h) ∧ (Optimize.run cfg).apply d' = (.ok r, h') ∧
          h.SameButTrust h' := by
  intro d d'
  have hcs' : ∀ c ∈ cs', c.Composes := by
    intro c hc
    have hmem : c.cleared ∈ cs.map Call.cleared := hsame ▸ List.mem_map_of_mem hc
    obtain ⟨b, hb, he⟩ := List.mem_map.mp hmem
    exact Call.composes_cleared.mp (he ▸ Call.composes_cleared.mpr (hcs b hb))
  -- each run is compared with the one in which no trust is declared, which is the same for both
  obtain ⟨hanswers, hafter⟩ := Call.run_cleared hcs ⟨∅, []⟩
  obtain ⟨hanswers', hafter'⟩ := Call.run_cleared hcs' ⟨∅, []⟩
  rw [hsame] at hanswers' hafter'
  have hcleared : d'.cleared = d.cleared := hafter'.symm.trans hafter
  refine ⟨hanswers'.symm.trans hanswers, Draft.sameButTrust hcleared, fun cfg hcfg hoff => ?_⟩
  have hreached : Reached (fun _ => Call.Composes) d :=
    Reached.start.afterAll (Call.allAllowed_of_forall hcs _)
  obtain ⟨r, h, hrun, _⟩ := (Optimize.run_decided hreached.settled hcfg).succeeds rfl
  obtain ⟨hreport, hplan⟩ := (Optimize.run_clears hoff).alike hcleared
  rw [hrun] at hreport hplan
  exact ⟨r, h, ((Optimize.run cfg).apply d').2, hrun, Prod.ext hreport rfl, Draft.sameButTrust hplan⟩

/-- Data of two parties whose keys some parties are trusted with, joined for one of them. One of the
requests is refused. -/
def advised (trusted : PartySet) : List Call :=
  [.build (.create "l" [⟨"k", .integer, trusted⟩, ⟨"v", .float, trusted⟩] (.singleton 1)),
    .build (.create "r" [⟨"k", .integer, trusted⟩] (.singleton 2)),
    .build (.join 0 1 "j" ["k"] ["k"]), .build (.concat [1, 1] "twice" none), .collect 2 1,
    .build (.multiply 2 "scaled" "v" [.column "v", .int 2])]

/-- The trust that is declared shows in the plan, and decides on the form of the join where hybrid joins
are allowed; else it changes nothing. -/
theorem advised_is_advisory :
    let cs := advised (.singleton 3)
    let d := Call.afterAll cs ⟨∅, []⟩
    let d' := Call.afterAll (advised ∅) ⟨∅, []⟩
    let cfg : Config := { hybridJoins := false }
    let r : OptimizeReport := { revealJoins := [4] }
    (d ≠ d' ∧ ((Optimize.run {}).apply d).1 ≠ ((Optimize.run {}).apply d').1) ∧
      ((∀ c ∈ cs, c.Composes) ∧ (advised ∅).map Call.cleared = cs.map Call.cleared) ∧
      Call.answers cs ⟨∅, []⟩ = [.ok (some 0), .ok (some 1), .ok (some 2),
        .error (.argument (.repeatedInput "twice")), .ok none, .ok (some 3)] ∧
      Call.answers (advised ∅) ⟨∅, []⟩ = Call.answers cs ⟨∅, []⟩ ∧ d.SameButTrust d' ∧
      ∃ h h', (Optimize.run cfg).apply d = (.ok r, h) ∧ (Optimize.run cfg).apply d' = (.ok r, h') ∧
        h.SameButTrust h' := by
  intro cs d d' cfg r
  have hcs : ∀ c ∈ cs, c.Composes := by simp [cs, advised, Call.Composes]
  obtain ⟨hanswers, hplans, hpass⟩ := trust_is_advisory cs (advised ∅) hcs rfl
  obtain ⟨r', h, h', hrun, hrun', halike⟩ := hpass cfg (by decide) rfl
  have hreport : ((Optimize.run cfg).apply d).1 = .ok r := by decide +kernel
  have hr : r' = r := by
    rw [hrun] at hreport
    exact Except.ok.inj hreport
  subst hr
  exact ⟨⟨by decide +kernel, by decide +kernel⟩, ⟨hcs, rfl⟩, by decide +kernel, hanswers, hplans, h, h',
    hrun, hrun', halike⟩

end PartyPlan
