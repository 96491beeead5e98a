import PartyPlan.Build.Basic
import PartyPlan.Optimize
import PartyPlan.Proofs.Derivation
import PartyPlan.Splice

/-! The calls a plan is worked on with, and the drafts that runs of calls lead to. -/
namespace PartyPlan

inductive Builder where
  | create (name : String) (columns : List ColumnSpec) (holders : PartySet)
  | aggregate (input : NodeId) (name : String) (groupBy : List String) (folded : String)
      (aggregator : Aggregator) (result : String)
  | indexAggregate (input : NodeId) (name : String) (groupBy : List String) (folded : String)
      (aggregator : Aggregator) (result : String) (eqFlags sortedKeys : NodeId)
  | sortBy (input : NodeId) (name column : String)
  | project (input : NodeId) (name : String) (columns : List String)
  | distinct (input : NodeId) (name : String) (columns : List String)
  | multiply (input : NodeId) (name target : String) (operands : List OperandSpec)
  | divide (input : NodeId) (name target : String) (operands : List OperandSpec)
  | filter (input : NodeId) (name column : String) (comparison : Comparison) (expression : String)
  | join (left right : NodeId) (name : String) (leftKeys rightKeys : List String)
  | indexJoin (left right : NodeId) (name : String) (leftKeys rightKeys : List String)
      (aligner : NodeId)
  | concat (inputs : List NodeId) (name : String) (names : Option (List String))
  | index (input : NodeId) (name column : String)
  | compareNeighbours (input : NodeId) (name column : String)
  | shuffle (input : NodeId) (name : String)
  | persist (input : NodeId) (name : String)
  | store (input : NodeId) (name : String)
  | closing (input : NodeId) (name : String) (parties : PartySet)
  | opening (input : NodeId) (name : String) (party : Party)
  | send (input : NodeId) (name : String) (parties : PartySet)

def Builder.run : Builder → Edit NodeId
  | create name columns holders => Build.create name columns holders
  | aggregate input name groupBy folded aggregator result =>
    Build.aggregate input name groupBy folded aggregator result
  | indexAggregate input name groupBy folded aggregator result eqFlags sortedKeys =>
    Build.indexAggregate input name groupBy folded aggregator result eqFlags sortedKeys
  | sortBy input name column => Build.sortBy input name column
  | project input name columns => Build.project input name columns
  | distinct input name columns => Build.distinct input name columns
  | multiply input name target operands => Build.multiply input name target operands
  | divide input name target operands => Build.divide input name target operands
  | filter input name column comparison expression =>
    Build.filter input name column comparison expression
  | join left right name leftKeys rightKeys => Build.join left right name leftKeys rightKeys
  | indexJoin left right name leftKeys rightKeys aligner =>
    Build.indexJoin left right name leftKeys rightKeys aligner
  | concat inputs name names => Build.concat inputs name names
  | index input name column => Build.index input name column
  | compareNeighbours input name column => Build.compareNeighbours input name column
  | shuffle input name => Build.shuffle input name
  | persist input name => Build.persist input name
  | store input name => Build.store input name
  | closing input name parties => Build.closing input name parties
  | opening input name party => Build.opening input name party
  | send input name parties => Build.send input name parties

/-- The nodes a new operator stands below, helpers included. -/
def Builder.inputs : Builder → List NodeId
  | create .. => []
  | indexAggregate input _ _ _ _ _ eqFlags sortedKeys => [input, eqFlags, sortedKeys]
  | join left right .. => [left, right]
  | indexJoin left right _ _ _ aligner => [left, right, aligner]
  | concat inputs .. => inputs
  | aggregate input .. | sortBy input .. | project input .. | distinct input ..
  | multiply input .. | divide input .. | filter input .. | index input ..
  | compareNeighbours input .. | shuffle input .. | persist input .. | store input ..
  | closing input .. | opening input .. | send input .. => [input]

/-- The number of nodes a new operator takes. A special form is made from a general one, which stays
behind. -/
def Builder.added : Builder → Nat
  | indexAggregate .. | indexJoin .. => 2
  | _ => 1

/-- Most operators read one input and are added alike; what is particular to each is how its operator
and output are derived. These always fit the input. -/
theorem Builder.run_cases {S : Edit NodeId → Prop} (b : Builder)
    (create : ∀ name columns holders, S (Build.create name columns holders))
    (unary : ∀ input derive, (∀ r d, derive r = .ok d → d.Fits r) → S (Build.unary input derive))
    (indexAggregate : ∀ input name groupBy folded aggregator result eqFlags sortedKeys,
      S (Build.indexAggregate input name groupBy folded aggregator result eqFlags sortedKeys))
    (join : ∀ left right name leftKeys rightKeys, S (Build.join left right name leftKeys rightKeys))
    (indexJoin : ∀ left right name leftKeys rightKeys aligner,
      S (Build.indexJoin left right name leftKeys rightKeys aligner))
    (concat : ∀ inputs name names, S (Build.concat inputs name names)) : S b.run := by
  have pass : ∀ {op : Operator} input name, op.arity = .unary → op.kind ≠ .create →
      op.helpers = [] → (∀ inputs, op.Current inputs) →
      S (Build.unary input fun r => .ok (Derive.pass op r name)) :=
    fun input name ha hk hh hc => unary input _ fun r d h => by
      cases h
      exact Derive.pass_fits ha hk hh hc r name
  have passTo : ∀ {op : Operator} input name s, op.arity = .unary → op.kind ≠ .create →
      op.helpers = [] → (∀ inputs, op.Current inputs) →
      S (Build.unary input fun r => .ok (Derive.passTo op r name s)) :=
    fun input name s ha hk hh hc => unary input _ fun r d h => by
      cases h
      exact Derive.passTo_fits ha hk hh hc r name s
  cases b with
  | create name columns holders => exact create name columns holders
  | aggregate => exact unary _ _ fun _ _ => Derive.aggregate_fits
  | indexAggregate => exact indexAggregate ..
  | sortBy => exact unary _ _ fun _ _ => Derive.sortBy_fits
  | project => exact unary _ _ fun _ _ => Derive.project_fits
  | distinct => exact unary _ _ fun _ _ => Derive.distinct_fits
  | multiply => exact unary _ _ fun _ _ => Derive.multiply_fits
  | divide => exact unary _ _ fun _ _ => Derive.divide_fits
  | filter => exact unary _ _ fun _ _ => Derive.filter_fits
  | join => exact join ..
  | indexJoin => exact indexJoin ..
  | concat => exact concat ..
  | index => exact unary _ _ fun _ _ => Derive.index_fits
  | compareNeighbours => exact unary _ _ fun _ _ => Derive.compareNeighbours_fits
  | shuffle input name => exact pass input name rfl nofun rfl fun _ => trivial
  | persist input name => exact pass input name rfl nofun rfl fun _ => trivial
  | store input name => exact pass input name rfl nofun rfl fun _ => trivial
  | closing input name parties => exact passTo input name parties rfl nofun rfl fun _ => trivial
  | opening input name party =>
    exact passTo input name (.singleton party) rfl nofun rfl fun _ => trivial
  | send input name parties => exact passTo input name parties rfl nofun rfl fun _ => trivial

/-- A call on a plan. Relations enter a plan with their columns stamped. -/
inductive Call where
  | addNode (op : Operator) (name : String) (columns : List Column) (holders : PartySet)
  | addRoot (id : NodeId)
  | removeRoot (id : NodeId)
  | setFlags (id : NodeId) (isLocal isMpc : Option Bool)
  | link (p c : NodeId)
  | removeParent (c p : NodeId)
  | replaceParent (c old new : NodeId)
  | replaceChild (p old new : NodeId)
  | makeOrphan (id : NodeId)
  | isolate (id : NodeId)
  | setHolders (id : NodeId) (parties : PartySet)
  | refreshColumns (id : NodeId)
  | refreshHolders (id : NodeId)
  | refresh (id : NodeId)
  | build (b : Builder)
  | collect (id : NodeId) (party : Party)
  | removeBetween (parent : NodeId) (child : Option NodeId) (id : NodeId)
  | insertBetween (parent : NodeId) (child : Option NodeId) (id : NodeId)
  | insertBetweenChildren (parent id : NodeId)
  | indexJoin (id aligner : NodeId)
  | revealJoin (id : NodeId) (side : Side) (recipient : Party)
  | hybridJoin (id : NodeId) (trusted : Party)
  | indexAggregate (id eqFlags sortedKeys : NodeId)
  | markMpc
  | optimize (cfg : Config)

def Call.run : Call → Edit Unit
  | addNode op name columns holders => do let _ ← Edit.addNode op (.stamped name columns holders)
  | addRoot id => Edit.addRoot id
  | removeRoot id => do let _ ← Edit.removeRoot id
  | setFlags id isLocal isMpc => Edit.setFlags id isLocal isMpc
  | link p c => Edit.link p c
  | removeParent c p => Edit.removeParent c p
  | replaceParent c old new => Edit.replaceParent c old new
  | replaceChild p old new => Edit.replaceChild p old new
  | makeOrphan id => Edit.makeOrphan id
  | isolate id => Edit.isolate id
  | setHolders id parties => Edit.setHolders id parties
  | refreshColumns id => Edit.refreshColumns id
  | refreshHolders id => Edit.refreshHolders id
  | refresh id => Edit.refresh id
  | build b => do let _ ← b.run
  | collect id party => Build.collect id party
  | removeBetween parent child id => Splice.removeBetween parent child id
  | insertBetween parent child id => Splice.insertBetween parent child id
  | insertBetweenChildren parent id => Splice.insertBetweenChildren parent id
  | indexJoin id aligner => do let _ ← Specialize.indexJoin id aligner
  | revealJoin id side recipient => do let _ ← Specialize.revealJoin id side recipient
  | hybridJoin id trusted => do let _ ← Specialize.hybridJoin id trusted
  | indexAggregate id eqFlags sortedKeys => do
    let _ ← Specialize.indexAggregate id eqFlags sortedKeys
  | markMpc => do let _ ← Optimize.markMpc
  | optimize cfg => do let _ ← Optimize.run cfg

/-- The draft after a call, also when the call is refused. -/
def Call.after (c : Call) (d : Draft) : Draft := (c.run.apply d).2

def Call.Succeeds (c : Call) (d : Draft) : Prop := (c.run.apply d).1 = .ok ()

/-- The drafts that runs of allowed calls lead to, starting from the empty plan. -/
inductive Reached (Allowed : Draft → Call → Prop) : Draft → Prop where
  | start : Reached Allowed ⟨∅, []⟩
  | call {d : Draft} (c : Call) : Reached Allowed d → Allowed d c → Reached Allowed (c.after d)

def Call.afterAll (cs : List Call) (d : Draft) : Draft := cs.foldl (fun d c => c.after d) d

def Call.AllAllowed (Allowed : Draft → Call → Prop) : List Call → Draft → Prop
  | [], _ => True
  | c :: cs, d => Allowed d c ∧ AllAllowed Allowed cs (c.after d)

theorem Call.allAllowed_of_forall {Allowed : Call → Prop} {cs : List Call} (h : ∀ c ∈ cs, Allowed c)
    (d : Draft) : AllAllowed (fun _ => Allowed) cs d := by
  induction cs generalizing d with
  | nil => trivial
  | cons c cs ih => exact ⟨h c (by simp), ih (fun b hb => h b (by simp [hb])) _⟩

theorem Reached.afterAll {Allowed : Draft → Call → Prop} {cs : List Call} {d : Draft}
    (hd : Reached Allowed d) (h : Call.AllAllowed Allowed cs d) :
    Reached Allowed (Call.afterAll cs d) := by
  induction cs generalizing d with
  | nil => exact hd
  | cons c cs ih => exact ih (hd.call c h.1) h.2

theorem Reached.mono {Allowed Allowed' : Draft → Call → Prop} {d : Draft}
    (h : Reached Allowed d) (hsub : ∀ d c, Allowed d c → Allowed' d c) : Reached Allowed' d := by
  induction h with
  | start => exact .start
  | call c _ hc ih => exact ih.call c (hsub _ c hc)

/-- What holds of the empty plan and is kept by every allowed call holds all along. -/
theorem Reached.always {Allowed : Draft → Call → Prop} {I : Plan → Prop} (h₀ : I ∅)
    (h : ∀ d c, Allowed d c → I d.plan → I (c.after d).plan) {d : Draft}
    (hd : Reached Allowed d) : I d.plan := by
  induction hd with
  | start => exact h₀
  | call c _ ha ih => exact h _ c ha ih

/-- What an edit ends with in any case holds after it, whether or not it was refused. -/
theorem Edit.Meets.after_any {P S : Plan → Prop} {c : Call}
    (h : Meets P c.run (fun _ => S) fun _ => S) {d : Draft} (hd : P d.plan) :
    S (c.after d).plan := by
  have hx := h d hd
  unfold Call.after
  split at hx <;> rename_i he <;> rw [he] <;> exact hx

theorem Edit.Keeps.after {I : Plan → Prop} {c : Call} (h : Keeps I I c.run) {d : Draft}
    (hd : I d.plan) : I (c.after d).plan := Meets.after_any h hd

/-- What an edit that succeeds ends with holds after it. -/
theorem Edit.Meets.after_success {P : Plan → Prop} {Q : Unit → Plan → Prop} {R : Error → Plan → Prop}
    {c : Call} (h : Meets P c.run Q R) {d : Draft} (hd : P d.plan) (hs : c.Succeeds d) :
    Q () (c.after d).plan := by
  have hx := h d hd
  unfold Call.Succeeds at hs
  unfold Call.after
  split at hx
  · rename_i he
    rw [he]
    exact hx
  · rename_i he
    simp [he] at hs

end PartyPlan
