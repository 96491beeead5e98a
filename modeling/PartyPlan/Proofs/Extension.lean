import PartyPlan.Proofs.Request

/-! Adding an operator extends a plan or leaves it alone. Whatever can be wrong with a request is found
before the plan is touched. What is added stands at the end of the table, and the nodes that were there
before only learn of a new child. -/
namespace PartyPlan

/-- A refusal for the arguments of a request: one of its inputs is not there, or names and lists do not
go with the columns of those that are. -/
def Error.OfArguments (g : Plan) (inputs : List NodeId) (e : Error) : Prop :=
  (∃ p ∈ inputs, ¬ p < g.size ∧ e = .unknownNode p) ∨ e.OfColumns (inputs.filterMap g.output?)

namespace Error.OfArguments

variable {g : Plan} {ps qs : List NodeId} {e : Error}

theorem unknown {p : NodeId} (hp : p ∈ ps) (hlt : ¬ p < g.size) :
    (Error.unknownNode p).OfArguments g ps := .inl ⟨p, hp, hlt, rfl⟩

theorem mono (h : e.OfArguments g ps) (hsub : ∀ p ∈ ps, p ∈ qs) : e.OfArguments g qs := by
  rcases h with ⟨p, hp, hlt, rfl⟩ | h
  · exact unknown (hsub p hp) hlt
  · refine .inr (h.mono fun r hr => ?_)
    obtain ⟨p, hp, hout⟩ := List.mem_filterMap.mp hr
    exact List.mem_filterMap.mpr ⟨p, hsub p hp, hout⟩

/-- No such refusal is an index that went astray. -/
theorem ne_outOfRange (h : e.OfArguments g ps) (size index : Nat) : e ≠ .outOfRange size index := by
  rcases h with ⟨p, _, _, rfl⟩ | h
  · nofun
  · cases h <;> nofun

end Error.OfArguments

namespace Builder
open Edit

variable {g : Plan} {b : Builder} {e : Error}

theorem fault_of_unary (hg : g.Linked) {input : NodeId} {f : Relation → Except Error Derived}
    (hreads : b.reads = [input]) (h : (g.relationOf input >>= f) = .error e)
    (hf : ∀ r, r.WellFormed → f r = .error e → e.OfColumns [r]) : e.OfArguments g b.reads := by
  rw [hreads]
  rcases except_bind_eq_error.mp h with h | ⟨r, hr, h⟩
  · obtain ⟨hlt, rfl⟩ := Plan.relationOf_eq_error.mp h
    exact .unknown (by simp) hlt
  · have hprod : Produce [input] [r] g := produce_of_relations (.cons hr .nil)
    exact .inr (hprod.filterMap_eq ▸ hf r (hprod.wellFormed hg (by simp)) h)

theorem fault_of_join {left right : NodeId} {name : String} {leftKeys rightKeys : List String}
    (h : (Builder.join left right name leftKeys rightKeys).deriveFrom g.relationOf = .error e) :
    e.OfArguments g [left, right] := by
  rw [deriveFrom] at h
  split at h
  · cases h
    exact .inr (.argument _)
  rcases except_bind_eq_error.mp h with h | ⟨l, hl, h⟩
  · obtain ⟨hlt, rfl⟩ := Plan.relationOf_eq_error.mp h
    exact .unknown (by simp) hlt
  rcases except_bind_eq_error.mp h with h | ⟨r, hr, h⟩
  · obtain ⟨hlt, rfl⟩ := Plan.relationOf_eq_error.mp h
    exact .unknown (by simp) hlt
  · have hprod : Produce [left, right] [l, r] g := produce_of_relations (.cons hl (.cons hr .nil))
    exact .inr (hprod.filterMap_eq ▸ Derive.join_fault h)

theorem fault_of_concat {inputs : List NodeId} {name : String} {names : Option (List String)}
    (h : (Builder.concat inputs name names).deriveFrom g.relationOf = .error e) :
    e.OfArguments g inputs := by
  rw [deriveFrom] at h
  split at h
  · cases h
    exact .inr (.argument _)
  split at h
  · cases h
    exact .inr (.argument _)
  rcases except_bind_eq_error.mp h with h | ⟨rels, _, h⟩
  · obtain ⟨p, hp, he⟩ := exists_of_mapM_eq_error h
    obtain ⟨hlt, rfl⟩ := Plan.relationOf_eq_error.mp he
    exact .unknown hp hlt
  · exact .inr (Derive.concat_fault h)

/-- A request that finds no operator was given the wrong arguments. -/
theorem deriveFrom_fault (hg : g.Linked) (h : b.deriveFrom g.relationOf = .error e) :
    e.OfArguments g b.reads := by
  cases b with
  | create => exact .inr (Derive.create_fault h)
  | aggregate | indexAggregate => exact fault_of_unary hg rfl h fun r _ => Derive.aggregate_fault
  | sortBy =>
    exact fault_of_unary hg rfl h fun r _ => Derive.fault_of_bind fun _ => Derive.find_fault (by simp)
  | project =>
    exact fault_of_unary hg rfl h fun r _ => Derive.fault_of_bind fun _ => Derive.findAll_fault (by simp)
  | distinct =>
    exact fault_of_unary hg rfl h fun r _ => Derive.fault_of_bind fun _ => Derive.findAll_fault (by simp)
  | multiply | divide => exact fault_of_unary hg rfl h fun r hr => Derive.arithmetic_fault hr
  | filter => exact fault_of_unary hg rfl h fun r => Derive.filter_fault
  | join | indexJoin => exact fault_of_join h
  | concat => exact fault_of_concat h
  | index => exact fault_of_unary hg rfl h fun r _ => Derive.index_fault
  | compareNeighbours =>
    exact fault_of_unary hg rfl h fun r _ => Derive.fault_of_bind fun _ => Derive.find_fault (by simp)
  | shuffle | persist | store | closing | opening | send => exact fault_of_unary hg rfl h nofun

theorem derive_fault (hg : g.Linked) (h : b.derive g.relationOf = .error e) :
    e.OfArguments g b.inputs := by
  rw [b.inputs_eq]
  rcases derive_eq_error h with ⟨p, hp, he⟩ | h
  · obtain ⟨hlt, rfl⟩ := Plan.relationOf_eq_error.mp he
    exact .unknown (List.mem_append_right _ hp) hlt
  · exact (deriveFrom_fault hg h).mono fun p hp => List.mem_append_left _ hp

end Builder

namespace Build
open Edit

variable {g : Plan}

/-- Every request for an operator extends the plan, or is refused for its arguments and changes
nothing. -/
theorem run_grows (hg : g.Linked) (b : Builder) : Meets (· = g) b.run (g.Grown b.inputs b.added)
    fun e h => h = g ∧ e.OfArguments g b.inputs :=
  (Builder.run_receives hg b).mono (fun _ hh => hh) (fun _ _ ⟨_, _, hh⟩ => hh.toGrown)
    fun _ _ hh => ⟨hh.1, Builder.derive_fault hg hh.2⟩

theorem collect_meets (id : NodeId) (party : Party) : Meets (· = g) (collect id party)
    (fun _ h => id < g.size ∧ h = g.update id (.heldBy (.singleton party)))
    fun e h => h = g ∧ ¬ id < g.size ∧ e = .unknownNode id := by
  refine Meets.setHolders ?_ ?_
  · rintro h rfl hlt
    exact ⟨hlt, rfl⟩
  · rintro h rfl hlt
    exact ⟨rfl, hlt, rfl⟩

end Build

/-- On a plan that any run of calls led to, a request for an operator has one of two ends. Either it is
refused for its arguments, and the plan stays as it is; or the operator stands at the end of the plan
below its inputs, after the general form it was made from if it is a special one, and else only its
inputs have changed, which know it as a child. Delivering an output is refused only where there is no
such node, and changes only the holders of that output. -/
theorem request_extends_or_refused (d : Draft) (h : Reached (fun _ _ => True) d) :
    (∀ b : Builder,
      (∃ e d', b.run.apply d = (.error e, d') ∧ d'.plan = d.plan ∧ e.OfArguments d.plan b.inputs ∧
        ∀ size index, e ≠ .outOfRange size index) ∨
      ∃ id d', b.run.apply d = (.ok id, d') ∧ d.plan.Grown b.inputs b.added id d'.plan) ∧
    ∀ id party,
      (∃ d', (Build.collect id party).apply d = (.error (.unknownNode id), d') ∧ d'.plan = d.plan ∧
        ¬ id < d.plan.size) ∨
      ∃ d', (Build.collect id party).apply d = (.ok (), d') ∧ id < d.plan.size ∧
        d'.plan = d.plan.update id (.heldBy (.singleton party)) := by
  constructor
  · intro b
    rcases (Build.run_grows h.linked b).outcome rfl with ⟨e, d', hrun, hsame, hargs⟩ | hgrown
    · exact .inl ⟨e, d', hrun, hsame, hargs, hargs.ne_outOfRange⟩
    · exact .inr hgrown
  · intro id party
    rcases (Build.collect_meets id party).outcome rfl with ⟨e, d', hrun, hsame, hlt, rfl⟩ | ⟨_, hset⟩
    · exact .inl ⟨d', hrun, hsame, hlt⟩
    · exact .inr hset

def looped : List Call :=
  [.build (.create "l" [⟨"k", .integer, ∅⟩] (.singleton 1)),
    .build (.create "r" [⟨"k", .integer, ∅⟩] (.singleton 2)), .build (.index 0 "rows" "row"), .link 2 2]

theorem looped_extends_or_refuses :
    let d := Call.afterAll looped ⟨∅, []⟩
    let join : Builder := .indexJoin 0 1 "pairs" ["k"] ["k"] 2
    let filter : Builder := .filter 2 "kept" "gone" .lt "1"
    (d.plan.size = 3 ∧ d.plan.hasEdge 2 2 = true) ∧
      ((join.run.apply d).1 = .ok 4 ∧ d.plan.Grown [0, 1, 2] 2 4 (join.run.apply d).2.plan) ∧
      (filter.run.apply d).1 = .error (.columnNotFound "rows" "gone") ∧
      (filter.run.apply d).2.plan = d.plan := by
  intro d join filter
  have hd : Reached (fun _ _ => True) d := Reached.start.afterAll (by simp [looped, Call.AllAllowed])
  have hjoin : (join.run.apply d).1 = .ok 4 := by decide +kernel
  have hfilter : (filter.run.apply d).1 = .error (.columnNotFound "rows" "gone") := by decide +kernel
  obtain ⟨hbuild, _⟩ := request_extends_or_refused d hd
  refine ⟨by decide +kernel, ⟨hjoin, ?_⟩, hfilter, ?_⟩
  · rcases hbuild join with ⟨e, d', hrun, _⟩ | ⟨id, d', hrun, hgrown⟩
    · rw [hrun] at hjoin
      cases hjoin
    · rw [hrun] at hjoin ⊢
      cases hjoin
      exact hgrown
  · rcases hbuild filter with ⟨e, d', hrun, hsame, _⟩ | ⟨id, d', hrun, _⟩
    · rw [hrun]
      exact hsame
    · rw [hrun] at hfilter
      cases hfilter

end PartyPlan
