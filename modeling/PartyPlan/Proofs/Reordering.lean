import PartyPlan.Proofs.Binding
import PartyPlan.Proofs.Caching

/-! The order in which a workflow is written down. Steps refer to each other by name, so a workflow whose
steps are put in another order, and which still has a plan, has the same plan but for the numbers of its
nodes: each name stands for a node that does the same to the inputs of the same names. Nothing that goes
by names can tell the two plans apart. -/
namespace PartyPlan

namespace Step

variable {config : Config} {bound bound' : String → Option NodeId}
  {rel rel' : NodeId → Except Error Relation} {s : Step} {b b' : Builder} {v v' : Derived}

theorem mapM_bound {inputs : List String} {ids ids' : List NodeId} (h : inputs.map bound = ids.map some)
    (h' : inputs.map bound' = ids'.map some)
    (hrel : ∀ x p p', bound x = some p → bound' x = some p' → p ∈ ids → p' ∈ ids' → rel p = rel' p') :
    ids.mapM rel = ids'.mapM rel' := by
  induction inputs generalizing ids ids' with
  | nil =>
    obtain rfl : ids = [] := by simpa using h.symm
    obtain rfl : ids' = [] := by simpa using h'.symm
    rfl
  | cons x xs ih =>
    cases ids with
    | nil => cases h
    | cons p ps =>
      cases ids' with
      | nil => cases h'
      | cons p' ps' =>
        obtain ⟨hx, hxs⟩ := List.cons.inj h
        obtain ⟨hx', hxs'⟩ := List.cons.inj h'
        have hrest := ih hxs hxs' fun y q q' hq hq' hm hm' =>
          hrel y q q' hq hq' (by simp [hm]) (by simp [hm'])
        rw [List.mapM_cons, List.mapM_cons, hrel x p p' hx hx' (by simp) (by simp), hrest]

/-- What a step derives depends on the numbers of its inputs only by what these produce. -/
theorem derived_unique (hb : s.request config bound = some b) (hb' : s.request config bound' = some b')
    (hrel : ∀ x p p', bound x = some p → bound' x = some p' → p ∈ b.reads → p' ∈ b'.reads →
      rel p = rel' p')
    (hv : b.deriveFrom rel = .ok v) (hv' : b'.deriveFrom rel' = .ok v') : v = v' := by
  have hreads := (requests hb).reads
  have hreads' := (requests hb').reads
  cases s <;>
    simp only [request, bind, pure, Option.bind_eq_some_iff, Option.some.injEq, reduceCtorEq] at hb hb'
  case create =>
    obtain ⟨cs, hcs, rfl⟩ := hb
    obtain ⟨cs', hcs', rfl⟩ := hb'
    cases hcs.symm.trans hcs'
    exact Except.ok.inj (hv.symm.trans hv')
  case join =>
    obtain ⟨l, hl, r, hr, rfl⟩ := hb
    obtain ⟨l', hl', r', hr', rfl⟩ := hb'
    have hleft := hrel _ l l' hl hl' (by simp [Builder.reads]) (by simp [Builder.reads])
    have hright := hrel _ r r' hr hr' (by simp [Builder.reads]) (by simp [Builder.reads])
    rw [Builder.deriveFrom, hleft, hright] at hv
    exact Except.ok.inj (hv.symm.trans hv')
  case concat =>
    obtain ⟨ids, hids, rfl⟩ := hb
    obtain ⟨ids', hids', rfl⟩ := hb'
    have hsame : ids.mapM rel = ids'.mapM rel' := mapM_bound hreads hreads' hrel
    obtain ⟨_, _, rels, hrels, hv⟩ := Builder.concat_of_deriveFrom hv
    obtain ⟨_, _, rels', hrels', hv'⟩ := Builder.concat_of_deriveFrom hv'
    rw [hsame, hrels'] at hrels
    cases hrels
    exact Except.ok.inj (hv.symm.trans hv')
  case aggregate =>
    obtain ⟨f, hf, p, hp, rfl⟩ := hb
    obtain ⟨f', hf', p', hp', rfl⟩ := hb'
    cases hf.symm.trans hf'
    rw [Builder.deriveFrom, hrel _ p p' hp hp' (by simp [Builder.reads]) (by simp [Builder.reads])] at hv
    exact Except.ok.inj (hv.symm.trans hv')
  case filter =>
    obtain ⟨f, hf, p, hp, rfl⟩ := hb
    obtain ⟨f', hf', p', hp', rfl⟩ := hb'
    cases hf.symm.trans hf'
    rw [Builder.deriveFrom, hrel _ p p' hp hp' (by simp [Builder.reads]) (by simp [Builder.reads])] at hv
    exact Except.ok.inj (hv.symm.trans hv')
  all_goals
    obtain ⟨p, hp, rfl⟩ := hb
    obtain ⟨p', hp', rfl⟩ := hb'
    rw [Builder.deriveFrom, hrel _ p p' hp hp' (by simp [Builder.reads]) (by simp [Builder.reads])] at hv
    exact Except.ok.inj (hv.symm.trans hv')

end Step

theorem Listing.parameters_congr {n n' : Node} (hop : n'.op = n.op) (hout : n'.output = n.output) :
    parameters n' = parameters n := by
  simp only [parameters, detail, lastColumn, Node.kind, hop, hout]

namespace Assembly

/-- The node another plan has for the name of a node. -/
def renumbering (a a' : Assembly) (i : NodeId) : NodeId :=
  ((a.plan.name? i).bind a'.scope.find?).getD 0

section Names

variable {config : Config} {a a' : Assembly} {steps : List Step} {name x : String} {s : Step}
  {i i' p : NodeId} {n : Node}

theorem Follows.find?_eq_some (hf : a.Follows id config steps) :
    a.scope.find? name = some i ↔ ∃ s, (Step.bindings steps)[i]? = some (name, s) := by
  rw [hf.find?, Step.names, List.getElem?_map, Option.map_eq_some_iff]
  constructor
  · rintro ⟨⟨_, s⟩, hs, rfl⟩
    exact ⟨s, hs⟩
  · rintro ⟨s, hs⟩
    exact ⟨_, hs, rfl⟩

/-- A name stands for the node that produces the relation of this name. -/
theorem Follows.name?_eq_some (hf : a.Follows id config steps) :
    a.plan.name? i = some name ↔ a.scope.find? name = some i := by
  rw [hf.find?_eq_some, Plan.name?, Plan.output?, Option.map_map, Option.map_eq_some_iff]
  constructor
  · rintro ⟨n, hn, rfl⟩
    obtain ⟨x, s, hs, hmakes⟩ := hf.nodes i n hn
    obtain rfl := hmakes.name (fun _ _ => congrArg Relation.name) (Step.name?_of_binding hs)
    exact ⟨s, hs⟩
  · rintro ⟨s, hs⟩
    obtain ⟨n, hn, hmakes⟩ := hf.node_of_binding hs
    exact ⟨n, hn, hmakes.name (fun _ _ => congrArg Relation.name) (Step.name?_of_binding hs)⟩

theorem Follows.exists_name (hf : a.Follows id config steps) (hi : i < a.plan.size) :
    ∃ name, a.scope.find? name = some i := by
  obtain ⟨name, hname⟩ := Plan.lt_size_iff_name?.mp hi
  exact ⟨name, hf.name?_eq_some.mp hname⟩

theorem Follows.reaches_iff (hf : a.Follows id config steps) : a.plan.Reaches i ↔ i < a.plan.size :=
  ⟨hf.linked.inRange.reaches_lt, hf.covered i⟩

theorem Follows.reaches_of_name (hf : a.Follows id config steps) (hi : a.scope.find? name = some i) :
    a.plan.Reaches i :=
  hf.reaches_iff.mpr (Plan.lt_size_iff_name?.mpr ⟨name, hf.name?_eq_some.mpr hi⟩)

theorem Follows.renumbering_eq (hf : a.Follows id config steps) (hi : a.scope.find? name = some i)
    (hi' : a'.scope.find? name = some i') : a.renumbering a' i = i' := by
  rw [renumbering, hf.name?_eq_some.mpr hi, Option.bind_some, hi', Option.getD_some]

theorem Follows.namedApart (hf : a.Follows id config steps) : a.plan.NamedApart := by
  intro i j name _ _ hi hj
  exact Option.some.inj ((hf.name?_eq_some.mp hi).symm.trans (hf.name?_eq_some.mp hj))

/-- The inputs of a node have the names its step mentions. -/
theorem Follows.source_names (hf : a.Follows id config steps)
    (hm : s.Makes id config a.scope.find? a.plan.output? i n) :
    n.sources.map a.plan.name? = s.inputs.map some := by
  rw [Node.sources, hm.helpers, List.append_nil, map_eq_map_iff]
  exact (map_eq_map_iff.mp hm.inputs.1).imp fun p x hp => hf.name?_eq_some.mpr hp.symm

/-- An edge leads to a node from just those whose names its step mentions. -/
theorem Follows.edge_iff (hf : a.Follows id config steps) (hs : (Step.bindings steps)[i]? = some (name, s))
    (hx : a.scope.find? x = some p) : a.plan.Edge p i ↔ x ∈ s.inputs := by
  obtain ⟨n, hn, hm⟩ := hf.node_of_binding hs
  have htied := hf.valid.nodes i n hn
  have hparents : p ∈ n.parents ↔ p ∈ n.sources := by
    rw [Node.sources, hm.helpers, List.append_nil]
    refine ⟨fun hp => (htied.covered p hp).resolve_right ?_, htied.named p⟩
    simp [hm.helpers]
  rw [Plan.Edge, ← hf.linked.edges p i, Plan.parentsOf_eq hn, hparents]
  have hmem : some x ∈ n.sources.map a.plan.name? ↔ x ∈ s.inputs := by
    rw [hf.source_names hm]
    simp
  rw [← hmem, List.mem_map]
  constructor
  · exact fun hp => ⟨p, hp, hf.name?_eq_some.mpr hx⟩
  · rintro ⟨q, hq, hname⟩
    cases hx.symm.trans (hf.name?_eq_some.mp hname)
    exact hq

/-- There is an entry of the fingerprint for each node. -/
theorem Follows.fingerprintEntries_eq_ok (hf : a.Follows id config steps) :
    ∃ es, a.plan.fingerprintEntries true = .ok es := by
  obtain ⟨order, horder, _, hmem⟩ := hf.topSort_eq_ok true
  have hentry : ∀ i ∈ order, ∃ e, a.plan.fingerprintEntry i = .ok e := by
    intro i hi
    obtain ⟨n, hn⟩ := Plan.lt_size_iff.mp ((hmem i).mp hi)
    obtain ⟨name, s, hs, hm⟩ := hf.nodes i n hn
    refine ⟨⟨n.kind, n.output, n.isLocal, n.isMpc, s.inputs⟩,
      Plan.fingerprintEntry_eq_ok.mpr ⟨n, hn, rfl, rfl, rfl, rfl, ?_⟩⟩
    exact map_eq_map_iff.mp (hf.source_names hm)
  obtain ⟨es, hes⟩ := exists_mapM_eq_ok.mpr hentry
  exact ⟨es, Plan.fingerprintEntries_eq_ok.mpr ⟨order, horder, mapM_eq_ok.mp hes⟩⟩

end Names

section Reordered

variable {config : Config} {a a' : Assembly} {steps steps' : List Step}
  (hf : a.Follows id config steps) (hf' : a'.Follows id config steps') (hp : steps.Perm steps')
include hf hf' hp

/-- A name is bound again, and by the same step. -/
theorem exists_counterpart {name : String} {i : NodeId} (hi : a.scope.find? name = some i) :
    ∃ s i', a'.scope.find? name = some i' ∧ (Step.bindings steps)[i]? = some (name, s) ∧
      (Step.bindings steps')[i']? = some (name, s) := by
  obtain ⟨s, hs⟩ := hf.find?_eq_some.mp hi
  have hmem : (name, s) ∈ Step.bindings steps' :=
    (hp.filterMap _).mem_iff.mp (List.mem_of_getElem? hs)
  obtain ⟨i', hs'⟩ := List.mem_iff_getElem?.mp hmem
  exact ⟨s, i', hf'.find?_eq_some.mpr ⟨s, hs'⟩, hs, hs'⟩

/-- A name stands for nodes that do the same to inputs of the same names. -/
theorem alike_of_name (i : NodeId) : ∀ {name : String} {i' : NodeId}, a.scope.find? name = some i →
    a'.scope.find? name = some i' → ∃ n n', a.plan.get? i = some n ∧ a'.plan.get? i' = some n' ∧
      a.plan.Alike a'.plan n n' ∧ n'.op = n.op := by
  -- inputs stand before what reads them, so the induction is on the numbers of the first plan
  induction i using Nat.strong_induction_on with
  | _ i ih =>
  intro name i' hi hi'
  obtain ⟨s, _, hj, hs, hs'⟩ := exists_counterpart hf hf' hp hi
  cases hi'.symm.trans hj
  obtain ⟨n, hn, hmakes⟩ := hf.node_of_binding hs
  obtain ⟨n', hn', hmakes'⟩ := hf'.node_of_binding hs'
  have hsources : n'.sources.map a'.plan.name? = n.sources.map a.plan.name? := by
    rw [hf.source_names hmakes, hf'.source_names hmakes']
  obtain ⟨b, rel, v, hb, hv, hreads, _, hop, hout, hlocal, hmpc⟩ := hmakes
  obtain ⟨b', rel', v', hb', hv', hreads', _, hop', hout', hlocal', hmpc'⟩ := hmakes'
  have hsame : v' = v := by
    refine Step.derived_unique hb' hb (fun x p' p hx' hx hmem' hmem => ?_) hv' hv
    obtain ⟨hlt, r, _, hr, hpr, rfl⟩ := hreads p hmem
    obtain ⟨_, r', _, hr', hpr', rfl⟩ := hreads' p' hmem'
    obtain ⟨m, m', hm, hm', halike, _⟩ := ih p hlt hx hx'
    rw [Plan.output?, hm] at hpr
    rw [Plan.output?, hm', Option.map_some, halike.output] at hpr'
    rw [hr, hr', ← Option.some.inj hpr, ← Option.some.inj hpr']
  subst hsame
  have hops : n'.op = n.op := hop'.trans hop.symm
  exact ⟨n, n', hn, hn', ⟨congrArg Operator.kind hops, hout'.trans hout.symm, hlocal'.trans hlocal.symm,
    hmpc'.trans hmpc.symm, hsources⟩, hops⟩

theorem names_rel (name : String) : Option.Rel (fun i i' => ∃ n n', a.plan.get? i = some n ∧
    a'.plan.get? i' = some n' ∧ a.plan.Alike a'.plan n n' ∧ n'.op = n.op)
    (a.scope.find? name) (a'.scope.find? name) := by
  cases hi : a.scope.find? name with
  | some i =>
    obtain ⟨_, i', hi', _⟩ := exists_counterpart hf hf' hp hi
    rw [hi']
    exact .some (alike_of_name hf hf' hp i hi hi')
  | none =>
    cases hi' : a'.scope.find? name with
    | none => exact .none
    | some i' =>
      obtain ⟨_, i, hsome, _⟩ := exists_counterpart hf' hf hp.symm hi'
      cases hi.symm.trans hsome

/-- Where a node of the first plan is found in the second. -/
theorem renumbering_cases {i : NodeId} (hi : a.plan.Reaches i) : ∃ name s,
    a.scope.find? name = some i ∧ a'.scope.find? name = some (a.renumbering a' i) ∧
    (Step.bindings steps)[i]? = some (name, s) ∧
    (Step.bindings steps')[a.renumbering a' i]? = some (name, s) := by
  obtain ⟨name, hname⟩ := hf.exists_name (hf.reaches_iff.mp hi)
  obtain ⟨s, i', hname', hs, hs'⟩ := exists_counterpart hf hf' hp hname
  rw [hf.renumbering_eq hname hname']
  exact ⟨name, s, hname, hname', hs, hs'⟩

theorem renumbers : a.plan.Renumbers (a.renumbering a') a'.plan where
  reachable := by
    refine ⟨fun i hi => ?_, fun i hi j hj hij => ?_, fun i' hi' => ?_⟩
    · obtain ⟨x, _, _, hx', _⟩ := renumbering_cases hf hf' hp hi
      exact hf'.reaches_of_name hx'
    · obtain ⟨x, _, hx, hx', _⟩ := renumbering_cases hf hf' hp hi
      obtain ⟨y, _, hy, hy', _⟩ := renumbering_cases hf hf' hp hj
      rw [← hf'.name?_eq_some] at hx' hy'
      rw [hij] at hx'
      cases hx'.symm.trans hy'
      exact Option.some.inj (hx.symm.trans hy)
    · obtain ⟨x, hx'⟩ := hf'.exists_name (hf'.reaches_iff.mp hi')
      obtain ⟨_, i, hx, _⟩ := exists_counterpart hf' hf hp.symm hx'
      exact ⟨i, hf.reaches_of_name hx, hf.renumbering_eq hx hx'⟩
  edges := by
    intro p c hreach hreach'
    obtain ⟨x, _, hx, hx', _⟩ := renumbering_cases hf hf' hp hreach
    obtain ⟨_, _, _, _, hs, hs'⟩ := renumbering_cases hf hf' hp hreach'
    rw [hf'.edge_iff hs' hx', hf.edge_iff hs hx]
  names := by
    intro i hi
    obtain ⟨x, _, hx, hx', _⟩ := renumbering_cases hf hf' hp hi
    rw [hf.name?_eq_some.mpr hx, hf'.name?_eq_some.mpr hx']

theorem allAlike : a.plan.AllAlike (a.renumbering a') a'.plan := by
  intro i n hi hn
  obtain ⟨x, _, hx, hx', _⟩ := renumbering_cases hf hf' hp hi
  obtain ⟨m, n', hm, hn', halike, _⟩ := alike_of_name hf hf' hp i hx hx'
  cases hm.symm.trans hn
  exact ⟨n', hn', halike⟩

theorem shownParameters_eq : a'.plan.shownParameters true = a.plan.shownParameters true := by
  obtain ⟨order, horder, _⟩ := hf.topSort_eq_ok true
  have horder' := ((renumbers hf hf' hp).topSort_eq_ok hf.namedApart).mpr ⟨order, horder, rfl⟩
  rw [Plan.shownParameters, Plan.shownParameters, horder, horder']
  refine congrArg Except.ok ?_
  rw [Plan.shownIn, Plan.shownIn, List.map_map]
  refine List.map_congr_left fun i hi => ?_
  obtain ⟨x, _, hx, hx', _⟩ := renumbering_cases hf hf' hp (Plan.reaches_of_mem_topSort horder hi)
  obtain ⟨n, n', hn, hn', halike, hop⟩ := alike_of_name hf hf' hp i hx hx'
  rw [Function.comp, hn, hn', Option.map_some, Option.map_some,
    Listing.parameters_congr hop halike.output]

end Reordered

end Assembly

/-- Where two orders of the same steps both have a plan, the plans have the same fingerprint and the same
listing, and every name stands in both for nodes of the same kind, which have the same operator and
output, the same flags, and inputs of the same names. -/
theorem step_order_immaterial (w w' : Workflow) (r r' : Assembled) (hconfig : w'.config = w.config)
    (hsteps : w.steps.Perm w'.steps) (hplain : ∀ s ∈ w.steps, s.name? ≠ none)
    (h : w.assemble = .ok r) (h' : w'.assemble = .ok r') :
    (∃ digest, r.plan.fingerprint true = .ok digest ∧ r'.plan.fingerprint true = .ok digest) ∧
    (∀ job, ∃ code, r.plan.listing job true = .ok code ∧ r'.plan.listing job true = .ok code) ∧
    ∀ name, Option.Rel (fun i i' => ∃ n n', r.plan.get? i = some n ∧ r'.plan.get? i' = some n' ∧
      r.plan.Alike r'.plan n n' ∧ n'.op = n.op) (r.scope.find? name) (r'.scope.find? name) := by
  have hsame : r'.config = r.config := by
    rw [(w.assemble_eq_ok h).1, (w'.assemble_eq_ok h').1, hconfig]
  have hf := w.follows id h fun ⟨s, hs, hn⟩ => absurd hn (hplain s hs)
  have hf' := w'.follows id h' fun ⟨s, hs, hn⟩ => absurd hn (hplain s (hsteps.mem_iff.mpr hs))
  rw [hsame] at hf'
  have hnum := Assembly.renumbers hf hf' hsteps
  have halike := Assembly.allAlike hf hf' hsteps
  obtain ⟨es, hes⟩ := hf.fingerprintEntries_eq_ok
  have hes' := (hnum.fingerprintEntries hf.namedApart halike).mpr hes
  refine ⟨⟨_, Plan.fingerprint_eq_ok.mpr ⟨es, hes, rfl⟩, Plan.fingerprint_eq_ok.mpr ⟨es, hes', rfl⟩⟩,
    fun job => ?_, Assembly.names_rel hf hf' hsteps⟩
  obtain ⟨order, horder, _⟩ := hf.topSort_eq_ok true
  have hcode := Plan.listing_eq_ok job horder hes
  refine ⟨_, hcode, ?_⟩
  rw [Plan.listing_eq_of_shownParameters job hes hes' (Assembly.shownParameters_eq hf hf' hsteps)]
  exact hcode

def filed : Workflow :=
  { config := none
    steps := [.create "a" [1] [⟨"k", "INTEGER", [2]⟩, ⟨"v", "FLOAT", []⟩],
      .create "b" [2] [⟨"k", "INTEGER", []⟩, ⟨"v", "FLOAT", []⟩],
      .filter "few" "b" "k" "<" "10", .join "both" "a" "few" ["k"] ["k"],
      .concat "all" ["b", "a"] none, .aggregate "sums" "all" ["k"] "v" "+" "total"] }

def refiled : Workflow :=
  { config := none
    steps := [.create "b" [2] [⟨"k", "INTEGER", []⟩, ⟨"v", "FLOAT", []⟩],
      .filter "few" "b" "k" "<" "10", .create "a" [1] [⟨"k", "INTEGER", [2]⟩, ⟨"v", "FLOAT", []⟩],
      .concat "all" ["b", "a"] none, .aggregate "sums" "all" ["k"] "v" "+" "total",
      .join "both" "a" "few" ["k"] ["k"]] }

theorem filed_step_order_immaterial : ∃ r r', filed.assemble = .ok r ∧ refiled.assemble = .ok r' ∧
    r.scope.find? "both" = some 3 ∧ r'.scope.find? "both" = some 5 ∧
    (∃ digest, r.plan.fingerprint true = .ok digest ∧ r'.plan.fingerprint true = .ok digest) ∧
    ∃ code, r.plan.listing "x" true = .ok code ∧ r'.plan.listing "x" true = .ok code := by
  have hr : filed.assemble.toOption.map (·.scope.find? "both") = some (some 3) := by decide +kernel
  have hr' : refiled.assemble.toOption.map (·.scope.find? "both") = some (some 5) := by decide +kernel
  obtain ⟨r, h, hboth⟩ := Option.map_eq_some_iff.mp hr
  obtain ⟨r', h', hboth'⟩ := Option.map_eq_some_iff.mp hr'
  rw [toOption_eq_some] at h h'
  obtain ⟨hprint, hlist, _⟩ := step_order_immaterial filed refiled r r' rfl (by decide +kernel)
    (by decide) h h'
  exact ⟨r, r', h, h', hboth, hboth', hprint, hlist "x"⟩

end PartyPlan
