import PartyPlan.Codegen.Listing
import PartyPlan.Proofs.Mapping

/-! What the fingerprint of a plan says about its listing. An entry of the fingerprint together with
the parameters a line shows determines the line. Entries alone leave out those parameters: they
determine the listing only where no operator of the plan shows any. -/
namespace PartyPlan

def Kind.showsParameters : Kind → Bool
  | create | store | persist | opening | closing | send | shuffle | concat => false
  | _ => true

namespace Listing

def parameters (n : Node) : String := (detail n.kind n).getD ""

theorem detail_eq (n : Node) : detail n.kind n = some (parameters n) := by
  unfold parameters
  cases h : n.op <;> simp [Node.kind, Operator.kind, detail, h]

/-- The parameters where the operator has none to show: the columns of a source, or nothing. -/
def plainParameters (e : FingerprintEntry) : String :=
  if e.kind = .create then Text.join ", " (e.output.columns.map Column.declaration) else ""

def entryLine (e : FingerprintEntry) (parameters : String) : String :=
  let args := withoutRuns e.parents
  e.output.name ++ " = " ++ e.kind.name ++ "(" ++ Text.join ", " args ++
    (if parameters ≠ "" ∧ args ≠ [] then "; " else "") ++ parameters ++ ") @ " ++
    partyList e.output.holders ++ (if e.isMpc then " [mpc]" else "") ++ "\n"

def body : List (FingerprintEntry × String) → String
  | [] => ""
  | (e, parameters) :: rest => entryLine e parameters ++ body rest

end Listing

namespace Plan
open Listing

variable {g g' : Plan} {n : Node} {e : FingerprintEntry} {es : List FingerprintEntry}
  {order : List NodeId} {id : NodeId} {byName : Bool}

theorem Shows.arguments_eq (hs : g.Shows n e) : arguments g n = withoutRuns e.parents := by
  have hnames : (n.sources.filterMap g.output?).map (·.name) = e.parents := by
    have hp := hs.parents
    generalize n.sources = ids, e.parents = names at hp
    induction hp with
    | nil => rfl
    | cons hi _ ih =>
      obtain ⟨r, hr, hname⟩ := Option.map_eq_some_iff.mp hi
      rw [List.filterMap_cons_some hr, List.map_cons, hname, ih]
  rw [arguments, hnames]

theorem Shows.line_eq (hs : g.Shows n e) (parameters : String) :
    line false g n parameters = entryLine e parameters := by
  simp [line, entryLine, hs.arguments_eq, hs.kind, hs.output, hs.isMpc]

theorem Shows.parameters_eq (hs : g.Shows n e) (hk : e.kind.showsParameters = false) :
    parameters n = plainParameters e := by
  rw [hs.kind] at hk
  rw [plainParameters, hs.kind, hs.output]
  cases h : n.op <;>
    simp_all [parameters, Node.kind, Operator.kind, detail, Kind.showsParameters]

def shownIn (g : Plan) (order : List NodeId) : List String :=
  order.map fun id => ((g.get? id).map parameters).getD ""

theorem shownIn_cons (hn : g.get? id = some n) :
    g.shownIn (id :: order) = parameters n :: g.shownIn order := by
  rw [shownIn, List.map_cons, hn, Option.map_some, Option.getD_some, shownIn]

theorem emitAll_listing (hes : List.Forall₂ (fun i e => g.fingerprintEntry i = .ok e) order es)
    (s : Unit) : ((backend false).emitAll g order s).1 = .ok (body (es.zip (g.shownIn order))) := by
  induction hes with
  | nil => rfl
  | @cons i e order es hi _ ih =>
    obtain ⟨n, hn, hs⟩ := fingerprintEntry_eq_ok.mp hi
    have hemit : (backend false).emit g n s = (.ok (entryLine e (parameters n)), s) := by
      rw [← hs.line_eq]
      simp [Backend.emit, Backend.emitAs, backend, detail_eq]
    simp only [Backend.emitAll, fetch_eq_ok.mpr hn, hemit, ih]
    rw [shownIn_cons hn]
    rfl

def listing (g : Plan) (job : String) (deterministic : Bool) : Except CodegenError String :=
  ((backend false).generate g job deterministic).1.map Job.code

/-- Where there is a fingerprint there is a listing, made of the entries and the parameters. -/
theorem listing_eq_ok (job : String) (ho : g.topSort byName = .ok order)
    (hes : g.fingerprintEntries byName = .ok es) :
    g.listing job byName = .ok ("job " ++ job ++ "\n" ++ body (es.zip (g.shownIn order))) := by
  obtain ⟨order', ho', hentries⟩ := fingerprintEntries_eq_ok.mp hes
  cases ho.symm.trans ho'
  have hemit := emitAll_listing hentries (backend false).state
  have hprint := fingerprint_eq_ok.mpr ⟨es, hes, rfl⟩
  rcases hpair : (backend false).emitAll g order (backend false).state with ⟨code, events, s⟩
  rw [hpair] at hemit
  cases hemit
  simp only [listing, Backend.generate, ho, hpair, hprint]
  rfl

def shownParameters (g : Plan) (deterministic : Bool) : Except Error (List String) :=
  (g.topSort deterministic).map g.shownIn

theorem listing_eq_of_shownParameters (job : String) (hes : g.fingerprintEntries byName = .ok es)
    (hes' : g'.fingerprintEntries byName = .ok es)
    (hshown : g'.shownParameters byName = g.shownParameters byName) :
    g'.listing job byName = g.listing job byName := by
  obtain ⟨order, ho, _⟩ := fingerprintEntries_eq_ok.mp hes
  obtain ⟨order', ho', _⟩ := fingerprintEntries_eq_ok.mp hes'
  rw [shownParameters, shownParameters, ho, ho'] at hshown
  have hsame : g'.shownIn order' = g.shownIn order := Except.ok.inj hshown
  rw [listing_eq_ok job ho hes, listing_eq_ok job ho' hes', hsame]

theorem shownIn_eq_plain (hes : List.Forall₂ (fun i e => g.fingerprintEntry i = .ok e) order es)
    (hk : ∀ e ∈ es, e.kind.showsParameters = false) : g.shownIn order = es.map plainParameters := by
  induction hes with
  | nil => rfl
  | @cons i e order es hi _ ih =>
    obtain ⟨n, hn, hs⟩ := fingerprintEntry_eq_ok.mp hi
    have hrest := ih fun e he => hk e (by simp [he])
    rw [shownIn_cons hn, List.map_cons, hs.parameters_eq (hk e (by simp)), hrest]

/-! Operators with other parameters. -/

section Reworded

def reworded (k : Operator → Operator) (g : Plan) : Plan :=
  { g with nodes := g.nodes.map fun n => { n with op := k n.op } }

variable {k : Operator → Operator}

theorem get?_reworded (i : NodeId) :
    (g.reworded k).get? i = (g.get? i).map fun n => { n with op := k n.op } := get?_mapNodes i

variable (hkind : ∀ op, (k op).kind = op.kind)
include hkind

theorem unseen_of_kind : Node.Unseen fun n => { n with op := k n.op } where
  children _ := rfl
  name _ := rfl
  describe n := by simp [Node.describe, Node.kind, hkind]

theorem name?_reworded : (g.reworded k).name? = g.name? :=
  name?_mapNodes (unseen_of_kind hkind)

theorem topSort_reworded : (g.reworded k).topSort byName = g.topSort byName :=
  topSort_mapNodes (unseen_of_kind hkind)

/-- The fingerprint does not see the parameters of operators. -/
theorem fingerprintEntries_reworded (hhelpers : ∀ op, (k op).helpers = op.helpers) :
    (g.reworded k).fingerprintEntries byName = .ok es ↔ g.fingerprintEntries byName = .ok es := by
  have halike : ∀ n : Node, g.Alike (g.reworded k) n { n with op := k n.op } := by
    intro n
    refine ⟨hkind n.op, rfl, rfl, rfl, ?_⟩
    rw [name?_reworded hkind, Node.sources, Node.sources, hhelpers]
  have hentry : ∀ i e, (g.reworded k).fingerprintEntry i = .ok e ↔ g.fingerprintEntry i = .ok e := by
    intro i e
    simp [fingerprintEntry_eq_ok, get?_reworded, (halike _).shows_iff]
  simp only [fingerprintEntries_eq_ok, topSort_reworded hkind, hentry]

end Reworded

end Plan

/-! Longer parameters. -/

def Column.lengthened (c : Column) : Column := { c with name := String.singleton 'x' ++ c.name }

def oneMore (cs : List Column) : List Column := ⟨"", "x", 0, .integer, ∅⟩ :: cs

namespace Operator

/-- An operator of the same kind with more to show, if it shows anything. -/
def lengthened : Operator → Operator
  | aggregate spec => aggregate { spec with folded := spec.folded.lengthened }
  | indexAggregate spec eqFlags sortedKeys =>
    indexAggregate { spec with folded := spec.folded.lengthened } eqFlags sortedKeys
  | project columns => project (oneMore columns)
  | index column => index (String.singleton 'x' ++ column)
  | multiply spec => multiply { spec with target := spec.target.lengthened }
  | divide spec => divide { spec with target := spec.target.lengthened }
  | filter c => filter { c with column := c.column.lengthened }
  | sortBy column => sortBy column.lengthened
  | compareNeighbours column => compareNeighbours column.lengthened
  | distinct columns => distinct (oneMore columns)
  | join keys => join ⟨oneMore keys.left, oneMore keys.right⟩
  | indexJoin keys aligner => indexJoin ⟨oneMore keys.left, oneMore keys.right⟩ aligner
  | revealJoin keys revealed => revealJoin ⟨oneMore keys.left, oneMore keys.right⟩ revealed
  | hybridJoin keys trusted => hybridJoin ⟨oneMore keys.left, oneMore keys.right⟩ trusted
  | op => op

@[simp] theorem kind_lengthened (op : Operator) : op.lengthened.kind = op.kind := by cases op <;> rfl

@[simp] theorem helpers_lengthened (op : Operator) : op.lengthened.helpers = op.helpers := by
  cases op <;> rfl

end Operator

theorem Text.length_join_cons_lt (sep s : String) (l : List String) (hs : 0 < s.length) :
    (join sep l).length < (join sep (s :: l)).length := by
  cases l with
  | nil => simpa using hs
  | cons t l =>
    have hjoin : join sep (s :: t :: l) = s ++ sep ++ join sep (t :: l) := rfl
    rw [hjoin, String.length_append, String.length_append]
    omega

theorem Text.length_trimEnd_cons {c : Char} (hc : isBlank c = false) (s : String) :
    (trimEnd (String.singleton c ++ s)).length = (trimEnd s).length + 1 := by
  simp only [trimEnd, String.length_ofList, List.length_reverse, String.toList_append,
    String.toList_singleton, List.reverse_append, List.dropWhile_append]
  cases hd : List.dropWhile isBlank s.toList.reverse with
  | nil => simp [hc]
  | cons a rest => simp

theorem Text.isBlank_x : isBlank 'x' = false := by decide

namespace Listing

@[simp] theorem length_lengthened (c : Column) : c.lengthened.name.length = c.name.length + 1 := by
  rw [Column.lengthened, String.length_append, String.length_singleton, Nat.add_comm]

theorem length_names_lt (cs : List Column) : (names cs).length < (names (oneMore cs)).length :=
  Text.length_join_cons_lt _ _ _ (by decide)

theorem length_keyPairs_lt (keys : JoinKeys) :
    (keyPairs keys).length < (keyPairs ⟨oneMore keys.left, oneMore keys.right⟩).length :=
  Text.length_join_cons_lt _ _ _ (by decide)

theorem length_parameters_lt (n : Node) (hk : n.kind.showsParameters = true) :
    (parameters n).length < (parameters { n with op := n.op.lengthened }).length := by
  obtain ⟨id, op, output, isLocal, isMpc, inputs, parents, children⟩ := n
  cases op with
  | create | store | persist | opening | closing | send | shuffle | concat => cases hk
  | aggregate spec =>
    simp [parameters, Node.kind, Operator.kind, detail, Operator.lengthened, grouping, lastColumn,
      String.length_append]
  | indexAggregate spec eqFlags sortedKeys =>
    simp [parameters, Node.kind, Operator.kind, detail, Operator.lengthened, grouping,
      String.length_append]
  | project columns => exact length_names_lt columns
  | distinct columns => exact length_names_lt columns
  | index column =>
    show column.length < (String.singleton 'x' ++ column).length
    rw [String.length_append, String.length_singleton]
    omega
  | multiply spec | divide spec =>
    simp [parameters, Node.kind, Operator.kind, detail, Operator.lengthened, arithmetic,
      String.length_append]
  | filter c =>
    show (Text.trimEnd (c.column.name ++ " " ++ c.comparison.symbol ++ " " ++ c.expression)).length <
      (Text.trimEnd (String.singleton 'x' ++ c.column.name ++ " " ++ c.comparison.symbol ++ " " ++
        c.expression)).length
    simp only [String.append_assoc, Text.length_trimEnd_cons Text.isBlank_x]
    exact Nat.lt_succ_self _
  | sortBy column | compareNeighbours column =>
    simp [parameters, Node.kind, Operator.kind, detail, Operator.lengthened]
  | join keys | indexJoin keys aligner => exact length_keyPairs_lt keys
  | revealJoin keys revealed =>
    simpa [parameters, Node.kind, Operator.kind, detail, Operator.lengthened, String.length_append]
      using length_keyPairs_lt keys
  | hybridJoin keys trusted =>
    simpa [parameters, Node.kind, Operator.kind, detail, Operator.lengthened, String.length_append]
      using length_keyPairs_lt keys

theorem parameters_lengthened (n : Node) (hk : n.kind.showsParameters = false) :
    parameters { n with op := n.op.lengthened } = parameters n := by
  obtain ⟨id, op, output, isLocal, isMpc, inputs, parents, children⟩ := n
  cases op with
  | create | store | persist | opening | closing | send | shuffle | concat => rfl
  | _ => cases hk

theorem length_entryLine_lt (e : FingerprintEntry) {p q : String} (h : p.length < q.length) :
    (entryLine e p).length < (entryLine e q).length := by
  have hq : q ≠ "" := by
    rintro rfl
    exact absurd h (Nat.not_lt_zero _)
  by_cases ha : withoutRuns e.parents = []
  · simp [entryLine, String.length_append, ha, h]
  · by_cases hp : p = ""
    · simp [entryLine, String.length_append, ha, hp, hq]
      omega
    · simp [entryLine, String.length_append, ha, hp, hq, h]

end Listing

namespace Plan
open Listing

variable {g : Plan} {es : List FingerprintEntry} {order : List NodeId}

/-- Longer parameters make a longer listing, if any are shown. -/
theorem length_body_lengthened
    (hes : List.Forall₂ (fun i e => g.fingerprintEntry i = .ok e) order es) :
    ((∀ e ∈ es, e.kind.showsParameters = false) ∧
      (g.reworded .lengthened).shownIn order = g.shownIn order) ∨
    (body (es.zip (g.shownIn order))).length <
      (body (es.zip ((g.reworded .lengthened).shownIn order))).length := by
  induction hes with
  | nil => exact .inl ⟨by simp, rfl⟩
  | @cons i e order es hi _ ih =>
    obtain ⟨n, hn, hs⟩ := fingerprintEntry_eq_ok.mp hi
    have hn' : (g.reworded .lengthened).get? i = some { n with op := n.op.lengthened } := by
      rw [get?_reworded, hn, Option.map_some]
    rw [shownIn_cons hn, shownIn_cons hn']
    simp only [List.zip_cons_cons, body, String.length_append]
    cases hk : e.kind.showsParameters with
    | false =>
      rw [parameters_lengthened n (hs.kind ▸ hk)]
      rcases ih with ⟨hrest, hsame⟩ | hlt
      · exact .inl ⟨by simpa [hk] using hrest, by rw [hsame]⟩
      · exact .inr (Nat.add_lt_add_left hlt _)
    | true =>
      have hline := length_entryLine_lt e (length_parameters_lt n (hs.kind ▸ hk))
      refine .inr ?_
      rcases ih with ⟨_, hsame⟩ | hlt
      · rw [hsame]
        exact Nat.add_lt_add_right hline _
      · exact Nat.add_lt_add hline hlt

/-- Equal fingerprints and equal parameters make equal listings. Equal fingerprints alone do so just
where no operator shows parameters of its own. -/
theorem fingerprint_determines_listing_iff (g : Plan) (deterministic : Bool) (job : String)
    (es : List FingerprintEntry) (hes : g.fingerprintEntries deterministic = .ok es) :
    (∀ g' : Plan, g'.fingerprintEntries deterministic = .ok es →
      g'.shownParameters deterministic = g.shownParameters deterministic →
      ∃ text, g.listing job deterministic = .ok text ∧ g'.listing job deterministic = .ok text) ∧
    ((∀ g' : Plan, g'.fingerprintEntries deterministic = .ok es →
      ∃ text, g.listing job deterministic = .ok text ∧ g'.listing job deterministic = .ok text) ↔
      ∀ e ∈ es, e.kind.showsParameters = false) := by
  obtain ⟨order, ho, hentries⟩ := fingerprintEntries_eq_ok.mp hes
  have hlisting := listing_eq_ok job ho hes
  refine ⟨fun g' hes' hshown => ⟨_, hlisting, ?_⟩, fun hall => ?_, fun hk g' hes' => ⟨_, hlisting, ?_⟩⟩
  · rw [listing_eq_of_shownParameters job hes hes' hshown, hlisting]
  · rcases length_body_lengthened hentries with ⟨hk, _⟩ | hlt
    · exact hk
    · have hes' := (fingerprintEntries_reworded Operator.kind_lengthened
        Operator.helpers_lengthened).mpr hes
      have ho' := (topSort_reworded Operator.kind_lengthened).trans ho
      obtain ⟨text, htext, htext'⟩ := hall _ hes'
      rw [hlisting] at htext
      rw [listing_eq_ok job ho' hes', ← htext] at htext'
      have hlength := congrArg String.length (Except.ok.inj htext')
      simp only [String.length_append] at hlength
      omega
  · obtain ⟨order', ho', hentries'⟩ := fingerprintEntries_eq_ok.mp hes'
    rw [listing_eq_ok job ho' hes', shownIn_eq_plain hentries hk, shownIn_eq_plain hentries' hk]

end Plan

def filtered (comparison : Comparison) (expression : String) : Plan :=
  (Call.afterAll [.build (.create "in" [⟨"a", .integer, ∅⟩] (.singleton 1)),
    .build (.filter 0 "kept" "a" comparison expression)] ⟨∅, []⟩).plan

theorem filtered_same_fingerprint_other_listing :
    (filtered .lt "1").fingerprintEntries true = (filtered .gt "2").fingerprintEntries true ∧
    (filtered .lt "1").fingerprint true = (filtered .gt "2").fingerprint true ∧
    (filtered .lt "1").listing "t" true =
      .ok "job t\nin = create(a INTEGER) @ \x7b1\x7d\nkept = filter(in; a < 1) @ \x7b1\x7d\n" ∧
    (filtered .gt "2").listing "t" true =
      .ok "job t\nin = create(a INTEGER) @ \x7b1\x7d\nkept = filter(in; a > 2) @ \x7b1\x7d\n" := by
  have hentries : (filtered .lt "1").fingerprintEntries true =
      (filtered .gt "2").fingerprintEntries true := by decide +kernel
  refine ⟨hentries, ?_, by decide +kernel, by decide +kernel⟩
  rw [Plan.fingerprint, Plan.fingerprint, hentries]

theorem filtered_fingerprint_insufficient : ∃ es,
    (filtered .lt "1").fingerprintEntries true = .ok es ∧
    ¬ ∀ g' : Plan, g'.fingerprintEntries true = .ok es →
      ∃ text, (filtered .lt "1").listing "t" true = .ok text ∧ g'.listing "t" true = .ok text := by
  have hkinds : ((filtered .lt "1").fingerprintEntries true).toOption.map (·.map (·.kind)) =
      some [.create, .filter] := by decide +kernel
  simp only [Option.map_eq_some_iff, toOption_eq_some] at hkinds
  obtain ⟨es, hes, hkinds⟩ := hkinds
  refine ⟨es, hes, fun hall => ?_⟩
  have hplain := (Plan.fingerprint_determines_listing_iff _ true "t" es hes).2.mp hall
  have hfilter : Kind.filter ∈ es.map (·.kind) := by
    rw [hkinds]
    decide
  obtain ⟨e, he, hkind⟩ := List.mem_map.mp hfilter
  have hshows := hplain e he
  rw [hkind] at hshows
  cases hshows

end PartyPlan
