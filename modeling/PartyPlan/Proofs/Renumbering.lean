import Mathlib.Data.Set.Function
import PartyPlan.Plan.Fingerprint
import PartyPlan.Proofs.Call
import PartyPlan.Proofs.Validity

/-! Sorting by name sees names and edges only. Where the reachable nodes of two plans correspond one to
one, with the same names and edges, the two are sorted alike, whatever numbers their nodes have and
whatever else stands in their tables. Where the nodes do the same too, the fingerprints are equal. -/
namespace PartyPlan

def Visit.node : Visit → NodeId
  | enter id => id
  | leave id => id

def Visit.renumber (f : NodeId → NodeId) : Visit → Visit
  | enter id => enter (f id)
  | leave id => leave (f id)

namespace Plan

variable {g h : Plan} {f : NodeId → NodeId} {id a b x : NodeId} {l l' : List NodeId}

/-! Nodes of different names have one order by name. -/

theorem before_iff (hne : g.nameOf a ≠ g.nameOf b) :
    g.before a b = true ↔ g.nameOf a < g.nameOf b := by
  simp [before, hne]

def NameSorted (g : Plan) (l : List NodeId) : Prop := l.Pairwise fun a b => g.nameOf a < g.nameOf b

theorem nameSorted_insertByName (hl : g.NameSorted l) (ha : ∀ b ∈ l, g.nameOf a ≠ g.nameOf b) :
    g.NameSorted (g.insertByName a l) := by
  induction l with
  | nil => exact List.pairwise_singleton _ _
  | cons b l ih =>
    obtain ⟨hb, hrest⟩ := List.pairwise_cons.mp hl
    have hab : g.nameOf a ≠ g.nameOf b := ha b (by simp)
    by_cases hlt : g.before a b = true
    · rw [insertByName, if_pos hlt]
      have hfirst : g.nameOf a < g.nameOf b := (before_iff hab).mp hlt
      refine List.pairwise_cons.mpr ⟨fun c hc => ?_, hl⟩
      rcases List.mem_cons.mp hc with rfl | hc
      · exact hfirst
      · exact String.lt_trans hfirst (hb c hc)
    · rw [insertByName, if_neg hlt]
      have hfirst : g.nameOf b < g.nameOf a := by
        rw [before_iff hab] at hlt
        exact Std.lt_of_le_of_ne (String.not_lt.mp hlt) hab.symm
      have htail := ih hrest fun c hc => ha c (by simp [hc])
      refine List.pairwise_cons.mpr ⟨fun c hc => ?_, htail⟩
      rcases List.mem_cons.mp ((insertByName_perm a l).mem_iff.mp hc) with rfl | hc
      · exact hfirst
      · exact hb c hc

theorem nameSorted_sortByName (hl : l.Pairwise fun a b => g.nameOf a ≠ g.nameOf b) :
    g.NameSorted (g.sortByName l) := by
  induction l with
  | nil => exact .nil
  | cons a l ih =>
    obtain ⟨ha, hrest⟩ := List.pairwise_cons.mp hl
    exact nameSorted_insertByName (ih hrest) fun b hb => ha b (mem_sortByName.mp hb)

theorem NameSorted.eq_of_perm (hl : g.NameSorted l) (hl' : g.NameSorted l') (hp : l.Perm l') :
    l = l' :=
  hp.eq_of_pairwise (fun _ _ _ _ hab hba => absurd hba (String.lt_asymm hab)) hl hl'

/-- Where names are kept, sorting renumbered nodes is renumbering sorted ones. -/
theorem sortByName_renumbered (hp : l'.Perm (l.map f)) (hnames : ∀ a ∈ l, h.nameOf (f a) = g.nameOf a)
    (hl : l.Pairwise fun a b => g.nameOf a ≠ g.nameOf b) :
    h.sortByName l' = (g.sortByName l).map f := by
  have hsorted : h.NameSorted ((g.sortByName l).map f) := by
    refine List.pairwise_map.mpr ((nameSorted_sortByName hl).imp_of_mem fun ha hb hab => ?_)
    rw [hnames _ (mem_sortByName.mp ha), hnames _ (mem_sortByName.mp hb)]
    exact hab
  have hperm : (h.sortByName l').Perm ((g.sortByName l).map f) :=
    ((sortByName_perm l').trans hp).trans ((sortByName_perm l).map f).symm
  have hapart : l'.Pairwise fun a b => h.nameOf a ≠ h.nameOf b := by
    refine hp.symm.pairwise ?_ fun hab => hab.symm
    refine List.pairwise_map.mpr (hl.imp_of_mem fun ha hb hab => ?_)
    rwa [hnames _ ha, hnames _ hb]
  exact (nameSorted_sortByName hapart).eq_of_perm hsorted hperm

/-! The steps of a sort. -/

variable {byName : Bool} {rest : List Visit} {active marked : NodeSet} {placed cs : List NodeId}

theorem sortLoop_nil : g.sortLoop byName [] active marked placed = .ok placed := by rw [sortLoop]

theorem sortLoop_leave : g.sortLoop byName (.leave id :: rest) active marked placed =
    g.sortLoop byName rest (active.erase id) marked (id :: placed) := by rw [sortLoop]

theorem sortLoop_active (ha : id ∈ active) :
    g.sortLoop byName (.enter id :: rest) active marked placed = .error (.cycle (g.describe id)) := by
  rw [sortLoop, if_pos ha]

theorem sortLoop_marked (ha : ¬ id ∈ active) (hm : id ∈ marked) :
    g.sortLoop byName (.enter id :: rest) active marked placed =
      g.sortLoop byName rest active marked placed := by
  rw [sortLoop, if_neg ha, dif_pos hm]

theorem sortLoop_enter (ha : ¬ id ∈ active) (hm : ¬ id ∈ marked)
    (hc : g.orderedChildren byName id = .ok cs) :
    g.sortLoop byName (.enter id :: rest) active marked placed =
      g.sortLoop byName (cs.map .enter ++ .leave id :: rest) (active.insert id) (marked.insert id)
        placed := by
  rw [sortLoop, if_neg ha, dif_neg hm]
  split
  · next e he => cases he.symm.trans hc
  · next cs' he =>
    cases he.symm.trans hc
    rfl

/-! Two plans whose reachable nodes correspond. -/

def name? (g : Plan) (id : NodeId) : Option String := (g.output? id).map (·.name)

/-- The nodes some root leads to in two plans correspond one to one, with the same edges and the same
names. Roots need not correspond to roots. -/
structure Renumbers (f : NodeId → NodeId) (g h : Plan) : Prop where
  reachable : Set.BijOn f {i | g.Reaches i} {i | h.Reaches i}
  edges : ∀ p c, g.Reaches p → g.Reaches c → (h.Edge (f p) (f c) ↔ g.Edge p c)
  names : ∀ i, g.Reaches i → h.name? (f i) = g.name? i

def NamedApart (g : Plan) : Prop :=
  ∀ i j s, g.Reaches i → g.Reaches j → g.name? i = some s → g.name? j = some s → i = j

theorem lt_size_iff_name? : x < g.size ↔ ∃ s, g.name? x = some s := by
  rw [lt_size_iff, name?, output?]
  cases g.get? x <;> simp

theorem nameOf_of_name? {s : String} (hs : g.name? x = some s) : g.nameOf x = s := by
  have hdef : g.nameOf x = (g.name? x).getD "" := rfl
  rw [hdef, hs, Option.getD_some]

theorem NamedApart.nameOf_ne (hd : g.NamedApart) (hg : g.Grounded) (ha : g.Reaches a)
    (hb : g.Reaches b) (hab : a ≠ b) : g.nameOf a ≠ g.nameOf b := by
  obtain ⟨s, hs⟩ := lt_size_iff_name?.mp (hg a ha)
  obtain ⟨t, ht⟩ := lt_size_iff_name?.mp (hg b hb)
  intro hname
  rw [nameOf_of_name? hs, nameOf_of_name? ht] at hname
  exact hab (hd a b s ha hb hs (hname ▸ ht))

namespace Renumbers

theorem reaches (hf : g.Renumbers f h) (hx : g.Reaches x) : h.Reaches (f x) := hf.reachable.mapsTo hx

theorem exists_eq (hf : g.Renumbers f h) (hx : h.Reaches x) : ∃ i, g.Reaches i ∧ f i = x :=
  hf.reachable.surjOn hx

theorem eq_iff (hf : g.Renumbers f h) (ha : g.Reaches a) (hb : g.Reaches b) : f a = f b ↔ a = b :=
  hf.reachable.injOn.eq_iff ha hb

theorem nameOf (hf : g.Renumbers f h) (hx : g.Reaches x) : h.nameOf (f x) = g.nameOf x :=
  congrArg (Option.getD · "") (hf.names x hx)

/-- A number no node has corresponds to another such. -/
theorem lt_size (hf : g.Renumbers f h) (hx : g.Reaches x) : f x < h.size ↔ x < g.size := by
  rw [lt_size_iff_name?, lt_size_iff_name?, hf.names x hx]

theorem grounded (hf : g.Renumbers f h) : h.Grounded ↔ g.Grounded := by
  constructor
  · intro hh x hx
    exact (hf.lt_size hx).mp (hh (f x) (hf.reaches hx))
  · intro hg y hy
    obtain ⟨x, hx, rfl⟩ := hf.exists_eq hy
    exact (hf.lt_size hx).mpr (hg x hx)

theorem mem_childrenOf (hf : g.Renumbers f h) (hx : g.Reaches x) (y : NodeId) :
    y ∈ h.childrenOf (f x) ↔ ∃ c ∈ g.childrenOf x, f c = y := by
  constructor
  · intro hy
    obtain ⟨c, hc, rfl⟩ := hf.exists_eq ((hf.reaches hx).child hy)
    exact ⟨c, (hf.edges x c hx hc).mp hy, rfl⟩
  · rintro ⟨c, hc, rfl⟩
    exact (hf.edges x c hx (hx.child hc)).mpr hc

/-- Sets of reachable nodes that correspond are sorted alike. -/
theorem sortByName (hf : g.Renumbers f h) (hg : g.Grounded) (hd : g.NamedApart) {s s' : NodeSet}
    (hs : ∀ x ∈ s, g.Reaches x) (hs' : ∀ y, y ∈ s' ↔ ∃ x ∈ s, f x = y) :
    h.sortByName s'.toList = (g.sortByName s.toList).map f := by
  have hnodup : (s.toList.map f).Nodup :=
    (IdSet.nodup_toList s).map_on fun a ha b hb hab => (hf.eq_iff (hs a ha) (hs b hb)).mp hab
  have hperm : s'.toList.Perm (s.toList.map f) := by
    refine (List.perm_ext_iff_of_nodup (IdSet.nodup_toList s') hnodup).mpr fun y => ?_
    rw [List.mem_map]
    exact hs' y
  have hapart : s.toList.Pairwise fun a b => g.nameOf a ≠ g.nameOf b :=
    List.Pairwise.imp_of_mem (fun ha hb hab => hd.nameOf_ne hg (hs _ ha) (hs _ hb) hab)
      (IdSet.nodup_toList s)
  exact sortByName_renumbered hperm (fun a ha => hf.nameOf (hs a ha)) hapart

theorem orderedChildren (hf : g.Renumbers f h) (hg : g.Grounded) (hd : g.NamedApart)
    (hx : g.Reaches x) : ∃ cs, g.orderedChildren true x = .ok cs ∧
      h.orderedChildren true (f x) = .ok (cs.map f) ∧ ∀ c ∈ cs, g.Reaches c := by
  have hkids : ∀ c ∈ g.childrenOf x, g.Reaches c := fun c hc => hx.child hc
  have hkids' : ∀ c ∈ h.childrenOf (f x), h.Reaches c := fun c hc => (hf.reaches hx).child hc
  have hg' : h.Grounded := hf.grounded.mpr hg
  have hleft : g.orderedChildren true x = .ok (g.sortByName (g.childrenOf x).toList) :=
    sortedChildren_eq_ok (hg x hx) fun c hc => hg c (hkids c hc)
  have hright : h.orderedChildren true (f x) = .ok (h.sortByName (h.childrenOf (f x)).toList) :=
    sortedChildren_eq_ok (hg' _ (hf.reaches hx)) fun c hc => hg' c (hkids' c hc)
  rw [hf.sortByName hg hd hkids (hf.mem_childrenOf hx)] at hright
  exact ⟨_, hleft, hright, fun c hc => hkids c (mem_sortByName.mp hc)⟩

end Renumbers

/-- Marks in two sorts that go on in step. -/
def InStep (f : NodeId → NodeId) (g : Plan) (s s' : NodeSet) : Prop :=
  ∀ x, g.Reaches x → (f x ∈ s' ↔ x ∈ s)

namespace InStep

variable {s s' : NodeSet}

theorem empty : InStep f g ∅ ∅ := fun x _ => by simp

theorem insert (hs : InStep f g s s') (hf : g.Renumbers f h) (hid : g.Reaches id) :
    InStep f g (s.insert id) (s'.insert (f id)) := by
  intro x hx
  rw [IdSet.mem_insert, IdSet.mem_insert, hf.eq_iff hx hid, hs x hx]

theorem erase (hs : InStep f g s s') (hf : g.Renumbers f h) (hid : g.Reaches id) :
    InStep f g (s.erase id) (s'.erase (f id)) := by
  intro x hx
  rw [IdSet.mem_erase, IdSet.mem_erase, ne_eq, hf.eq_iff hx hid, hs x hx]

end InStep

/-- Two sorts that start in step end in step: both are refused, or both place corresponding nodes. -/
theorem Renumbers.sortLoop (hf : g.Renumbers f h) (hg : g.Grounded) (hd : g.NamedApart)
    (todo : List Visit) (active marked active' marked' : NodeSet) (placed : List NodeId)
    (ht : ∀ v ∈ todo, g.Reaches v.node) (ha : InStep f g active active')
    (hm : InStep f g marked marked') :
    (h.sortLoop true (todo.map (.renumber f)) active' marked' (placed.map f)).toOption =
      (g.sortLoop true todo active marked placed).toOption.map (List.map f) := by
  -- the induction is on the first sort; each of its steps is a step of the second one
  generalize hby : true = byName
  fun_induction Plan.sortLoop g byName todo active marked placed generalizing active' marked' with
  | case1 active marked placed => rw [List.map_nil, sortLoop_nil]; rfl
  | case2 active marked placed id rest ih =>
    have hid : g.Reaches id := ht (.leave id) (by simp)
    have hrest : ∀ v ∈ rest, g.Reaches v.node := fun v hv => ht v (by simp [hv])
    rw [List.map_cons, Visit.renumber, sortLoop_leave, ← List.map_cons]
    exact ih _ _ hrest (ha.erase hf hid) hm
  | case3 active marked placed id rest hactive =>
    have hid : g.Reaches id := ht (.enter id) (by simp)
    rw [List.map_cons, Visit.renumber, sortLoop_active ((ha id hid).mpr hactive)]
    rfl
  | case4 active marked placed id rest hactive hmarked ih =>
    have hid : g.Reaches id := ht (.enter id) (by simp)
    have hrest : ∀ v ∈ rest, g.Reaches v.node := fun v hv => ht v (by simp [hv])
    rw [List.map_cons, Visit.renumber, sortLoop_marked (mt (ha id hid).mp hactive)
      ((hm id hid).mpr hmarked)]
    exact ih _ _ hrest ha hm
  | case5 active marked placed id rest hactive hmarked e he =>
    have hid : g.Reaches id := ht (.enter id) (by simp)
    obtain ⟨cs, hcs, _⟩ := hf.orderedChildren hg hd hid
    rw [hby, he] at hcs
    cases hcs
  | case6 active marked placed id rest hactive hmarked cs hc ih =>
    have hid : g.Reaches id := ht (.enter id) (by simp)
    obtain ⟨cs', hcs, hcs', hkids⟩ := hf.orderedChildren hg hd hid
    rw [hby, hc] at hcs
    cases hcs
    have htodo : ∀ v ∈ cs.map .enter ++ .leave id :: rest, g.Reaches v.node := by
      intro v hv
      rcases List.mem_append.mp hv with hv | hv
      · obtain ⟨c, hcmem, rfl⟩ := List.mem_map.mp hv
        exact hkids c hcmem
      · rcases List.mem_cons.mp hv with rfl | hv
        · exact hid
        · exact ht v (by simp [hv])
    rw [hby] at hcs'
    rw [List.map_cons, Visit.renumber, sortLoop_enter (mt (ha id hid).mp hactive)
      (mt (hm id hid).mp hmarked) hcs']
    have hnext := ih _ _ htodo (ha.insert hf hid) (hm.insert hf hid)
    simpa [Function.comp_def, Visit.renumber] using hnext

theorem Renumbers.topSort (hf : g.Renumbers f h) (hd : g.NamedApart) :
    (h.topSort true).toOption = (g.topSort true).toOption.map (List.map f) := by
  by_cases hg : g.Grounded
  · obtain ⟨v, hv, hseen⟩ := hg.visits_spec
    obtain ⟨v', hv', hseen'⟩ := (hf.grounded.mpr hg).visits_spec
    have hcorr : ∀ y, y ∈ v'.seen ↔ ∃ x ∈ v.seen, f x = y := by
      intro y
      rw [hseen' y]
      constructor
      · intro hy
        obtain ⟨x, hx, rfl⟩ := hf.exists_eq hy
        exact ⟨x, (hseen x).mpr hx, rfl⟩
      · rintro ⟨x, hx, rfl⟩
        exact hf.reaches ((hseen x).mp hx)
    have hstart := hf.sortByName hg hd (fun x hx => (hseen x).mp hx) hcorr
    have htodo : ∀ w ∈ (g.sortByName v.seen.toList).reverse.map Visit.enter, g.Reaches w.node := by
      intro w hw
      obtain ⟨x, hx, rfl⟩ := List.mem_map.mp hw
      exact (hseen x).mp (mem_sortByName.mp (List.mem_reverse.mp hx))
    have hrun := hf.sortLoop hg hd _ ∅ ∅ ∅ ∅ [] htodo .empty .empty
    rw [topSort_true hv, topSort_true hv', hstart, ← hrun]
    simp [Function.comp_def, Visit.renumber]
  · have hno : ∀ k : Plan, ¬ k.Grounded → (k.topSort true).toOption = none := by
      intro k hk
      cases ho : k.topSort true with
      | error e => rfl
      | ok order => exact absurd (grounded_of_topSort ho) hk
    rw [hno g hg, hno h (mt hf.grounded.mp hg)]
    rfl

/-- Sorts by name succeed together, with orders that correspond. -/
theorem Renumbers.topSort_eq_ok (hf : g.Renumbers f h) (hd : g.NamedApart) {order' : List NodeId} :
    h.topSort true = .ok order' ↔ ∃ order, g.topSort true = .ok order ∧ order.map f = order' := by
  rw [← toOption_eq_some, hf.topSort hd, Option.map_eq_some_iff]
  simp only [toOption_eq_some]

/-! What a fingerprint takes from a plan. -/

theorem name?_eq_some {s : String} :
    g.name? x = some s ↔ ∃ n, g.fetch x = .ok n ∧ n.output.name = s := by
  simp only [name?, output?, Option.map_map, Option.map_eq_some_iff, fetch_eq_ok, Function.comp]

theorem names_of_fetched {ids : List NodeId} {names : List String} :
    (∃ ns, ids.mapM g.fetch = .ok ns ∧ ns.map (·.output.name) = names) ↔
      List.Forall₂ (fun i s => g.name? i = some s) ids names := by
  simp only [mapM_eq_ok]
  constructor
  · rintro ⟨ns, hns, rfl⟩
    rw [List.forall₂_map_right_iff]
    exact hns.imp fun i n hn => name?_eq_some.mpr ⟨n, hn, rfl⟩
  · intro hs
    induction hs with
    | nil => exact ⟨[], .nil, rfl⟩
    | cons hi _ ih =>
      obtain ⟨n, hn, rfl⟩ := name?_eq_some.mp hi
      obtain ⟨ns, hns, rfl⟩ := ih
      exact ⟨n :: ns, .cons hn hns, rfl⟩

/-- An entry shows a node but for the parameters of its operator, and its inputs by their names. -/
structure Shows (g : Plan) (n : Node) (e : FingerprintEntry) : Prop where
  kind : e.kind = n.kind
  output : e.output = n.output
  isLocal : e.isLocal = n.isLocal
  isMpc : e.isMpc = n.isMpc
  parents : List.Forall₂ (fun i s => g.name? i = some s) n.sources e.parents

theorem fingerprintEntry_eq_ok {e : FingerprintEntry} :
    g.fingerprintEntry id = .ok e ↔ ∃ n, g.get? id = some n ∧ g.Shows n e := by
  rw [fingerprintEntry, except_bind_eq_ok]
  constructor
  · rintro ⟨n, hn, hrest⟩
    obtain ⟨ns, hns, he⟩ := except_bind_eq_ok.mp hrest
    cases he
    exact ⟨n, fetch_eq_ok.mp hn, rfl, rfl, rfl, rfl, names_of_fetched.mp ⟨ns, hns, rfl⟩⟩
  · rintro ⟨n, hn, hs⟩
    obtain ⟨ns, hns, hnames⟩ := names_of_fetched.mpr hs.parents
    refine ⟨n, fetch_eq_ok.mpr hn, except_bind_eq_ok.mpr ⟨ns, hns, congrArg Except.ok ?_⟩⟩
    cases e
    simp only [FingerprintEntry.mk.injEq]
    exact ⟨hs.kind.symm, hs.output.symm, hs.isLocal.symm, hs.isMpc.symm, hnames⟩

theorem fingerprintEntries_eq_ok {es : List FingerprintEntry} :
    g.fingerprintEntries byName = .ok es ↔ ∃ order, g.topSort byName = .ok order ∧
      List.Forall₂ (fun i e => g.fingerprintEntry i = .ok e) order es := by
  rw [fingerprintEntries, except_bind_eq_ok]
  simp only [mapM_eq_ok]

theorem fingerprint_eq_ok {digest : Digest} :
    g.fingerprint byName = .ok digest ↔ ∃ es, g.fingerprintEntries byName = .ok es ∧
      .ofText (Json.ofList FingerprintEntry.encode es).text = digest := by
  rw [fingerprint, except_bind_eq_ok]
  simp only [pure, Except.pure, Except.ok.injEq]

/-- Corresponding nodes are alike but for the parameters of their operators, and their inputs have
the same names. -/
structure Alike (g h : Plan) (n n' : Node) : Prop where
  kind : n'.kind = n.kind
  output : n'.output = n.output
  isLocal : n'.isLocal = n.isLocal
  isMpc : n'.isMpc = n.isMpc
  sources : n'.sources.map h.name? = n.sources.map g.name?

theorem Shows.alike {n n' : Node} {e : FingerprintEntry} (hs : g.Shows n e) (hs' : h.Shows n' e) :
    g.Alike h n n' := by
  have hnames : ∀ (k : Plan) (m : Node), k.Shows m e → m.sources.map k.name? = e.parents.map some := by
    intro k m hm
    exact map_eq_map_iff.mpr hm.parents
  exact ⟨hs'.kind.symm.trans hs.kind, hs'.output.symm.trans hs.output,
    hs'.isLocal.symm.trans hs.isLocal, hs'.isMpc.symm.trans hs.isMpc,
    (hnames h n' hs').trans (hnames g n hs).symm⟩

theorem Alike.shows_iff {n n' : Node} (ha : g.Alike h n n') {e : FingerprintEntry} :
    h.Shows n' e ↔ g.Shows n e := by
  have hparents : List.Forall₂ (fun i s => h.name? i = some s) n'.sources e.parents ↔
      List.Forall₂ (fun i s => g.name? i = some s) n.sources e.parents := by
    rw [← List.forall₂_map_left_iff (R := fun o s => o = some s), ha.sources,
      List.forall₂_map_left_iff]
  constructor
  · intro hs
    exact ⟨hs.kind.trans ha.kind, hs.output.trans ha.output, hs.isLocal.trans ha.isLocal,
      hs.isMpc.trans ha.isMpc, hparents.mp hs.parents⟩
  · intro hs
    exact ⟨hs.kind.trans ha.kind.symm, hs.output.trans ha.output.symm,
      hs.isLocal.trans ha.isLocal.symm, hs.isMpc.trans ha.isMpc.symm, hparents.mpr hs.parents⟩

def AllAlike (f : NodeId → NodeId) (g h : Plan) : Prop :=
  ∀ i n, g.Reaches i → g.get? i = some n → ∃ n', h.get? (f i) = some n' ∧ g.Alike h n n'

theorem Renumbers.fingerprintEntry (hf : g.Renumbers f h) (ha : g.AllAlike f h)
    (hx : g.Reaches x) {e : FingerprintEntry} :
    h.fingerprintEntry (f x) = .ok e ↔ g.fingerprintEntry x = .ok e := by
  simp only [fingerprintEntry_eq_ok]
  constructor
  · rintro ⟨n', hn', hs⟩
    obtain ⟨n, hn⟩ := lt_size_iff.mp ((hf.lt_size hx).mp (lt_size_iff.mpr ⟨n', hn'⟩))
    obtain ⟨m, hm, halike⟩ := ha x n hx hn
    cases hm.symm.trans hn'
    exact ⟨n, hn, halike.shows_iff.mp hs⟩
  · rintro ⟨n, hn, hs⟩
    obtain ⟨n', hn', halike⟩ := ha x n hx hn
    exact ⟨n', hn', halike.shows_iff.mpr hs⟩

theorem Renumbers.fingerprintEntries (hf : g.Renumbers f h) (hd : g.NamedApart)
    (ha : g.AllAlike f h) {es : List FingerprintEntry} :
    h.fingerprintEntries true = .ok es ↔ g.fingerprintEntries true = .ok es := by
  have hentries : ∀ order, (∀ x ∈ order, g.Reaches x) →
      (List.Forall₂ (fun i e => h.fingerprintEntry i = .ok e) (order.map f) es ↔
        List.Forall₂ (fun i e => g.fingerprintEntry i = .ok e) order es) := by
    intro order hreach
    rw [List.forall₂_map_left_iff]
    induction order generalizing es with
    | nil => simp
    | cons a order ih =>
      have hfirst := fun e => hf.fingerprintEntry ha (hreach a (by simp)) (e := e)
      have hrest := fun es => @ih es fun x hx => hreach x (by simp [hx])
      simp only [List.forall₂_cons_left_iff, hfirst, hrest]
  simp only [fingerprintEntries_eq_ok, hf.topSort_eq_ok hd]
  constructor
  · rintro ⟨_, ⟨order, horder, rfl⟩, hes⟩
    exact ⟨order, horder, (hentries order fun x hx => reaches_of_mem_topSort horder hx).mp hes⟩
  · rintro ⟨order, horder, hes⟩
    exact ⟨order.map f, ⟨order, horder, rfl⟩,
      (hentries order fun x hx => reaches_of_mem_topSort horder hx).mpr hes⟩

/-- Neither the order by name nor the fingerprint depends on the numbers of nodes or on what no root
leads to. -/
theorem order_and_fingerprint_renumbered (hf : g.Renumbers f h) (hd : g.NamedApart) :
    ((∃ order, g.topSort true = .ok order) ↔ ∃ order, h.topSort true = .ok order) ∧
    (∀ order, g.topSort true = .ok order → h.topSort true = .ok (order.map f) ∧
      (order.map f).map h.name? = order.map g.name?) ∧
    (g.AllAlike f h →
      (∀ es, g.fingerprintEntries true = .ok es ↔ h.fingerprintEntries true = .ok es) ∧
      ∀ digest, g.fingerprint true = .ok digest ↔ h.fingerprint true = .ok digest) := by
  refine ⟨?_, fun order horder => ⟨?_, ?_⟩, fun ha => ⟨fun es => ?_, fun digest => ?_⟩⟩
  · constructor
    · rintro ⟨order, horder⟩
      exact ⟨order.map f, (hf.topSort_eq_ok hd).mpr ⟨order, horder, rfl⟩⟩
    · rintro ⟨order', horder'⟩
      obtain ⟨order, horder, _⟩ := (hf.topSort_eq_ok hd).mp horder'
      exact ⟨order, horder⟩
  · exact (hf.topSort_eq_ok hd).mpr ⟨order, horder, rfl⟩
  · rw [List.map_map]
    exact List.map_congr_left fun x hx => hf.names x (reaches_of_mem_topSort horder hx)
  · exact (hf.fingerprintEntries hd ha).symm
  · simp only [fingerprint_eq_ok, hf.fingerprintEntries hd ha]

/-! Readings of two plans visit the nodes a correspondence is about, so it can be checked on them. -/

section Check

variable {v v' : Visits} (hv : g.visits = .ok v) (hv' : h.visits = .ok v')
include hv

theorem namedApart_of_visits
    (h : ∀ i ∈ v.seen.toList, ∀ j ∈ v.seen.toList, g.name? i = g.name? j → i = j) :
    g.NamedApart := by
  intro i j s hi hj his hjs
  exact h i ((mem_seen_iff hv).mpr hi) j ((mem_seen_iff hv).mpr hj) (his.trans hjs.symm)

theorem allAlike_of_visits (hsome : ∀ i ∈ v.seen.toList, (g.fingerprintEntry i).toOption.isSome)
    (hsame : ∀ i ∈ v.seen.toList,
      (h.fingerprintEntry (f i)).toOption = (g.fingerprintEntry i).toOption) :
    g.AllAlike f h := by
  intro i n hi hn
  have hmem : i ∈ v.seen.toList := (mem_seen_iff hv).mpr hi
  obtain ⟨e, he⟩ := Option.isSome_iff_exists.mp (hsome i hmem)
  have he' := (hsame i hmem).trans he
  obtain ⟨m, hm, hs⟩ := fingerprintEntry_eq_ok.mp (toOption_eq_some.mp he)
  obtain ⟨n', hn', hs'⟩ := fingerprintEntry_eq_ok.mp (toOption_eq_some.mp he')
  cases hm.symm.trans hn
  exact ⟨n', hn', hs.alike hs'⟩

include hv'

theorem renumbers_of_visits (hmaps : ∀ x ∈ v.seen.toList, f x ∈ v'.seen.toList)
    (hinj : ∀ a ∈ v.seen.toList, ∀ b ∈ v.seen.toList, f a = f b → a = b)
    (hsurj : ∀ y ∈ v'.seen.toList, ∃ x ∈ v.seen.toList, f x = y)
    (hedges : ∀ p ∈ v.seen.toList, ∀ c ∈ v.seen.toList,
      (f c ∈ h.childrenOf (f p) ↔ c ∈ g.childrenOf p))
    (hnames : ∀ x ∈ v.seen.toList, h.name? (f x) = g.name? x) : g.Renumbers f h := by
  have hseen : ∀ x, g.Reaches x ↔ x ∈ v.seen.toList := fun x => (mem_seen_iff hv).symm
  have hseen' : ∀ x, h.Reaches x ↔ x ∈ v'.seen.toList := fun x => (mem_seen_iff hv').symm
  refine ⟨⟨fun x hx => ?_, fun a ha b hb => ?_, fun y hy => ?_⟩, fun p c hp hc => ?_, fun x hx => ?_⟩
  · exact (hseen' (f x)).mpr (hmaps x ((hseen x).mp hx))
  · exact hinj a ((hseen a).mp ha) b ((hseen b).mp hb)
  · obtain ⟨x, hx, rfl⟩ := hsurj y ((hseen' y).mp hy)
    exact ⟨x, (hseen x).mpr hx, rfl⟩
  · exact hedges p ((hseen p).mp hp) c ((hseen c).mp hc)
  · exact hnames x ((hseen x).mp hx)

end Check

end Plan

def gathered : Plan :=
  (Call.afterAll [.build (.create "a" [⟨"k", .integer, .singleton 1⟩] (.singleton 1)),
    .build (.create "b" [⟨"k", .integer, .singleton 1⟩] (.singleton 2)),
    .build (.concat [0, 1] "c" none)] ⟨∅, []⟩).plan

/-- The same after a node that no root leads to, with the sources the other way round. -/
def gatheredLater : Plan :=
  (Call.afterAll [.addNode .create "idle" [] ∅,
    .build (.create "b" [⟨"k", .integer, .singleton 1⟩] (.singleton 2)),
    .build (.create "a" [⟨"k", .integer, .singleton 1⟩] (.singleton 1)),
    .build (.concat [2, 1] "c" none)] ⟨∅, []⟩).plan

def exchanged : NodeId → NodeId
  | 0 => 2
  | 1 => 1
  | n => n + 1

theorem gathered_renumbered : gathered.Renumbers exchanged gatheredLater ∧ gathered.NamedApart ∧
    gathered.AllAlike exchanged gatheredLater ∧ gatheredLater.topSort true = .ok [2, 1, 3] ∧
    ∀ es, gathered.fingerprintEntries true = .ok es ↔
      gatheredLater.fingerprintEntries true = .ok es := by
  have hseen : gathered.visits.toOption.map (·.seen.toList) = some [0, 1, 2] := by decide +kernel
  have hseen' : gatheredLater.visits.toOption.map (·.seen.toList) = some [1, 2, 3] := by
    decide +kernel
  simp only [Option.map_eq_some_iff, toOption_eq_some] at hseen hseen'
  obtain ⟨v, hv, hl⟩ := hseen
  obtain ⟨v', hv', hl'⟩ := hseen'
  have hf : gathered.Renumbers exchanged gatheredLater := by
    apply Plan.renumbers_of_visits hv hv'
    all_goals simp only [hl, hl']
    all_goals decide +kernel
  have hd : gathered.NamedApart := by
    apply Plan.namedApart_of_visits hv
    rw [hl]
    decide
  have ha : gathered.AllAlike exchanged gatheredLater := by
    apply Plan.allAlike_of_visits hv
    all_goals rw [hl]
    all_goals decide +kernel
  obtain ⟨_, horder, hprint⟩ := Plan.order_and_fingerprint_renumbered hf hd
  exact ⟨hf, hd, ha, (horder [0, 1, 2] (by decide +kernel)).1, (hprint ha).1⟩

end PartyPlan
