import PartyPlan.Plan.Edit

/-! What an edit is sure to leave behind. An edit can be refused after it has changed the plan, so
every statement about one has two ends: what holds of the plan when the edit succeeds and what holds
of it when the edit is refused. -/
namespace PartyPlan

theorem Plan.lt_size_iff {g : Plan} {id : NodeId} : id < g.size ↔ ∃ n, g.get? id = some n := by
  constructor
  · intro h
    exact ⟨_, Array.getElem?_eq_getElem h⟩
  · rintro ⟨n, hn⟩
    exact (Array.getElem?_eq_some_iff.mp hn).1

theorem Plan.lt_size {g : Plan} {id : NodeId} {n : Node} (h : g.get? id = some n) : id < g.size :=
  Plan.lt_size_iff.mpr ⟨n, h⟩

namespace Edit

variable {α β : Type} {P P' : Plan → Prop} {Q Q' : α → Plan → Prop} {R R' : Error → Plan → Prop}

/-- Work on a plan of which `P` holds ends in one of which `Q` holds, or is refused and leaves one of
which `R` holds. -/
def Meets (P : Plan → Prop) (x : Edit α) (Q : α → Plan → Prop) (R : Error → Plan → Prop) : Prop :=
  ∀ d : Draft, P d.plan → match x.apply d with
    | (.ok a, d') => Q a d'.plan
    | (.error e, d') => R e d'.plan

namespace Meets

theorem mono {x : Edit α} (h : Meets P x Q R) (hp : ∀ g, P' g → P g)
    (hq : ∀ a g, Q a g → Q' a g) (hr : ∀ e g, R e g → R' e g) : Meets P' x Q' R' := by
  intro d hd
  have hx := h d (hp _ hd)
  split at hx
  · exact hq _ _ hx
  · exact hr _ _ hx

/-- The parts of a precondition may be used apart. -/
theorem and {x : Edit α} (h : Meets P x Q R) (h' : Meets P' x Q' R') :
    Meets (fun g => P g ∧ P' g) x (fun a g => Q a g ∧ Q' a g) (fun e g => R e g ∧ R' e g) := by
  intro d hd
  have h₁ := h d hd.1
  have h₂ := h' d hd.2
  split at h₁ <;> rename_i hx <;> simp only [hx] at h₂ ⊢ <;> exact ⟨h₁, h₂⟩

theorem pure {a : α} (h : ∀ g, P g → Q a g) : Meets P (pure a) Q R := fun _ hd => h _ hd

theorem bind {x : Edit α} {f : α → Edit β} {M : α → Plan → Prop} {Q : β → Plan → Prop}
    (hx : Meets P x M R) (hf : ∀ a, Meets (M a) (f a) Q R) : Meets P (x >>= f) Q R := by
  intro d hd
  have h₁ := hx d hd
  rw [apply_bind]
  cases hd' : x.apply d with
  | mk result next =>
    rw [hd'] at h₁
    cases result with
    | ok a => exact hf a next h₁
    | error e => exact h₁

theorem throw {e : Error} (h : ∀ g, P g → R e g) : Meets P (throw e : Edit α) Q R :=
  fun _ hd => h _ hd

theorem settle {x : Except Error α} (hok : ∀ a, x = .ok a → ∀ g, P g → Q a g)
    (hno : ∀ e, x = .error e → ∀ g, P g → R e g) : Meets P (settle x) Q R := by
  intro d hd
  cases x with
  | ok a => exact hok a rfl _ hd
  | error e => exact hno e rfl _ hd

theorem ask {question : Plan → Except Error α} (hok : ∀ g a, P g → question g = .ok a → Q a g)
    (hno : ∀ g e, P g → question g = .error e → R e g) : Meets P (ask question) Q R := by
  intro d hd
  rw [apply_ask]
  cases h : question d.plan with
  | ok a => exact hok _ a hd h
  | error e => exact hno _ e hd h

/-- A question whose answer is known. -/
theorem ask_known {question : Plan → Except Error α} {g : Plan} {a : α} (ha : question g = .ok a) :
    Meets (· = g) (Edit.ask question) (fun b h => h = g ∧ b = a) R := by
  refine ask ?_ ?_
  · rintro h b rfl hb
    exact ⟨rfl, Except.ok.inj (hb.symm.trans ha)⟩
  · rintro h e rfl he
    cases he.symm.trans ha

theorem plan {Q : Plan → Plan → Prop} (h : ∀ g, P g → Q g g) : Meets P plan Q R :=
  fun _ hd => h _ hd

theorem change {f : Plan → Plan} {Q : Unit → Plan → Prop} (h : ∀ g, P g → Q () (f g)) :
    Meets P (change f) Q R := fun _ hd => h _ hd

theorem report {e : Event} {Q : Unit → Plan → Prop} (h : ∀ g, P g → Q () g) :
    Meets P (report e) Q R := fun _ hd => h _ hd

/-- A loop keeps an invariant that may speak of the members still to come. -/
theorem forM {f : β → Edit Unit} {I : List β → Plan → Prop}
    (h : ∀ b rest, Meets (I (b :: rest)) (f b) (fun _ => I rest) R) (l : List β) :
    Meets (I l) (l.forM f) (fun _ => I []) R := by
  induction l with
  | nil => exact pure fun _ hg => hg
  | cons b rest ih => exact bind (h b rest) fun _ => ih

theorem node {id : NodeId} {Q : Node → Plan → Prop}
    (hok : ∀ g n, P g → g.get? id = some n → Q n g)
    (hno : ∀ g, P g → ¬ id < g.size → R (.unknownNode id) g) : Meets P (node id) Q R := by
  refine ask (fun g n hg h => ?_) (fun g e hg h => ?_)
  · cases hn : g.get? id <;> simp only [Plan.node, hn] at h <;> cases h
    exact hok g n hg hn
  · cases hn : g.get? id <;> simp only [Plan.node, hn] at h <;> cases h
    exact hno g hg (by simp [Plan.lt_size_iff, hn])

theorem fetch {id : NodeId} {Q : Node → Plan → Prop}
    (hok : ∀ g n, P g → g.get? id = some n → Q n g)
    (hno : ∀ g, P g → ¬ id < g.size → R (.outOfRange g.size id) g) : Meets P (fetch id) Q R := by
  refine ask (fun g n hg h => ?_) (fun g e hg h => ?_)
  · cases hn : g.get? id <;> simp only [Plan.fetch, hn] at h <;> cases h
    exact hok g n hg hn
  · cases hn : g.get? id <;> simp only [Plan.fetch, hn] at h <;> cases h
    exact hno g hg (by simp [Plan.lt_size_iff, hn])

theorem require {id : NodeId} {Q : Unit → Plan → Prop} (hok : ∀ g, P g → id < g.size → Q () g)
    (hno : ∀ g, P g → ¬ id < g.size → R (.unknownNode id) g) : Meets P (require id) Q R :=
  bind (M := fun _ g => Q () g) (node (fun g _ hg h => hok g hg (Plan.lt_size h)) hno)
    fun _ => pure fun _ hg => hg

theorem addNode {op : Operator} {output : Relation} {Q : NodeId → Plan → Prop}
    (h : ∀ g, P g → Q g.size (g.push op output)) : Meets P (addNode op output) Q R :=
  fun _ hd => h _ hd

theorem addRoot {id : NodeId} {Q : Unit → Plan → Prop}
    (hok : ∀ g, P g → id < g.size → Q () { g with roots := g.roots.insert id })
    (hno : ∀ g, P g → ¬ id < g.size → R (.unknownNode id) g) : Meets P (addRoot id) Q R :=
  bind (M := fun _ g => P g ∧ id < g.size) (require (fun _ hg h => ⟨hg, h⟩) hno)
    fun _ => change fun g hg => hok g hg.1 hg.2

theorem setFlags {id : NodeId} {isLocal isMpc : Option Bool} {Q : Unit → Plan → Prop}
    (hok : ∀ g, P g → id < g.size → Q () (g.update id fun n =>
      { n with isLocal := isLocal.getD n.isLocal, isMpc := isMpc.getD n.isMpc }))
    (hno : ∀ g, P g → ¬ id < g.size → R (.unknownNode id) g) :
    Meets P (setFlags id isLocal isMpc) Q R :=
  bind (M := fun _ g => P g ∧ id < g.size) (require (fun _ hg h => ⟨hg, h⟩) hno)
    fun _ => change fun g hg => hok g hg.1 hg.2

theorem setHolders {id : NodeId} {s : PartySet} {Q : Unit → Plan → Prop}
    (hok : ∀ g, P g → id < g.size → Q () (g.update id (.heldBy s)))
    (hno : ∀ g, P g → ¬ id < g.size → R (.unknownNode id) g) : Meets P (setHolders id s) Q R :=
  bind (M := fun _ g => P g ∧ id < g.size) (require (fun _ hg h => ⟨hg, h⟩) hno)
    fun _ => change fun g hg => hok g hg.1 hg.2

theorem link {p c : NodeId} {Q : Unit → Plan → Prop}
    (hok : ∀ g, P g → p < g.size → c < g.size → Q () (g.addEdge p c))
    (hno : ∀ g e, P g → ¬ (p < g.size ∧ c < g.size) → R e g) : Meets P (link p c) Q R := by
  refine bind (M := fun _ g => P g ∧ p < g.size)
    (require (fun _ hg h => ⟨hg, h⟩) fun g hg h => hno g _ hg fun hp => h hp.1) fun _ => ?_
  refine bind (M := fun _ g => P g ∧ p < g.size ∧ c < g.size)
    (require (fun _ hg h => ⟨hg.1, hg.2, h⟩) fun g hg h => hno g _ hg.1 fun hp => h hp.2) fun _ => ?_
  exact change fun g hg => hok g hg.1 hg.2.1 hg.2.2

theorem requireEdge {p c : NodeId} {Q : Unit → Plan → Prop}
    (hok : ∀ g, P g → p < g.size → c < g.size → g.hasEdge p c = true → Q () g)
    (hno : ∀ g e, P g → ¬ (c < g.size ∧ g.hasEdge p c = true) → R e g) :
    Meets P (requireEdge p c) Q R := by
  have hedge : ∀ g : Plan, ¬ p < g.size → ¬ g.hasEdge p c = true := by
    intro g hp
    have hn : g.get? p = none := by simpa [Plan.lt_size_iff, Option.eq_none_iff_forall_ne_some] using hp
    simp [Plan.hasEdge, hn]
  refine bind (M := fun _ g => P g ∧ p < g.size)
    (require (fun _ hg h => ⟨hg, h⟩) fun g hg h => hno g _ hg fun he => hedge g h he.2) fun _ => ?_
  refine bind (M := fun _ g => P g ∧ p < g.size ∧ c < g.size)
    (require (fun _ hg h => ⟨hg.1, hg.2, h⟩) fun g hg h => hno g _ hg.1 fun he => h he.1) fun _ => ?_
  refine bind (M := fun h g => h = g ∧ P g ∧ p < g.size ∧ c < g.size)
    (plan fun _ hg => ⟨rfl, hg⟩) fun h => ?_
  split
  · exact pure fun g ⟨hh, hg, hp, hc⟩ => hok g hg hp hc (hh ▸ ‹h.hasEdge p c = true›)
  · exact throw fun g ⟨hh, hg, _⟩ => hno g _ hg fun he => ‹¬ h.hasEdge p c = true› (hh ▸ he.2)

theorem removeParent {c p : NodeId} {Q : Unit → Plan → Prop}
    (hok : ∀ g n inputs, P g → p < g.size → g.hasEdge p c = true → g.get? c = some n →
      n.inputs.detach p = .ok inputs → Q () (g.dropEdge p c inputs))
    (hno : ∀ g e, P g → (∀ n inputs, g.hasEdge p c = true → g.get? c = some n →
      n.inputs.detach p ≠ .ok inputs) → R e g) : Meets P (removeParent c p) Q R := by
  refine bind (M := fun _ g => P g ∧ p < g.size ∧ g.hasEdge p c = true)
    (requireEdge (fun _ hg hp _ he => ⟨hg, hp, he⟩) fun g e hg h =>
      hno g e hg fun n _ he hn _ => h ⟨Plan.lt_size hn, he⟩) fun _ => ?_
  refine bind (M := fun n g => P g ∧ p < g.size ∧ g.hasEdge p c = true ∧ g.get? c = some n)
    (node (fun _ _ hg hn => ⟨hg.1, hg.2.1, hg.2.2, hn⟩) fun g hg h =>
      hno g _ hg.1 fun n _ _ hn _ => h (Plan.lt_size hn)) fun n => ?_
  refine bind (M := fun inputs g => P g ∧ p < g.size ∧ g.hasEdge p c = true ∧
    g.get? c = some n ∧ n.inputs.detach p = .ok inputs)
    (settle (fun _ h g hg => ⟨hg.1, hg.2.1, hg.2.2.1, hg.2.2.2, h⟩) fun e h g hg =>
      hno g e hg.1 fun m _ _ hm hd => ?_) fun inputs => ?_
  · rw [hg.2.2.2] at hm
    cases hm
    simp [h] at hd
  · exact change fun g hg => hok g n inputs hg.1 hg.2.1 hg.2.2.1 hg.2.2.2.1 hg.2.2.2.2

theorem replaceParent {c old new : NodeId} {Q : Unit → Plan → Prop}
    (hok : ∀ g, P g → old < g.size → c < g.size → new < g.size → g.hasEdge old c = true →
      Q () (g.moveEdge c old new))
    (hno : ∀ g e, P g → ¬ (c < g.size ∧ new < g.size ∧ g.hasEdge old c = true) → R e g) :
    Meets P (replaceParent c old new) Q R := by
  refine bind (M := fun _ g => P g ∧ old < g.size ∧ c < g.size ∧ g.hasEdge old c = true)
    (requireEdge (fun _ hg ho hc he => ⟨hg, ho, hc, he⟩) fun g e hg h =>
      hno g e hg fun he => h ⟨he.1, he.2.2⟩) fun _ => ?_
  refine bind (M := fun _ g => (P g ∧ old < g.size ∧ c < g.size ∧ g.hasEdge old c = true) ∧
    new < g.size) (require (fun _ hg h => ⟨hg, h⟩) fun g hg h =>
      hno g _ hg.1 fun he => h he.2.1) fun _ => ?_
  exact change fun g ⟨⟨hg, ho, hc, he⟩, hn⟩ => hok g hg ho hc hn he

theorem refreshColumns {id : NodeId} {Q : Unit → Plan → Prop}
    (hok : ∀ g n op, P g → g.get? id = some n →
      n.op.refresh (g.operatorInputs id) = ⟨op, .ok ()⟩ → Q () (g.update id ({ · with op })))
    (hno : ∀ g n op e, P g → g.get? id = some n →
      n.op.refresh (g.operatorInputs id) = ⟨op, .error e⟩ → R e (g.update id ({ · with op })))
    (hun : ∀ g, P g → ¬ id < g.size → R (.unknownNode id) g) :
    Meets P (refreshColumns id) Q R := by
  refine bind (M := fun h g => h = g ∧ P g) (plan fun _ hg => ⟨rfl, hg⟩) fun h => ?_
  refine bind (M := fun n g => h = g ∧ P g ∧ g.get? id = some n)
    (node (fun _ _ hg hn => ⟨hg.1, hg.2, hn⟩) fun g hg hn => hun g hg.2 hn) fun n => ?_
  cases hr : n.op.refresh (h.operatorInputs id) with
  | mk op outcome =>
    refine bind (M := fun _ g' => ∃ g, (h = g ∧ P g ∧ g.get? id = some n) ∧
      g' = g.update id ({ · with op })) (change fun g hg => ⟨g, hg, rfl⟩) fun _ => ?_
    refine settle (fun u hu g' hg' => ?_) fun e he g' hg' => ?_
    · obtain ⟨g, ⟨rfl, hg, hn⟩, rfl⟩ := hg'
      subst hu
      exact hok h n op hg hn hr
    · obtain ⟨g, ⟨rfl, hg, hn⟩, rfl⟩ := hg'
      subst he
      exact hno h n op e hg hn hr

theorem refreshHolders {id : NodeId} {Q : Unit → Plan → Prop}
    (hsame : ∀ g n, P g → g.get? id = some n → g.derivedHolders? n id = none → Q () g)
    (hset : ∀ g n s, P g → g.get? id = some n → g.derivedHolders? n id = some s →
      Q () (g.update id (.heldBy s)))
    (hun : ∀ g, P g → ¬ id < g.size → R (.unknownNode id) g) :
    Meets P (refreshHolders id) Q R := by
  refine bind (M := fun h g => h = g ∧ P g) (plan fun _ hg => ⟨rfl, hg⟩) fun h => ?_
  refine bind (M := fun n g => h = g ∧ P g ∧ g.get? id = some n)
    (node (fun _ _ hg hn => ⟨hg.1, hg.2, hn⟩) fun g hg hn => hun g hg.2 hn) fun n => ?_
  cases hs : h.derivedHolders? n id with
  | none => exact pure fun g ⟨hh, hg, hn⟩ => hsame g n hg hn (hh ▸ hs)
  | some s =>
    exact setHolders (fun g ⟨hh, hg, hn⟩ _ => hset g n s hg hn (hh ▸ hs))
      fun g ⟨_, hg, hn⟩ h => hun g hg h

/-- A fact that does not depend on the plan can be taken out of the precondition. -/
theorem of_fact {x : Edit α} {F : Prop} (h : F → Meets P x Q R) :
    Meets (fun g => P g ∧ F) x Q R := fun d hd => h hd.2 d hd.1

/-- What holds of the work on each single plan holds of the work on any of them. -/
theorem of_each {x : Edit α} (h : ∀ g, P g → Meets (· = g) x Q R) : Meets P x Q R :=
  fun d hd => h d.plan hd d rfl

/-- Work ends in one of its two ways. -/
theorem outcome {x : Edit α} {d : Draft} (h : Meets P x Q R) (hd : P d.plan) :
    (∃ e d', x.apply d = (.error e, d') ∧ R e d'.plan) ∨
    ∃ a d', x.apply d = (.ok a, d') ∧ Q a d'.plan := by
  have hx := h d hd
  split at hx
  · next a d' he => exact .inr ⟨a, d', he, hx⟩
  · next e d' he => exact .inl ⟨e, d', he, hx⟩

/-- Work that is never refused has a result. -/
theorem succeeds {x : Edit α} {d : Draft} (h : Meets P x Q fun _ _ => False) (hd : P d.plan) :
    ∃ a d', x.apply d = (.ok a, d') ∧ Q a d'.plan :=
  (h.outcome hd).resolve_left fun ⟨_, _, _, hno⟩ => hno

theorem of_exists {x : Edit α} {P : β → Plan → Prop} (h : ∀ b, Meets (P b) x Q R) :
    Meets (fun g => ∃ b, P b g) x Q R := fun d ⟨b, hb⟩ => h b d hb

end Meets

/-- An edit that keeps a property `I` of the plan when it succeeds, and leaves `R` when it is refused.
With `R` the same as `I` the property is kept in any case. -/
def Keeps (I R : Plan → Prop) (x : Edit α) : Prop := Meets I x (fun _ => I) (fun _ => R)

namespace Keeps

variable {I R : Plan → Prop}

theorem bind {x : Edit α} {f : α → Edit β} (hx : Keeps I R x) (hf : ∀ a, Keeps I R (f a)) :
    Keeps I R (x >>= f) := Meets.bind hx hf

theorem pure (a : α) : Keeps I R (pure a) := Meets.pure fun _ hg => hg

theorem plan : Keeps I R plan := Meets.plan fun _ hg => hg

theorem report (e : Event) : Keeps I R (report e) := Meets.report fun _ hg => hg

theorem forM {f : β → Edit Unit} (h : ∀ b, Keeps I R (f b)) (l : List β) : Keeps I R (l.forM f) :=
  Meets.forM (I := fun _ => I) (fun b _ => h b) l

theorem mapM {f : α → Edit β} (h : ∀ a, Keeps I R (f a)) (l : List α) : Keeps I R (l.mapM f) := by
  induction l with
  | nil => exact pure _
  | cons a l ih =>
    rw [List.mapM_cons]
    exact bind (h a) fun _ => bind ih fun _ => pure _

/-! Work that only reads the plan keeps everything. -/

variable (hR : ∀ g, I g → R g)
include hR

theorem throw (e : Error) : Keeps I R (throw e : Edit α) := Meets.throw hR

theorem settle (x : Except Error α) : Keeps I R (settle x) :=
  Meets.settle (fun _ _ _ hg => hg) fun _ _ => hR

theorem ask (question : Plan → Except Error α) : Keeps I R (ask question) :=
  Meets.ask (fun _ _ hg _ => hg) fun g _ hg _ => hR g hg

/-- Work that goes on with a settled value may use where the value comes from. -/
theorem settle_bind {x : Except Error α} {f : α → Edit β} (h : ∀ a, x = .ok a → Keeps I R (f a)) :
    Keeps I R (Edit.settle x >>= f) := by
  refine Meets.bind (M := fun a g => I g ∧ x = .ok a)
    (Meets.settle (fun a ha g hg => ⟨hg, ha⟩) fun _ _ => hR) fun a => ?_
  exact Meets.of_fact fun ha => h a ha

/-- Work that goes on with an answer may use the question. -/
theorem ask_bind {question : Plan → Except Error α} {f : α → Edit β}
    (h : ∀ a, Meets (fun g => I g ∧ question g = .ok a) (f a) (fun _ => I) fun _ => R) :
    Keeps I R (Edit.ask question >>= f) :=
  Meets.bind (Meets.ask (fun _ _ hg ha => ⟨hg, ha⟩) fun g _ hg _ => hR g hg) h

theorem node (id : NodeId) : Keeps I R (node id) := ask hR _

theorem fetch (id : NodeId) : Keeps I R (fetch id) := ask hR _

theorem require (id : NodeId) : Keeps I R (require id) := bind (node hR id) fun _ => pure _

end Keeps
end Edit
end PartyPlan
