/-! Finite sets of identifiers, kept as strictly increasing lists. A set is determined by its
members, so two sets with the same members are equal, and every operation is known by what it does
to membership. -/
namespace PartyPlan

abbrev Party := Nat

/-- A node of a plan, named by its position in the plan's node table. -/
abbrev NodeId := Nat

/-- A finite set of identifiers, listed in increasing order without repetition. -/
structure IdSet where
  toList : List Nat
  increasing : toList.Pairwise (· < ·)
deriving DecidableEq

abbrev PartySet := IdSet
abbrev NodeSet := IdSet

namespace IdSet

instance : Membership Nat IdSet := ⟨fun s a => a ∈ s.toList⟩

theorem mem_def {s : IdSet} {a : Nat} : a ∈ s ↔ a ∈ s.toList := Iff.rfl

instance (a : Nat) (s : IdSet) : Decidable (a ∈ s) :=
  inferInstanceAs (Decidable (a ∈ s.toList))

def empty : IdSet := ⟨[], .nil⟩

instance : EmptyCollection IdSet := ⟨empty⟩
instance : Inhabited IdSet := ⟨∅⟩

@[simp] theorem toList_empty : (∅ : IdSet).toList = [] := rfl
@[simp] theorem not_mem_empty (a : Nat) : ¬ a ∈ (∅ : IdSet) := by simp [mem_def]

/-- Place `a` in an increasing list, unless it is there already. -/
def insertList (a : Nat) : List Nat → List Nat
  | [] => [a]
  | b :: bs => if a < b then a :: b :: bs else if a = b then b :: bs else b :: insertList a bs

theorem mem_insertList {a c : Nat} {l : List Nat} : c ∈ insertList a l ↔ c = a ∨ c ∈ l := by
  induction l with
  | nil => simp [insertList]
  | cons b bs ih =>
    simp only [insertList]
    split
    · simp
    · split
      · simp_all
      · simp only [List.mem_cons, ih]; grind

theorem insertList_increasing (a : Nat) {l : List Nat} (h : l.Pairwise (· < ·)) :
    (insertList a l).Pairwise (· < ·) := by
  induction l with
  | nil => simp [insertList]
  | cons b bs ih =>
    obtain ⟨hb, hbs⟩ := List.pairwise_cons.mp h
    simp only [insertList]
    split
    · next hab =>
      refine List.pairwise_cons.mpr ⟨fun c hc => ?_, h⟩
      rcases List.mem_cons.mp hc with rfl | hc
      · exact hab
      · exact Nat.lt_trans hab (hb c hc)
    · next hab =>
      split
      · exact h
      · next hne =>
        refine List.pairwise_cons.mpr ⟨fun c hc => ?_, ih hbs⟩
        rcases mem_insertList.mp hc with rfl | hc
        · omega
        · exact hb c hc

def insert (s : IdSet) (a : Nat) : IdSet :=
  ⟨insertList a s.toList, insertList_increasing a s.increasing⟩

@[simp] theorem mem_insert {s : IdSet} {a c : Nat} : c ∈ s.insert a ↔ c = a ∨ c ∈ s :=
  mem_insertList

def erase (s : IdSet) (a : Nat) : IdSet :=
  ⟨s.toList.filter (· ≠ a), s.increasing.filter _⟩

@[simp] theorem mem_erase {s : IdSet} {a c : Nat} : c ∈ s.erase a ↔ c ∈ s ∧ c ≠ a := by
  simp [erase, mem_def]

/-- The members of a list, in any order and with any repetition. -/
def ofList (l : List Nat) : IdSet := l.foldl insert ∅

theorem mem_foldl_insert {l : List Nat} {s : IdSet} {c : Nat} :
    c ∈ l.foldl insert s ↔ c ∈ l ∨ c ∈ s := by
  induction l generalizing s with
  | nil => simp
  | cons b bs ih => simp only [List.foldl_cons, ih, mem_insert, List.mem_cons]; grind

@[simp] theorem mem_ofList {l : List Nat} {c : Nat} : c ∈ ofList l ↔ c ∈ l := by
  simp [ofList, mem_foldl_insert]

def singleton (a : Nat) : IdSet := ⟨[a], by simp⟩

@[simp] theorem mem_singleton {a c : Nat} : c ∈ singleton a ↔ c = a := by
  simp [singleton, mem_def]

def union (s t : IdSet) : IdSet := t.toList.foldl insert s

@[simp] theorem mem_union {s t : IdSet} {c : Nat} : c ∈ s.union t ↔ c ∈ s ∨ c ∈ t := by
  rw [union, mem_foldl_insert]; exact Or.comm

def inter (s t : IdSet) : IdSet := ⟨s.toList.filter (· ∈ t), s.increasing.filter _⟩

@[simp] theorem mem_inter {s t : IdSet} {c : Nat} : c ∈ s.inter t ↔ c ∈ s ∧ c ∈ t := by
  simp [inter, mem_def]

def unions (sets : List IdSet) : IdSet := sets.foldl union ∅

def size (s : IdSet) : Nat := s.toList.length

def isEmpty (s : IdSet) : Bool := s.toList.isEmpty

def min? (s : IdSet) : Option Nat := s.toList.head?

/-- Sets with the same members are equal. -/
@[ext] theorem ext {s t : IdSet} (h : ∀ a, a ∈ s ↔ a ∈ t) : s = t := by
  obtain ⟨l, hl⟩ := s
  obtain ⟨m, hm⟩ := t
  simp only [mem_def] at h
  suffices l = m by subst this; rfl
  induction l generalizing m with
  | nil =>
    cases m with
    | nil => rfl
    | cons b bs => exact absurd ((h b).mpr (by simp)) (by simp)
  | cons a as ih =>
    cases m with
    | nil => exact absurd ((h a).mp (by simp)) (by simp)
    | cons b bs =>
      obtain ⟨ha, has⟩ := List.pairwise_cons.mp hl
      obtain ⟨hb, hbs⟩ := List.pairwise_cons.mp hm
      have hab : a = b := by
        rcases List.mem_cons.mp ((h a).mp (by simp)) with e | e
        · exact e
        · rcases List.mem_cons.mp ((h b).mpr (by simp)) with e' | e'
          · exact e'.symm
          · exact absurd (ha b e') (Nat.lt_asymm (hb a e))
      subst hab
      refine congrArg (a :: ·) (ih has bs hbs fun c => ?_)
      have hc := h c
      simp only [List.mem_cons] at hc
      constructor
      · intro hm
        rcases hc.mp (.inr hm) with e | e
        · exact absurd (ha c hm) (by omega)
        · exact e
      · intro hm
        rcases hc.mpr (.inr hm) with e | e
        · exact absurd (hb c hm) (by omega)
        · exact e

end IdSet
end PartyPlan
