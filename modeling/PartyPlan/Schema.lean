import PartyPlan.Error
import PartyPlan.Text.Blank

/-! Relations and their columns. A column carries the parties that together could read it in the
clear, a relation the parties that hold it. -/
namespace PartyPlan

inductive ScalarType where
  | integer
  | float
  | string
  | boolean
deriving DecidableEq

namespace ScalarType

def name : ScalarType → String
  | integer => "INTEGER"
  | float => "FLOAT"
  | string => "STRING"
  | boolean => "BOOLEAN"

/-- Read a type's name, or one of its short names, in any case. -/
def parse (s : String) : Except Error ScalarType :=
  match Text.upper s with
  | "INTEGER" | "INT" | "I64" => .ok integer
  | "FLOAT" | "F64" => .ok float
  | "STRING" | "UTF8" => .ok string
  | "BOOLEAN" | "BOOL" => .ok boolean
  | other => .error (.argument (.unknownType other))

end ScalarType

/-- A column of the relation `owner`, at position `index` of it. `colluders` are the parties who
together could reconstruct its values. -/
structure Column where
  owner : String
  name : String
  index : Nat
  type : ScalarType
  colluders : PartySet
deriving DecidableEq

namespace Column

def label (c : Column) : String := c.owner ++ "." ++ c.name

def cleared (c : Column) : Column := { c with colluders := ∅ }

def named (c : Column) (name : String) : Column := { c with name }

def placed (c : Column) (owner : String) (index : Nat) : Column := { c with owner, index }

@[simp] theorem colluders_cleared (c : Column) : c.cleared.colluders = ∅ := rfl
@[simp] theorem index_placed (c : Column) (o : String) (i : Nat) : (c.placed o i).index = i := rfl
@[simp] theorem owner_placed (c : Column) (o : String) (i : Nat) : (c.placed o i).owner = o := rfl

def declaration (c : Column) : String := c.name ++ " " ++ c.type.name

end Column

/-- A named list of columns and the parties that hold it. -/
structure Relation where
  name : String
  columns : List Column
  holders : PartySet
deriving DecidableEq

def partyList (s : PartySet) : String :=
  "\x7b" ++ Text.join ", " (s.toList.map toString) ++ "\x7d"

namespace Relation

/-- A relation from any columns: each is given its position and the relation's name. -/
def stamped (name : String) (columns : List Column) (holders : PartySet) : Relation :=
  { name, holders, columns := columns.mapIdx fun i c => c.placed name i }

/-- Every column stands where it says, in the relation it says. -/
def WellFormed (r : Relation) : Prop :=
  ∀ (i : Nat) (c : Column), r.columns[i]? = some c → c.index = i ∧ c.owner = r.name

theorem stamped_wellFormed (name : String) (columns : List Column) (holders : PartySet) :
    (stamped name columns holders).WellFormed := by
  intro i c h
  simp only [stamped, List.getElem?_mapIdx, Option.map_eq_some_iff] at h
  obtain ⟨_, _, rfl⟩ := h
  exact ⟨rfl, rfl⟩

@[simp] theorem name_stamped (n : String) (cs : List Column) (h : PartySet) :
    (stamped n cs h).name = n := rfl
@[simp] theorem holders_stamped (n : String) (cs : List Column) (h : PartySet) :
    (stamped n cs h).holders = h := rfl
@[simp] theorem length_stamped (n : String) (cs : List Column) (h : PartySet) :
    (stamped n cs h).columns.length = cs.length := by simp [stamped]

def width (r : Relation) : Nat := r.columns.length

def find? (r : Relation) (name : String) : Option Column := r.columns.find? (·.name == name)

def find (r : Relation) (name : String) : Except Error Column :=
  match r.find? name with
  | some c => .ok c
  | none => .error (.columnNotFound r.name name)

def findAll (r : Relation) (names : List String) : Except Error (List Column) :=
  names.mapM r.find

/-- The column that now stands where an earlier one stood. -/
def resolve (r : Relation) (stale : Column) : Except Error Column :=
  match r.columns[stale.index]? with
  | some c => .ok c
  | none => .error (.schema (.noCounterpart stale.label stale.index r.name r.width))

def resolveAll (r : Relation) (stale : List Column) : Except Error (List Column) :=
  stale.mapM r.resolve

def isShared (r : Relation) : Bool := 1 < r.holders.size

def renamed (r : Relation) (name : String) : Relation := stamped name r.columns r.holders

def heldBy (r : Relation) (holders : PartySet) : Relation := { r with holders }

@[simp] theorem holders_heldBy (r : Relation) (s : PartySet) : (r.heldBy s).holders = s := rfl
@[simp] theorem columns_heldBy (r : Relation) (s : PartySet) : (r.heldBy s).columns = r.columns := rfl
@[simp] theorem name_heldBy (r : Relation) (s : PartySet) : (r.heldBy s).name = r.name := rfl

/-- The parties that hold some relation of a list. -/
def holdersOf (rels : List Relation) : PartySet := IdSet.unions (rels.map (·.holders))

def describe (r : Relation) : String :=
  r.name ++ "(" ++ Text.join ", " (r.columns.map Column.declaration) ++ ") @ " ++ partyList r.holders

end Relation
end PartyPlan
