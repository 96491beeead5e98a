import PartyPlan.Build.Derive
import PartyPlan.Proofs.Columns

/-! What is derived for a new node fits the relations it was derived from: the output has its columns
in their places, and the operator refers only to columns that its inputs have. What cannot be derived
is refused for the names and lists that were given, and for nothing else. -/
namespace PartyPlan

theorem IdSet.mem_unions {sets : List IdSet} {a : Nat} : a ∈ unions sets ↔ ∃ s ∈ sets, a ∈ s := by
  have hfold : ∀ (sets : List IdSet) (t : IdSet),
      a ∈ sets.foldl union t ↔ a ∈ t ∨ ∃ s ∈ sets, a ∈ s := by
    intro sets
    induction sets with
    | nil => simp
    | cons s sets ih =>
      intro t
      rw [List.foldl_cons, ih, mem_union, or_assoc]
      simp
  simp [unions, hfold]

theorem Relation.mem_holdersOf {rels : List Relation} {a : Party} :
    a ∈ holdersOf rels ↔ ∃ rel ∈ rels, a ∈ rel.holders := by
  simp [holdersOf, IdSet.mem_unions]

theorem Relation.holdersOf_singleton (r : Relation) : holdersOf [r] = r.holders := by
  ext p
  simp [mem_holdersOf]

variable {r : Relation} {d : Derived}

structure Derived.Fits (r : Relation) (d : Derived) : Prop where
  arity : d.op.arity = .unary
  reads : d.op.kind ≠ .create
  helpers : d.op.helpers = []
  output : d.output.WellFormed
  current : r.WellFormed → d.op.Current { primary := some r }

namespace Derive

theorem findAll_current (hr : r.WellFormed) {names : List String} {cs : List Column}
    (h : r.findAll names = .ok cs) : ∀ c ∈ cs, c.StandsIn (some r) := by
  intro c hc
  obtain ⟨name, _, hn⟩ := mem_of_mapM_eq_ok h c hc
  exact Column.standsIn_some.mpr (hr.found hn)

theorem find_current (hr : r.WellFormed) {name : String} {c : Column} (h : r.find name = .ok c) :
    c.StandsIn (some r) := Column.standsIn_some.mpr (hr.found h)

/-! What each derivation comes to when it is not refused. -/

theorem create_result {name : String} {columns : List ColumnSpec} {holders : PartySet}
    (h : create name columns holders = .ok d) :
    d = ⟨.create, .stamped name (columns.map fun c => ⟨name, c.name, 0, c.type, c.colluders⟩) holders⟩ := by
  unfold create at h
  split at h
  · cases h
  · split at h
    · cases h
    · exact (Except.ok.inj h).symm

theorem aggregate_result {name folded result : String} {groupBy : List String} {aggregator : Aggregator}
    (h : aggregate r name groupBy folded aggregator result = .ok d) :
    ∃ cs c, r.findAll groupBy = .ok cs ∧ r.find folded = .ok c ∧
      d = ⟨.aggregate ⟨cs, c, aggregator⟩,
        .stamped name (clearedAll cs ++ [c.cleared.named result]) r.holders⟩ := by
  obtain ⟨cs, hcs, h⟩ := except_bind_eq_ok.mp h
  obtain ⟨c, hc, h⟩ := except_bind_eq_ok.mp h
  exact ⟨cs, c, hcs, hc, (Except.ok.inj h).symm⟩

theorem sortBy_result {name column : String} (h : sortBy r name column = .ok d) :
    ∃ c, r.find column = .ok c ∧ d = ⟨.sortBy c, .stamped name (clearedAll r.columns) r.holders⟩ := by
  obtain ⟨c, hc, h⟩ := except_bind_eq_ok.mp h
  exact ⟨c, hc, (Except.ok.inj h).symm⟩

theorem project_result {name : String} {columns : List String} (h : project r name columns = .ok d) :
    ∃ cs, r.findAll columns = .ok cs ∧ d = ⟨.project cs, .stamped name (clearedAll cs) r.holders⟩ := by
  obtain ⟨cs, hcs, h⟩ := except_bind_eq_ok.mp h
  exact ⟨cs, hcs, (Except.ok.inj h).symm⟩

theorem distinct_result {name : String} {columns : List String} (h : distinct r name columns = .ok d) :
    ∃ cs, r.findAll columns = .ok cs ∧ d = ⟨.distinct cs, .stamped name (clearedAll cs) r.holders⟩ := by
  obtain ⟨cs, hcs, h⟩ := except_bind_eq_ok.mp h
  exact ⟨cs, hcs, (Except.ok.inj h).symm⟩

theorem filter_result {name column expression : String} {comparison : Comparison}
    (h : filter r name column comparison expression = .ok d) :
    ∃ c cs, r.find column = .ok c ∧ clearAt r.columns c = .ok cs ∧
      d = ⟨.filter ⟨c, comparison, expression⟩, .stamped name cs r.holders⟩ := by
  obtain ⟨c, hc, h⟩ := except_bind_eq_ok.mp h
  obtain ⟨cs, hcs, h⟩ := except_bind_eq_ok.mp h
  exact ⟨c, cs, hc, hcs, (Except.ok.inj h).symm⟩

theorem index_result {name column : String} (h : index r name column = .ok d) :
    d = ⟨.index column, .stamped name (⟨name, column, 0, .integer, ∅⟩ :: r.columns) r.holders⟩ := by
  unfold index at h
  split at h
  · cases h
  · exact (Except.ok.inj h).symm

theorem compareNeighbours_result {name column : String} (h : compareNeighbours r name column = .ok d) :
    ∃ c, r.find column = .ok c ∧
      d = ⟨.compareNeighbours c, .stamped name [c.cleared] r.holders⟩ := by
  obtain ⟨c, hc, h⟩ := except_bind_eq_ok.mp h
  exact ⟨c, hc, (Except.ok.inj h).symm⟩

theorem arithmetic_result {op : Arithmetic → Operator} {name target : String} {specs : List OperandSpec}
    (h : arithmetic op r name target specs = .ok d) :
    ∃ operands columns place c, specs.mapM (operand r) = .ok operands ∧
      arithmeticColumns r name target operands = .ok (columns, place) ∧
      (Relation.stamped name columns r.holders).columns[place]? = some c ∧
      d = ⟨op ⟨c, operands⟩, .stamped name columns r.holders⟩ := by
  unfold arithmetic at h
  split at h
  · cases h
  · obtain ⟨operands, ho, h⟩ := except_bind_eq_ok.mp h
    obtain ⟨⟨columns, place⟩, hcols, h⟩ := except_bind_eq_ok.mp h
    dsimp only at h
    split at h
    · next c hc => exact ⟨operands, columns, place, c, ho, hcols, hc, (Except.ok.inj h).symm⟩
    · cases h

theorem join_result {left right : Relation} {name : String} {leftKeys rightKeys : List String}
    (h : join left right name leftKeys rightKeys = .ok d) :
    ∃ ls rs, left.findAll leftKeys = .ok ls ∧ right.findAll rightKeys = .ok rs ∧
      d = ⟨.join ⟨ls, rs⟩, .stamped name
        (clearedAll ls ++ clearedAll (nonKeys left ls) ++ clearedAll (nonKeys right rs))
        (Relation.holdersOf [left, right])⟩ := by
  obtain ⟨ls, hls, h⟩ := except_bind_eq_ok.mp h
  obtain ⟨rs, hrs, h⟩ := except_bind_eq_ok.mp h
  exact ⟨ls, rs, hls, hrs, (Except.ok.inj h).symm⟩

theorem concat_result {inputs : List Relation} {name : String} {names : Option (List String)}
    (h : concat inputs name names = .ok d) :
    let first := clearedAll ((inputs.head?.map (·.columns)).getD [])
    d = ⟨.concat, .stamped name (names.elim first (first.zipWith Column.named))
      (Relation.holdersOf inputs)⟩ := by
  unfold concat at h
  dsimp only at h
  split at h
  · cases h
  · split at h
    · exact (Except.ok.inj h).symm
    · split at h
      · exact (Except.ok.inj h).symm
      · cases h

theorem create_wellFormed {name : String} {columns : List ColumnSpec} {holders : PartySet}
    (h : create name columns holders = .ok d) : d.op = .create ∧ d.output.WellFormed := by
  obtain rfl := create_result h
  exact ⟨rfl, Relation.stamped_wellFormed _ _ _⟩

theorem aggregate_fits {name folded result : String} {groupBy : List String}
    {aggregator : Aggregator} (h : aggregate r name groupBy folded aggregator result = .ok d) :
    d.Fits r := by
  obtain ⟨cs, c, hcs, hc, rfl⟩ := aggregate_result h
  exact ⟨rfl, nofun, rfl, Relation.stamped_wellFormed _ _ _, fun hr =>
    ⟨findAll_current hr hcs, find_current hr hc⟩⟩

theorem sortBy_fits {name column : String} (h : sortBy r name column = .ok d) : d.Fits r := by
  obtain ⟨c, hc, rfl⟩ := sortBy_result h
  exact ⟨rfl, nofun, rfl, Relation.stamped_wellFormed _ _ _, fun hr => find_current hr hc⟩

theorem project_fits {name : String} {columns : List String}
    (h : project r name columns = .ok d) : d.Fits r := by
  obtain ⟨cs, hcs, rfl⟩ := project_result h
  exact ⟨rfl, nofun, rfl, Relation.stamped_wellFormed _ _ _, fun hr => findAll_current hr hcs⟩

theorem distinct_fits {name : String} {columns : List String}
    (h : distinct r name columns = .ok d) : d.Fits r := by
  obtain ⟨cs, hcs, rfl⟩ := distinct_result h
  exact ⟨rfl, nofun, rfl, Relation.stamped_wellFormed _ _ _, fun hr => findAll_current hr hcs⟩

theorem filter_fits {name column expression : String} {comparison : Comparison}
    (h : filter r name column comparison expression = .ok d) : d.Fits r := by
  obtain ⟨c, cs, hc, _, rfl⟩ := filter_result h
  exact ⟨rfl, nofun, rfl, Relation.stamped_wellFormed _ _ _, fun hr => find_current hr hc⟩

theorem index_fits {name column : String} (h : index r name column = .ok d) : d.Fits r := by
  obtain rfl := index_result h
  exact ⟨rfl, nofun, rfl, Relation.stamped_wellFormed _ _ _, fun _ => trivial⟩

theorem compareNeighbours_fits {name column : String}
    (h : compareNeighbours r name column = .ok d) : d.Fits r := by
  obtain ⟨c, hc, rfl⟩ := compareNeighbours_result h
  exact ⟨rfl, nofun, rfl, Relation.stamped_wellFormed _ _ _, fun hr => find_current hr hc⟩

/-- Column operands are found by name. -/
theorem operands_current (hr : r.WellFormed) {specs : List OperandSpec} {operands : List Operand}
    (h : specs.mapM (operand r) = .ok operands) :
    ∀ c, .column c ∈ operands → c.StandsIn (some r) := by
  intro c hc
  obtain ⟨spec, _, hs⟩ := mem_of_mapM_eq_ok h _ hc
  cases spec with
  | column name =>
    cases hn : r.find name with
    | error e => simp [operand, hn, Except.map] at hs
    | ok b =>
      simp only [operand, hn, Except.map, Except.ok.injEq, Operand.column.injEq] at hs
      exact hs ▸ find_current hr hn
  | int n => simp [operand] at hs
  | float x => simp [operand] at hs

theorem multiply_fits {name target : String} {specs : List OperandSpec}
    (h : arithmetic .multiply r name target specs = .ok d) : d.Fits r := by
  obtain ⟨operands, _, _, _, ho, _, _, rfl⟩ := arithmetic_result h
  exact ⟨rfl, nofun, rfl, Relation.stamped_wellFormed _ _ _, fun hr => operands_current hr ho⟩

theorem divide_fits {name target : String} {specs : List OperandSpec}
    (h : arithmetic .divide r name target specs = .ok d) : d.Fits r := by
  obtain ⟨operands, _, _, _, ho, _, _, rfl⟩ := arithmetic_result h
  exact ⟨rfl, nofun, rfl, Relation.stamped_wellFormed _ _ _, fun hr => operands_current hr ho⟩

/-- An operator that passes its input on refers to no column. -/
theorem passTo_fits {op : Operator} (ha : op.arity = .unary) (hk : op.kind ≠ .create)
    (hh : op.helpers = []) (hc : ∀ inputs, op.Current inputs) (r : Relation) (name : String)
    (s : PartySet) : (passTo op r name s).Fits r :=
  ⟨ha, hk, hh, (Relation.stamped_wellFormed _ _ _).heldBy s, fun _ => hc _⟩

theorem pass_fits {op : Operator} (ha : op.arity = .unary) (hk : op.kind ≠ .create)
    (hh : op.helpers = []) (hc : ∀ inputs, op.Current inputs) (r : Relation) (name : String) :
    (pass op r name).Fits r :=
  ⟨ha, hk, hh, Relation.stamped_wellFormed _ _ _, fun _ => hc _⟩

theorem join_eq_ok {left right : Relation} {name : String} {leftKeys rightKeys : List String}
    (h : join left right name leftKeys rightKeys = .ok d) :
    ∃ keys, d.op = .join keys ∧ d.output.WellFormed ∧
      (left.WellFormed → right.WellFormed → keys.Current (some left) (some right)) := by
  obtain ⟨ls, rs, hls, hrs, rfl⟩ := join_result h
  exact ⟨_, rfl, Relation.stamped_wellFormed _ _ _, fun hl hr =>
    ⟨findAll_current hl hls, findAll_current hr hrs⟩⟩

theorem concat_eq_ok {inputs : List Relation} {name : String} {names : Option (List String)}
    (h : concat inputs name names = .ok d) : d.op = .concat ∧ d.output.WellFormed := by
  obtain rfl := concat_result h
  exact ⟨rfl, Relation.stamped_wellFormed _ _ _⟩

end Derive

/-- A refusal for the names and lists that were given, when they are looked up in some relations. -/
inductive Error.OfColumns (rels : List Relation) : Error → Prop where
  | missing {r : Relation} {name : String} (hr : r ∈ rels) (hn : r.find? name = none) :
    OfColumns rels (.columnNotFound r.name name)
  | schema (fault : SchemaFault) : OfColumns rels (.schema fault)
  | argument (fault : ArgumentFault) : OfColumns rels (.argument fault)

theorem Error.OfColumns.mono {rels rels' : List Relation} {e : Error} (h : e.OfColumns rels)
    (hsub : ∀ r ∈ rels, r ∈ rels') : e.OfColumns rels' := by
  cases h with
  | missing hr hn => exact .missing (hsub _ hr) hn
  | schema fault => exact .schema fault
  | argument fault => exact .argument fault

namespace Derive

variable {rels : List Relation} {e : Error}

theorem find_fault (hr : r ∈ rels) {name : String} (h : r.find name = .error e) : e.OfColumns rels := by
  unfold Relation.find at h
  split at h
  · cases h
  · next hn =>
    cases h
    exact .missing hr hn

theorem findAll_fault (hr : r ∈ rels) {names : List String} (h : r.findAll names = .error e) :
    e.OfColumns rels := by
  obtain ⟨name, _, hn⟩ := exists_of_mapM_eq_error h
  exact find_fault hr hn

theorem create_fault {name : String} {columns : List ColumnSpec} {holders : PartySet}
    (h : create name columns holders = .error e) : e.OfColumns rels := by
  unfold create at h
  split at h
  · cases h
    exact .argument _
  · split at h
    · cases h
      exact .schema _
    · cases h

theorem aggregate_fault {name folded result : String} {groupBy : List String}
    {aggregator : Aggregator} (h : aggregate r name groupBy folded aggregator result = .error e) :
    e.OfColumns [r] := by
  rcases except_bind_eq_error.mp h with h | ⟨cs, _, h⟩
  · exact findAll_fault (by simp) h
  rcases except_bind_eq_error.mp h with h | ⟨c, _, h⟩
  · exact find_fault (by simp) h
  · cases h

/-- Derivations that look one thing up and then go on without fail. -/
theorem fault_of_bind {α : Type} {x : Except Error α} {f : α → Derived}
    (hx : ∀ e, x = .error e → e.OfColumns rels)
    (h : (do let a ← x; return f a : Except Error Derived) = .error e) : e.OfColumns rels := by
  rcases except_bind_eq_error.mp h with h | ⟨a, _, h⟩
  · exact hx e h
  · cases h

/-- A column that is found is cleared in its place, and the columns stay as many. -/
theorem clearAt_eq_ok {columns : List Column} {c : Column} (h : c.index < columns.length) :
    clearAt columns c = .ok (columns.set c.index c.cleared) := if_pos h

theorem foldlM_clearAt_eq_ok {cs columns : List Column} (h : ∀ c ∈ cs, c.index < columns.length) :
    ∃ columns', cs.foldlM clearAt columns = .ok columns' ∧ columns'.length = columns.length := by
  induction cs generalizing columns with
  | nil => exact ⟨columns, rfl, rfl⟩
  | cons c cs ih =>
    have hset : (columns.set c.index c.cleared).length = columns.length := List.length_set
    have hrest : ∀ b ∈ cs, b.index < (columns.set c.index c.cleared).length := by
      intro b hb
      rw [hset]
      exact h b (by simp [hb])
    obtain ⟨columns', hcols, hlen⟩ := ih hrest
    refine ⟨columns', ?_, hlen.trans hset⟩
    rw [List.foldlM_cons, clearAt_eq_ok (h c (by simp))]
    exact hcols

theorem index_lt_of_standsIn {c : Column} (h : c.StandsIn (some r)) : c.index < r.columns.length :=
  (List.getElem?_eq_some_iff.mp (Column.standsIn_some.mp h)).1

theorem filter_fault {name column expression : String} {comparison : Comparison} (hr : r.WellFormed)
    (h : filter r name column comparison expression = .error e) : e.OfColumns [r] := by
  rcases except_bind_eq_error.mp h with h | ⟨c, hc, h⟩
  · exact find_fault (by simp) h
  · rw [clearAt_eq_ok (index_lt_of_standsIn (find_current hr hc))] at h
    cases h

/-- The columns of an arithmetic output are there to be cleared, and the place of the target is one of
theirs. -/
theorem arithmeticColumns_spec (hr : r.WellFormed) (name target : String) {operands : List Operand}
    (ho : ∀ c, .column c ∈ operands → c.StandsIn (some r)) :
    (∃ columns place, arithmeticColumns r name target operands = .ok (columns, place) ∧
      place < columns.length) ∨
    arithmeticColumns r name target operands = .error (.argument (.targetNotFirst target)) := by
  have hin : ∀ c ∈ operands.filterMap Operand.column?, c.index < r.columns.length := by
    intro c hc
    obtain ⟨o, hmem, hoc⟩ := List.mem_filterMap.mp hc
    cases o with
    | column b =>
      cases hoc
      exact index_lt_of_standsIn (ho c hmem)
    | int n => cases hoc
    | float x => cases hoc
  obtain ⟨columns, hcols, hlen⟩ := foldlM_clearAt_eq_ok hin
  unfold arithmeticColumns
  rw [hcols]
  cases hf : r.find? target with
  | none => exact .inl ⟨_, _, rfl, by simp⟩
  | some existing =>
    have hlt : existing.index < columns.length := by
      have hfound : r.find target = .ok existing := by rw [Relation.find, hf]
      rw [hlen]
      exact index_lt_of_standsIn (find_current hr hfound)
    by_cases hfirst : (operands.head?.bind Operand.column?).any (·.index == existing.index) = true
    · refine .inl ⟨columns.set existing.index existing.cleared, existing.index, ?_, by simpa using hlt⟩
      simp [hfirst, clearAt_eq_ok hlt, bind, Except.bind, pure, Except.pure]
    · exact .inr (by simp [hfirst, bind, Except.bind])

theorem arithmetic_fault {op : Arithmetic → Operator} (hr : r.WellFormed) {name target : String}
    {specs : List OperandSpec} (h : arithmetic op r name target specs = .error e) :
    e.OfColumns [r] := by
  unfold arithmetic at h
  split at h
  · cases h
    exact .argument _
  rcases except_bind_eq_error.mp h with h | ⟨operands, ho, h⟩
  · obtain ⟨spec, _, hs⟩ := exists_of_mapM_eq_error h
    cases spec with
    | column c =>
      cases hc : r.find c with
      | ok b => simp [operand, hc, Except.map] at hs
      | error e' =>
        simp only [operand, hc, Except.map, Except.error.injEq] at hs
        exact hs ▸ find_fault (by simp) hc
    | int n => cases hs
    | float x => cases hs
  · rcases arithmeticColumns_spec hr name target (operands_current hr ho) with
      ⟨columns, place, hcols, hplace⟩ | hbad
    · -- the target stands in its place of the output, so it cannot have vanished
      rw [hcols] at h
      have hsome : (Relation.stamped name columns r.holders).columns[place]? ≠ none := by
        simpa using hplace
      dsimp only [bind, Except.bind] at h
      split at h
      · cases h
      · next hnone => exact absurd hnone hsome
    · rw [hbad] at h
      cases h
      exact .argument _

theorem index_fault {name column : String} (h : index r name column = .error e) : e.OfColumns [r] := by
  unfold index at h
  split at h
  · cases h
    exact .schema _
  · cases h

theorem join_fault {left right : Relation} {name : String} {leftKeys rightKeys : List String}
    (h : join left right name leftKeys rightKeys = .error e) : e.OfColumns [left, right] := by
  rcases except_bind_eq_error.mp h with h | ⟨ls, _, h⟩
  · exact findAll_fault (by simp) h
  rcases except_bind_eq_error.mp h with h | ⟨rs, _, h⟩
  · exact findAll_fault (by simp) h
  · cases h

theorem concat_fault {inputs : List Relation} {name : String} {names : Option (List String)}
    (h : concat inputs name names = .error e) : e.OfColumns rels := by
  unfold concat at h
  dsimp only at h
  split at h
  · cases h
    exact .schema _
  · split at h
    · cases h
    · split at h
      · cases h
      · cases h
        exact .schema _

end Derive
end PartyPlan
