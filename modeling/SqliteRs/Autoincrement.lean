import SqliteRs.RowWrite

/-!
Automatic rowids of AUTOINCREMENT tables over whole histories. Only an
automatic rowid is recorded in the sequence row, so an explicit rowid is
remembered for no longer than its row. The rowid chosen next exceeds every
earlier one as long as no row leaves the table that exceeds both the sequence
row and the rowids that stay.
-/

namespace SqliteRs

open List Option OrderedMap

inductive RowStatement where
  | insert (row : List (Option Source)) (action : ConflictAction)
  | delete (rowid : Int)

namespace Table

def perform (table : Table) : RowStatement → Option Table
  | .insert row action => settled (table.insertRow row action)
  | .delete rowid => settled (table.deleteRow rowid)

def high (table : Table) : Int := max table.lastRowid (table.sequence.getD 0)

/-- A statement after which the sequence row and the rows that stay still cover
every rowid there was: it removes no row above both, and it does not ask for a
rowid past the largest. -/
def RowidsCovered (table : Table) : RowStatement → Prop
  | .insert row action =>
    match table.explicitRowid row with
    | none => table.high < maxRowid
    | some source =>
      action = .replace →
        (∀ index ∈ table.indexes, index.schema.unique = false) ∨
          table.lastRowid ≤ table.sequence.getD 0 ∨
          ∃ number, source.value = .integer number ∧ table.lastRowid ≤ number
  | .delete rowid => rowid ≤ table.sequence.getD 0 ∨ rowid < table.lastRowid

end Table

/-- Histories of a new table, with every rowid it has contained so far. -/
inductive History (schema : TableSchema) (indexes : List IndexSchema)
    (allowed : Table → RowStatement → Prop) : Table → List Int → Prop
  | created : History schema indexes allowed (Table.empty schema indexes) []
  | performed {table next : Table} {ever : List Int} (statement : RowStatement) :
      History schema indexes allowed table ever → allowed table statement →
      table.perform statement = some next →
      History schema indexes allowed next (next.rows.keys ++ ever)

namespace Table

theorem le_lastRowid (table : Table) (rowid : Int) (mem : rowid ∈ table.rows.keys) :
    rowid ≤ table.lastRowid := by
  have asc := table.rows.keys_ascending
  unfold lastRowid
  rcases eq_nil_or_concat table.rows.keys with none | ⟨front, last, split⟩
  · rw [none] at mem
    cases mem
  rw [split, concat_eq_append] at mem asc
  rw [split, concat_eq_append, List.getLast?_concat]
  rcases mem_append.mp mem with early | final
  · exact le_of_lt ((pairwise_append.mp asc).2.2 rowid early last (by simp))
  · exact le_of_eq (mem_singleton.mp final)

theorem lastRowid_mem (table : Table) :
    table.lastRowid ∈ table.rows.keys ∨ (table.rows.keys = [] ∧ table.lastRowid = 0) := by
  unfold lastRowid
  cases last : table.rows.keys.getLast? with
  | none => exact .inr ⟨List.getLast?_eq_none_iff.mp last, rfl⟩
  | some rowid => exact .inl (mem_of_getLast? last)

theorem high_le (table next : Table) (nonneg : 0 ≤ table.sequence.getD 0)
    (sequence : table.sequence.getD 0 ≤ next.sequence.getD 0)
    (kept : table.lastRowid ∈ table.rows.keys → table.lastRowid ≤ next.high) :
    table.high ≤ next.high := by
  have covered : table.sequence.getD 0 ≤ next.high := le_trans sequence (le_max_right _ _)
  rcases table.lastRowid_mem with mem | ⟨_, zero⟩
  · exact max_le (kept mem) covered
  · exact max_le (by omega) covered

theorem le_high_of_mem (table : Table) (rowid : Int) (mem : rowid ∈ table.rows.keys) :
    rowid ≤ table.high := le_trans (table.le_lastRowid rowid mem) (le_max_left _ _)

theorem newRowid_sequence (table : Table) :
    table.sequence.getD 0 ≤ table.newRowid.1.sequence.getD 0 := by
  unfold newRowid
  split
  swap
  · exact le_rfl
  cases tracked : table.sequence with
  | none =>
    simp only [getD_none, getD_some, saturatingSucc, maxRowid]
    omega
  | some value =>
    simp only [getD_some]
    split
    · simp only [getD_some]; omega
    · simp

theorem newRowid_high (table : Table) (auto : table.schema.autoincrement = true)
    (room : table.high < maxRowid) : table.newRowid.2 = table.high + 1 := by
  simp only [newRowid, auto, if_true, saturatingSucc]
  unfold high at room ⊢
  omega

variable {act : ConflictAction} {table next : Table} {record : Record}
  {row : List (Option Source)}

theorem uniqueChecks_plain {staged : Record} (positions : List Nat)
    (plain : ∀ index ∈ table.indexes, index.schema.unique = false)
    (done : uniqueChecks act staged positions table = .ok next) : next = table := by
  induction positions with
  | nil =>
    cases done
    rfl
  | cons pos rest ih =>
    obtain ⟨middle, first, later⟩ := bind_ok done
    rcases uniqueCheck_ok first with ⟨same, _⟩ | ⟨_, index, _, here, unique, _⟩
    · rw [same] at later
      exact ih later
    · rw [plain index (mem_of_getElem? here)] at unique
      cases unique

theorem Shrinks.plain {before after : Table} (shrinks : Shrinks before after)
    (plain : ∀ index ∈ before.indexes, index.schema.unique = false) :
    ∀ index ∈ after.indexes, index.schema.unique = false := by
  intro index mem
  have here : index.schema ∈ before.indexes.map Index.schema := by
    rw [← shrinks.indexes]
    exact mem_map_of_mem mem
  obtain ⟨other, present, same⟩ := mem_map.mp here
  rw [← same]
  exact plain other present

theorem mem_keys_insert (rows : OrderedMap Int Record) (rowid num : Int) (record : Record)
    (mem : rowid ∈ rows.keys) : rowid ∈ (rows.insert num record).keys := by
  obtain ⟨held, found⟩ := (rows.mem_keys_iff rowid).mp mem
  rw [mem_keys_iff, get_insert]
  split
  · exact ⟨record, rfl⟩
  · exact ⟨held, found⟩

theorem mem_keys_insert_self (rows : OrderedMap Int Record) (num : Int) (record : Record) :
    num ∈ (rows.insert num record).keys := by
  rw [mem_keys_iff, get_insert, if_pos rfl]
  exact ⟨record, rfl⟩

theorem removeRow_keeps {rowid other : Int} (done : table.removeRow rowid record = .ok next)
    (mem : other ∈ table.rows.keys) (differ : other ≠ rowid) : other ∈ next.rows.keys := by
  obtain ⟨indexes, _, rfl⟩ := removeRow_ok done
  obtain ⟨held, found⟩ := (table.rows.mem_keys_iff other).mp mem
  rw [mem_keys_iff]
  exact ⟨held, by rw [get_erase, if_neg differ, found]⟩

theorem addRow_keeps {rowid : Value} {num : Int} {values : List Value}
    (done : table.addRow rowid values record = .ok next) (held : rowid = .integer num) :
    next.schema = table.schema ∧ next.sequence = table.sequence ∧ num ∈ next.rows.keys ∧
      ∀ other ∈ table.rows.keys, other ∈ next.rows.keys := by
  obtain ⟨target, indexes, same, _, _, rfl⟩ := addRow_ok done
  rw [held] at same
  cases same
  refine ⟨rfl, rfl, mem_keys_insert_self _ _ _, fun other mem => ?_⟩
  exact mem_keys_insert _ _ _ _ mem

theorem insertRow_explicit_high {src : Source} (given : table.explicitRowid row = some src)
    (nonneg : 0 ≤ table.sequence.getD 0) (covered : table.RowidsCovered (.insert row act))
    (done : table.insertRow row act = .ok next) :
    table.high ≤ next.high ∧ next.sequence = table.sequence ∧ next.schema = table.schema := by
  obtain ⟨resolved, rowid, cleared, found, _, _, probed, added⟩ := insertRow_ok done
  rcases resolveRowid_ok found with ⟨automatic, _⟩ | ⟨other, num, explicit, value, held, how⟩
  · rw [given] at automatic
    cases automatic
  rw [given] at explicit
  cases explicit
  obtain ⟨schema, sequence, self, kept⟩ := addRow_keeps added held
  have first : Shrinks table resolved := by
    rcases how with ⟨_, rfl⟩ | ⟨record, _, _, removed⟩
    · exact Shrinks.refl _
    · exact removeRow_shrinks removed
  have shrinks := first.trans (uniqueChecks_shrinks _ probed)
  have sameSequence : next.sequence = table.sequence := sequence.trans shrinks.sequence
  refine ⟨?_, sameSequence, schema.trans shrinks.schema⟩
  apply high_le table next nonneg (by rw [sameSequence])
  intro mem
  -- When the tests removed nothing, the last rowid is kept or is the new one.
  have unchanged : cleared = resolved → table.lastRowid ≤ next.high := by
    intro same
    apply le_high_of_mem
    by_cases here : table.lastRowid = num
    · rw [here]
      exact self
    apply kept
    rw [same]
    rcases how with ⟨_, rfl⟩ | ⟨record, _, _, removed⟩
    · exact mem
    · exact removeRow_keeps removed mem here
  by_cases replaces : act = .replace
  swap
  · exact unchanged (uniqueChecks_same _ replaces probed)
  simp only [RowidsCovered, given] at covered
  rcases covered replaces with plain | below | ⟨wanted, holds, below⟩
  · apply unchanged
    apply uniqueChecks_plain _ _ probed
    rcases how with ⟨_, rfl⟩ | ⟨record, _, _, removed⟩
    · exact plain
    · exact (removeRow_shrinks removed).plain plain
  · apply le_trans below
    rw [← sameSequence]
    exact le_max_right _ _
  · rw [value] at holds
    cases holds
    exact le_trans below (le_high_of_mem next num self)

theorem insertRow_automatic (automatic : table.explicitRowid row = none)
    (done : table.insertRow row act = .ok next) :
    next.schema = table.schema ∧ next.sequence = table.newRowid.1.sequence ∧
      table.newRowid.2 ∈ next.rows.keys := by
  obtain ⟨resolved, rowid, cleared, found, _, _, probed, added⟩ := insertRow_ok done
  rcases resolveRowid_ok found with ⟨_, same, held⟩ | ⟨_, _, explicit, _⟩
  · obtain ⟨schema, sequence, self, _⟩ := addRow_keeps added held
    have shrinks := uniqueChecks_shrinks _ probed
    rw [same] at shrinks
    refine ⟨?_, sequence.trans shrinks.sequence, self⟩
    rw [schema, shrinks.schema, newRowid_schema]
  · rw [automatic] at explicit
    cases explicit

theorem perform_high {statement : RowStatement} (auto : table.schema.autoincrement = true)
    (nonneg : 0 ≤ table.sequence.getD 0) (covered : table.RowidsCovered statement)
    (done : table.perform statement = some next) :
    table.high ≤ next.high ∧ 0 ≤ next.sequence.getD 0 ∧ next.schema = table.schema := by
  cases statement with
  | insert row act =>
    rcases settled_some done with added | skip
    · cases given : table.explicitRowid row with
      | none =>
        obtain ⟨schema, sequence, self⟩ := insertRow_automatic given added
        simp only [RowidsCovered, given] at covered
        have chosen := table.newRowid_high auto covered
        have reached := le_high_of_mem next _ self
        refine ⟨by omega, ?_, schema⟩
        rw [sequence]
        exact le_trans nonneg table.newRowid_sequence
      | some src =>
        obtain ⟨high, sequence, schema⟩ := insertRow_explicit_high given nonneg covered added
        exact ⟨high, by rw [sequence]; exact nonneg, schema⟩
    · rcases insertRow_skipped skip with rfl | rfl
      · exact ⟨le_rfl, nonneg, rfl⟩
      refine ⟨?_, le_trans nonneg table.newRowid_sequence, newRowid_schema table⟩
      apply high_le table _ nonneg table.newRowid_sequence
      intro mem
      apply le_high_of_mem
      rw [newRowid_rows]
      exact mem
  | delete rowid =>
    rcases settled_some done with deleted | skip
    swap
    · exact absurd skip deleteRow_not_skipped
    obtain ⟨record, present, removed⟩ := deleteRow_ok deleted
    have shrinks := removeRow_shrinks removed
    refine ⟨?_, by rw [shrinks.sequence]; exact nonneg, shrinks.schema⟩
    apply high_le table next nonneg (by rw [shrinks.sequence])
    intro mem
    by_cases last : table.lastRowid = rowid
    · rcases covered with below | before
      · rw [last]
        apply le_trans below
        rw [← shrinks.sequence]
        exact le_max_right _ _
      · omega
    · exact le_high_of_mem next _ (removeRow_keeps removed mem last)

theorem history_high {schema : TableSchema} {indexes : List IndexSchema} {ever : List Int}
    (auto : schema.autoincrement = true) (history : History schema indexes RowidsCovered table ever) :
    table.schema = schema ∧ 0 ≤ table.sequence.getD 0 ∧ ∀ rowid ∈ ever, rowid ≤ table.high := by
  induction history with
  | created => exact ⟨rfl, le_rfl, fun rowid mem => by cases mem⟩
  | performed statement earlier covered done ih =>
    obtain ⟨same, nonneg, bound⟩ := ih
    obtain ⟨grows, nonneg', schema'⟩ := perform_high (by rw [same]; exact auto) nonneg covered done
    refine ⟨schema'.trans same, nonneg', fun rowid mem => ?_⟩
    rcases mem_append.mp mem with now | before
    · exact le_high_of_mem _ rowid now
    · exact le_trans (bound rowid before) grows

end Table

/-- In a history that forgets no rowid, an automatically chosen rowid is
stored and exceeds every rowid the table has contained. -/
theorem automatic_rowid_exceeds_history (schema : TableSchema) (indexes : List IndexSchema)
    (auto : schema.autoincrement = true) (table next : Table) (ever : List Int)
    (history : History schema indexes Table.RowidsCovered table ever)
    (row : List (Option Source)) (action : ConflictAction)
    (automatic : table.explicitRowid row = none)
    (covered : table.RowidsCovered (.insert row action))
    (inserted : table.insertRow row action = .ok next) :
    table.newRowid.2 ∈ next.rows.keys ∧ ∀ rowid ∈ ever, rowid < table.newRowid.2 := by
  obtain ⟨same, _, bound⟩ := Table.history_high auto history
  simp only [Table.RowidsCovered, automatic] at covered
  have chosen := table.newRowid_high (by rw [same]; exact auto) covered
  refine ⟨(Table.insertRow_automatic automatic inserted).2.2, fun rowid member => ?_⟩
  have below := bound rowid member
  omega

/-- An INSERT without an explicit rowid is given a rowid that the table does
not contain exactly if the table does not contain the largest one, at which
`saturating_add` stands still. -/
theorem automatic_rowid_fresh_iff (table : Table) (row : List (Option Source))
    (action : ConflictAction) (automatic : table.explicitRowid row = none) :
    (∃ rowid, table.resolveRowid row action = .ok (table.newRowid.1, .integer rowid) ∧
      rowid ∉ table.rows.keys) ↔ maxRowid ∉ table.rows.keys := by
  have chosen : table.resolveRowid row action =
      .ok (table.newRowid.1, .integer table.newRowid.2) := by
    rw [Table.resolveRowid, automatic]
  have above := table.le_lastRowid
  have saturated : min (table.lastRowid + 1) maxRowid ≤ table.newRowid.2 ∧
      table.newRowid.2 ≤ maxRowid := by
    unfold Table.newRowid
    split <;> simp only [saturatingSucc] <;> omega
  constructor
  · rintro ⟨rowid, given, fresh⟩ largest
    rw [chosen] at given
    cases given
    have := above maxRowid largest
    exact fresh (by rwa [show table.newRowid.2 = maxRowid by omega])
  · intro room
    refine ⟨_, chosen, fun taken => ?_⟩
    have := above _ taken
    exact room (by rwa [← show table.newRowid.2 = maxRowid by omega])

def autoincrementSchema : TableSchema where
  name := "t"
  columns := [{ name := "id", declaredType := "INTEGER".toList }]
  rowidAlias := some 0
  autoincrement := true

def oneRowTable (rowid : Int) (sequence : Option Int) : Table :=
  ⟨autoincrementSchema, OrderedMap.empty.insert rowid [.null], [], sequence⟩

def emptiedTable (rowid : Int) (sequence : Option Int) : Table :=
  { oneRowTable rowid sequence with rows := (oneRowTable rowid sequence).rows.erase rowid }

/-- An automatic rowid survives the deletion of its row in the sequence row. -/
theorem sequence_outlives_row :
    ∃ next, (emptiedTable 1 (some 1)).insertRow [none] .abort = .ok next ∧
      (emptiedTable 1 (some 1)).newRowid.2 = 2 ∧
      (emptiedTable 1 (some 1)).newRowid.2 ∈ next.rows.keys ∧
      ∀ rowid ∈ [1], rowid < (emptiedTable 1 (some 1)).newRowid.2 := by
  have first : History autoincrementSchema [] Table.RowidsCovered (oneRowTable 1 (some 1)) [1] :=
    .performed (.insert [none] .abort) .created
      (show (Table.empty autoincrementSchema []).high < maxRowid by decide) rfl
  have second : History autoincrementSchema [] Table.RowidsCovered (emptiedTable 1 (some 1)) [1] :=
    .performed (.delete 1) first (.inl (by decide)) rfl
  exact ⟨_, rfl, rfl, automatic_rowid_exceeds_history autoincrementSchema [] rfl _ _ [1] second
    [none] .abort rfl (show (emptiedTable 1 (some 1)).high < maxRowid by decide) rfl⟩

/-- An explicit rowid is forgotten with its row: the next automatic one is lower. -/
theorem explicit_rowid_is_forgotten :
    History autoincrementSchema [] (fun _ _ => True) (emptiedTable 100 none) [100] ∧
      (emptiedTable 100 none).explicitRowid [none] = none ∧
      (∃ next, (emptiedTable 100 none).insertRow [none] .abort = .ok next) ∧
      (emptiedTable 100 none).newRowid.2 = 1 := by
  have first : History autoincrementSchema [] (fun _ _ => True) (oneRowTable 100 none) [100] :=
    .performed (.insert [some (.plain (.integer 100))] .abort) .created trivial rfl
  have second : History autoincrementSchema [] (fun _ _ => True) (emptiedTable 100 none) [100] :=
    .performed (.delete 100) first trivial rfl
  exact ⟨second, rfl, ⟨_, rfl⟩, rfl⟩

/-- One below the largest rowid there is room for one more automatic row. -/
theorem last_rowid_is_fresh :
    ∃ rowid, (oneRowTable (maxRowid - 1) none).resolveRowid [none] .abort =
        .ok ((oneRowTable (maxRowid - 1) none).newRowid.1, .integer rowid) ∧
      rowid ∉ (oneRowTable (maxRowid - 1) none).rows.keys :=
  (automatic_rowid_fresh_iff _ [none] .abort rfl).mpr (by decide)

/-- A table whose only row has the largest rowid is given that rowid again, and
the INSERT fails, though every other rowid is free. -/
theorem largest_rowid_is_given_again :
    (oneRowTable maxRowid none).rows.keys = [maxRowid] ∧
      (oneRowTable maxRowid none).explicitRowid [none] = none ∧
      (oneRowTable maxRowid none).newRowid.2 = maxRowid ∧
      (oneRowTable maxRowid none).insertRow [none] .abort =
        .error (.failed .duplicateRowid) :=
  ⟨rfl, rfl, rfl, rfl⟩

end SqliteRs
