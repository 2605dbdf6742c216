import SqliteRs.RowWrite

/-!
Indexes against the rows they stand for. An index mirrors its table when its
entries are, as a multiset, one key for each row: the values a query reads for
the indexed columns, then the rowid. INSERT and UPDATE build keys from the value
registers, before the column conversions, and filling a new index reads the
NULL that a record holds for the rowid alias, so the mirror survives exactly
the writes whose indexed values are already in stored form.
-/

namespace SqliteRs

open List Function Table TableSchema Index

def Table.Mirrors (table : Table) : Prop :=
  ∀ index ∈ table.indexes, index.entries.Perm
    (table.rows.entries.map fun row => table.schema.rowKey row.1 row.2 index.schema)

/-- A value that conversion for its column and a pass through a record keep. -/
def TableSchema.Keeps (schema : TableSchema) (position : Nat) (value : Value) : Prop :=
  storedValue value = value ∧
    ∀ affinity, schema.affinities[position]? = some affinity → applyAffinity affinity value = value

def Table.Settled (table : Table) : Prop :=
  ∀ rowid record, table.rows.get rowid = some record →
    ∀ position, table.schema.Keeps position (record.getD position .null)

/-- Values of indexed columns that are in stored form before they are written. -/
def Table.KeysStored (table : Table) (values : List Value) : Prop :=
  ∀ index ∈ table.indexes, ∀ column ∈ index.schema.columns,
    table.schema.rowidAlias ≠ some column.position →
    ∀ affinity value, table.schema.affinities[column.position]? = some affinity →
      values[column.position]? = some value →
      storedValue (applyAffinity affinity value) = storedValue value

/-- Steps that index what they store: an index on the rowid alias is made while
the table is empty, an inserted row takes one register for each column, and
written values of indexed columns are in stored form. -/
def Table.IndexesStored (table : Table) : TableStep → Prop
  | .createIndex index =>
    table.rows.entries = [] ∨
      ∀ column ∈ index.columns, table.schema.rowidAlias ≠ some column.position
  | .insert row action =>
    stagedValues (table.chooseSources row action) =
        (table.chooseSources row action).map Source.value ∧
      table.KeysStored ((table.chooseSources row action).map Source.value)
  | .update rowid assignment _ =>
    ∀ record, table.rows.get rowid = some record →
      table.KeysStored (table.updatedValues rowid record assignment)
  | .delete _ => True

variable (affinity : Affinity) (schema : TableSchema) (value : Value)

theorem storedValue_of_ne (num : value ≠ .real .nan) : storedValue value = value := by
  unfold storedValue
  split
  · exact absurd rfl num
  · rfl

theorem storedValue_idem : storedValue (storedValue value) = storedValue value := by
  by_cases nan : value = .real .nan
  · rw [nan]
    rfl
  · rw [storedValue_of_ne value nan, storedValue_of_ne value nan]

theorem applyAffinity_null : applyAffinity affinity .null = .null := by
  cases affinity <;> rfl

theorem applyAffinity_stored : applyAffinity affinity (storedValue (applyAffinity affinity value)) =
      storedValue (applyAffinity affinity value) := by
  by_cases nan : applyAffinity affinity value = .real .nan
  · rw [nan]
    exact applyAffinity_null affinity
  · rw [storedValue_of_ne _ nan, applyAffinity_idem]

theorem makeRecord_getElem (affinities : List Affinity) (values : List Value) (pos : Nat) :
    (makeRecord affinities values)[pos]? = values[pos]?.map fun value =>
      storedValue ((affinities[pos]?.map fun affinity => applyAffinity affinity value).getD value) := by
  induction values generalizing affinities pos with
  | nil => cases affinities <;> simp [makeRecord]
  | cons value rest ih =>
    cases affinities with
    | nil =>
      cases pos with
      | zero => simp [makeRecord]
      | succ later => simpa [makeRecord] using ih [] later
    | cons affinity others =>
      cases pos with
      | zero => simp [makeRecord]
      | succ later => simpa [makeRecord] using ih others later

theorem makeRecord_keeps (values : List Value) (pos : Nat) :
    schema.Keeps pos ((makeRecord schema.affinities values).getD pos .null) := by
  rw [getD_eq_getElem?_getD, makeRecord_getElem]
  cases here : values[pos]? with
  | none => exact ⟨rfl, fun affinity _ => applyAffinity_null affinity⟩
  | some value =>
    constructor
    · exact storedValue_idem _
    intro affinity col
    simp only [col]
    exact applyAffinity_stored affinity value

theorem readRecord_keeps (record : Record) (pos : Nat)
    (keeps : schema.Keeps pos (record.getD pos .null)) :
    schema.readRecord record pos = record.getD pos .null := by
  unfold readRecord
  split
  · rename_i col
    exact keeps.2 .real col
  · rfl

theorem registerKey_stored (num : Int) (values : List Value)
    (index : IndexSchema) (stored : ∀ col ∈ index.columns, schema.rowidAlias ≠ some col.position →
      ∀ affinity value, schema.affinities[col.position]? = some affinity →
        values[col.position]? = some value →
        storedValue (applyAffinity affinity value) = storedValue value) :
    (schema.registerKey (.integer num) values index).map storedValue =
      schema.rowKey num (makeRecord schema.affinities values) index := by
  simp only [registerKey, map_append, map_map]
  congr 1
  apply map_congr_left
  intro col mem
  simp only [comp_apply, readColumn]
  split
  · rfl
  rename_i ordinary
  rw [readRecord_keeps schema _ _ (makeRecord_keeps schema values col.position),
    getD_eq_getElem?_getD, getD_eq_getElem?_getD, makeRecord_getElem]
  cases here : values[col.position]? with
  | none => rfl
  | some value =>
    cases affine : schema.affinities[col.position]? with
    | none => rfl
    | some affinity => exact (stored col mem ordinary affinity value affine here).symm

namespace Index

theorem place_perm (key held : List Value) (entries : List (List Value)) :
    (place key held entries).Perm (held :: entries) := by
  induction entries with
  | nil => exact Perm.refl _
  | cons entry rest ih =>
    simp only [place]
    split
    · exact Perm.refl _
    · exact (ih.cons entry).trans (Perm.swap _ _ _)

variable {entries res : List (List Value)} {key : List Value}

theorem insertEntry_eq (done : insertEntry entries key = .ok res) :
    res = place key (key.map storedValue) entries := by
  unfold insertEntry at done
  split at done
  · cases done
  · exact (Except.ok.inj done).symm

theorem insertEntry_perm (done : insertEntry entries key = .ok res) :
    res.Perm (key.map storedValue :: entries) := by
  rw [insertEntry_eq done]
  exact place_perm _ _ _

theorem deleteEntry_perm (done : deleteEntry entries key = .ok res) :
    ∃ entry, compareKeys key entry = .eq ∧ entries.Perm (entry :: res) := by
  unfold deleteEntry at done
  split at done
  swap
  · cases done
  rename_i present
  cases done
  obtain ⟨entry, mem, equal⟩ := any_eq_true.mp present
  obtain ⟨taken, front, back, _, same, split, erased⟩ :=
    exists_of_eraseP (p := fun entry => compareKeys key entry == .eq) mem equal
  refine ⟨taken, by simpa using same, ?_⟩
  rw [erased]
  nth_rewrite 1 [split]
  exact perm_middle

theorem deleteEntry_sublist (done : deleteEntry entries key = .ok res) : res.Sublist entries := by
  unfold deleteEntry at done
  split at done
  · cases done
    exact eraseP_sublist
  · cases done

theorem editAll_mem {edit : List (List Value) → List Value → Except Failure (List (List Value))}
    {keyOf : IndexSchema → List Value} (indexes : List Index) {edited : List Index}
    (done : editAll edit keyOf indexes = .ok edited) (changed : Index) (mem : changed ∈ edited) :
    ∃ index ∈ indexes, changed.schema = index.schema ∧
      edit index.entries (keyOf index.schema) = .ok changed.entries := by
  induction indexes generalizing edited with
  | nil =>
    cases done
    cases mem
  | cons index rest ih =>
    obtain ⟨entries, first, later⟩ := bind_ok done
    obtain ⟨others, tail, same⟩ := bind_ok later
    cases same
    rcases mem_cons.mp mem with rfl | old
    · exact ⟨index, .head _, rfl, first⟩
    · obtain ⟨found, present, rest⟩ := ih tail old
      exact ⟨found, .tail _ present, rest⟩

end Index

theorem rowid_of_compareKeys (left right : List Value) (first second : Int)
    (lengths : left.length = right.length)
    (equal : compareKeys (left ++ [.integer first]) (right ++ [.integer second]) = .eq) :
    first = second := by
  induction left generalizing right with
  | nil =>
    cases length_eq_zero_iff.mp lengths.symm
    rw [nil_append, nil_append, compareKeys_cons] at equal
    exact compare_eq_iff_eq.mp (Ordering.then_eq_eq.mp equal).1
  | cons value rest ih =>
    cases right with
    | nil => cases lengths
    | cons other others =>
      rw [cons_append, cons_append, compareKeys_cons] at equal
      exact ih others (Nat.succ.inj lengths) (Ordering.then_eq_eq.mp equal).2

namespace Table

theorem mem_entries_iff (table : Table) (row : Int × Record) :
    row ∈ table.rows.entries ↔ table.rows.get row.1 = some row.2 :=
  (table.rows.get_eq_some_iff row.1 row.2).symm

variable {table next : Table} {record : Record} {values : List Value} {act : ConflictAction}

variable {rowid : Int}

theorem Mirrors.entry_eq (mirrors : table.Mirrors) {index : Index} (mem : index ∈ table.indexes)
    (present : table.rows.get rowid = some record) {entry : List Value}
    (held : entry ∈ index.entries)
    (equal : compareKeys (table.schema.rowKey rowid record index.schema) entry = .eq) :
    entry = table.schema.rowKey rowid record index.schema := by
  obtain ⟨row, here, same⟩ := mem_map.mp ((mirrors index mem).mem_iff.mp held)
  rw [← same] at equal
  have rowids := rowid_of_compareKeys _ _ _ _ (by simp) equal
  have found := (mem_entries_iff table row).mp here
  rw [← rowids, present] at found
  cases found
  rw [← same, rowids]

theorem removeRow_mirrors (mirrors : table.Mirrors)
    (present : table.rows.get rowid = some record) (done : table.removeRow rowid record = .ok next)
    : next.Mirrors := by
  obtain ⟨indexes, edited, rfl⟩ := removeRow_ok done
  intro changed mem
  obtain ⟨index, old, schema, deleted⟩ := editAll_mem _ edited changed mem
  obtain ⟨entry, equal, split⟩ := deleteEntry_perm deleted
  have held : entry ∈ index.entries := split.mem_iff.mpr (.head _)
  rw [mirrors.entry_eq old present held equal] at split
  have rows := (table.rows.entries_erase_perm rowid record present).map
    fun row => table.schema.rowKey row.1 row.2 index.schema
  rw [schema]
  exact (split.symm.trans ((mirrors index old).trans rows)).cons_inv

theorem removeRow_settled (settled : table.Settled)
    (done : table.removeRow rowid record = .ok next) : next.Settled := by
  have shrinks := removeRow_shrinks done
  intro other kept found pos
  rw [shrinks.schema]
  exact settled other kept (shrinks.rows other kept found) pos

theorem addRow_mirrors {rowid : Value} (mirrors : table.Mirrors) (stored : table.KeysStored values)
    (done : table.addRow rowid values (makeRecord table.schema.affinities values) = .ok next) :
    next.Mirrors := by
  obtain ⟨num, indexes, rfl, absent, edited, rfl⟩ := addRow_ok done
  intro changed mem
  obtain ⟨index, old, schema, added⟩ := editAll_mem _ edited changed mem
  have placed := insertEntry_perm added
  rw [registerKey_stored table.schema num values index.schema (stored index old)] at placed
  have rows := (table.rows.entries_insert_perm num
    (makeRecord table.schema.affinities values) absent).map
    fun row => table.schema.rowKey row.1 row.2 index.schema
  rw [schema]
  exact placed.trans (((mirrors index old).cons _).trans rows.symm)

theorem addRow_settled {rowid : Value} {held : List Value} (settled : table.Settled)
    (done : table.addRow rowid values (makeRecord table.schema.affinities held) = .ok next) :
    next.Settled := by
  obtain ⟨num, indexes, rfl, absent, edited, rfl⟩ := addRow_ok done
  intro other record found pos
  rw [OrderedMap.get_insert] at found
  split at found
  · cases found
    exact makeRecord_keeps table.schema held pos
  · exact settled other record found pos

structure Indexed (table : Table) : Prop where
  mirrors : table.Mirrors
  settled : table.Settled

theorem Indexed.recorded (indexed : table.Indexed) : table.newRowid.1.Indexed := by
  constructor
  · intro index mem
    rw [newRowid_indexes] at mem
    rw [newRowid_rows, newRowid_schema]
    exact indexed.mirrors index mem
  · intro rowid record found
    rw [newRowid_rows] at found
    rw [newRowid_schema]
    exact indexed.settled rowid record found

theorem Indexed.removed (indexed : table.Indexed)
    (present : table.rows.get rowid = some record) (done : table.removeRow rowid record = .ok next)
    : next.Indexed :=
  ⟨removeRow_mirrors indexed.mirrors present done, removeRow_settled indexed.settled done⟩

theorem KeysStored.transfer {before after : Table} (stored : before.KeysStored values)
    (schema : after.schema = before.schema)
    (indexes : after.indexes.map Index.schema = before.indexes.map Index.schema) :
    after.KeysStored values := by
  intro index mem
  have here : index.schema ∈ before.indexes.map Index.schema := by
    rw [← indexes]
    exact mem_map_of_mem mem
  obtain ⟨other, present, same⟩ := mem_map.mp here
  rw [schema, ← same]
  exact stored other present

theorem insertRow_indexed {row : List (Option Source)} (indexed : table.Indexed)
    (allowed : table.IndexesStored (.insert row act))
    (done : table.insertRow row act = .ok next) : next.Indexed := by
  obtain ⟨resolved, rowid, cleared, found, _, _, probed, added⟩ := insertRow_ok done
  have shrinks := uniqueChecks_shrinks _ probed
  have schema := shrinks.schema.trans (resolveRowid_schema found)
  have indexes := shrinks.indexes.trans (resolveRowid_indexes found)
  have before : cleared.Indexed := uniqueChecks_keeps Indexed.removed _
      (resolveRowid_keeps Indexed.recorded Indexed.removed indexed found) probed
  obtain ⟨aligned, stored⟩ := allowed
  rw [chooseSources_schema (resolveRowid_schema found), aligned] at added
  constructor
  · exact addRow_mirrors before.mirrors (stored.transfer schema indexes) added
  · exact addRow_settled before.settled added

theorem updateRow_indexed {assignment : Assignment} (indexed : table.Indexed)
    (allowed : table.IndexesStored (.update rowid assignment act))
    (done : table.updateRow rowid assignment act = .ok next) : next.Indexed := by
  obtain ⟨record, removed, present, taken, added⟩ := updateRow_ok done
  have shrinks := removeRow_shrinks taken
  have before := indexed.removed present taken
  rw [← shrinks.schema] at added
  constructor
  · exact addRow_mirrors before.mirrors
      ((allowed record present).transfer shrinks.schema shrinks.indexes) added
  · exact addRow_settled before.settled added

theorem populate_perm (index : IndexSchema) (rows : List (Int × Record))
    (entries : List (List Value)) {res : List (List Value)} (done : rows.foldlM (fun entries row =>
      Index.insertEntry entries (populateKey row.1 row.2 index)) entries = .ok res) :
    res.Perm ((rows.map fun row => (populateKey row.1 row.2 index).map storedValue) ++ entries) := by
  induction rows generalizing entries with
  | nil =>
    cases done
    exact Perm.refl _
  | cons row rest ih =>
    obtain ⟨placed, added, later⟩ := bind_ok done
    have first := insertEntry_perm added
    refine (ih placed later).trans ?_
    exact (first.append_left _).trans perm_middle

theorem populateKey_stored (settled : table.Settled) (index : IndexSchema)
    (ordinary : ∀ col ∈ index.columns, table.schema.rowidAlias ≠ some col.position)
    (present : table.rows.get rowid = some record) :
    (populateKey rowid record index).map storedValue = table.schema.rowKey rowid record index := by
  simp only [populateKey, map_append, map_map]
  congr 1
  apply map_congr_left
  intro col mem
  have keeps := settled rowid record present col.position
  rw [comp_apply, keeps.1, readColumn, if_neg (ordinary col mem),
    readRecord_keeps table.schema record col.position keeps]

theorem createIndex_indexed {index : IndexSchema} (indexed : table.Indexed)
    (allowed : table.IndexesStored (.createIndex index)) (done : table.createIndex index = .ok next)
    : next.Indexed := by
  obtain ⟨entries, filled, same⟩ := bind_ok (orFail_ok done)
  cases same
  constructor
  swap
  · exact indexed.settled
  intro changed mem
  rcases mem_append.mp mem with old | new
  · exact indexed.mirrors changed old
  cases mem_singleton.mp new
  have placed := populate_perm index _ _ filled
  rw [append_nil] at placed
  refine placed.trans (Perm.of_eq (map_congr_left ?_))
  intro row here
  rcases allowed with none | ordinary
  · rw [none] at here
    cases here
  · exact populateKey_stored indexed.settled index ordinary ((mem_entries_iff table row).mp here)

theorem step_indexed {step : TableStep} (indexed : table.Indexed)
    (allowed : table.IndexesStored step) (done : table.step step = some next) : next.Indexed := by
  rcases step_some done with finished | rfl | rfl
  · cases step with
    | createIndex index => exact createIndex_indexed indexed allowed finished
    | insert row act => exact insertRow_indexed indexed allowed finished
    | update rowid assignment act => exact updateRow_indexed indexed allowed finished
    | delete rowid =>
      obtain ⟨record, present, removed⟩ := deleteRow_ok finished
      exact indexed.removed present removed
  · exact indexed
  · exact indexed.recorded

theorem empty_indexed (schema : TableSchema) (indexes : List IndexSchema) :
    (Table.empty schema indexes).Indexed := by
  constructor
  · intro index mem
    obtain ⟨declared, _, rfl⟩ := mem_map.mp mem
    exact Perm.refl _
  · intro rowid record found
    cases found

end Table

/-- In every run whose steps index what they store, every index holds one entry
for each row of its table: the values a query reads, then the rowid. -/
theorem indexes_mirror_rows (database : Database)
    (reached : Reached Table.IndexesStored database) (table : Table) (member : table ∈ database)
    (index : Index) (here : index ∈ table.indexes) :
    index.entries.Perm
      (table.rows.entries.map fun row => table.schema.rowKey row.1 row.2 index.schema) := by
  have indexed := reached.invariant Table.empty_indexed
    (fun _ _ _ before allowed done => Table.step_indexed before allowed done) table member
  exact indexed.mirrors index here

/-- A table `t(a INTEGER)` with an index on `a`. -/
def indexedSchema : TableSchema where
  name := "t"
  columns := [{ name := "a", declaredType := "INTEGER".toList }]

def indexOnA : IndexSchema where
  name := "i"
  unique := false
  columns := [{ name := "a", position := 0 }]

/-- The table after `INSERT INTO t VALUES (5)`, or with another value for 5. -/
def indexedRow (stored keyed : Value) : Table :=
  ⟨indexedSchema, OrderedMap.empty.insert 1 [stored], [⟨indexOnA, [[keyed, .integer 1]]⟩], none⟩

theorem integer_is_indexed :
    Reached Table.IndexesStored [indexedRow (.integer 5) (.integer 5)] ∧
      ∀ index ∈ (indexedRow (.integer 5) (.integer 5)).indexes,
        index.entries.Perm ((indexedRow (.integer 5) (.integer 5)).rows.entries.map fun row =>
          indexedSchema.rowKey row.1 row.2 index.schema) := by
  have created : Reached IndexesStored [Table.empty indexedSchema [indexOnA]] :=
    .createTable indexedSchema [indexOnA] .start
  have inserted : Reached IndexesStored [indexedRow (.integer 5) (.integer 5)] := by
    refine @Reached.step _ _ 0 _ _ (.insert [some (.plain (.integer 5))] .abort) created rfl
      ⟨rfl, ?_⟩ rfl
    intro index member column here ordinary affinity value typed held
    cases List.mem_singleton.mp member
    cases List.mem_singleton.mp here
    cases held
    cases (show some Affinity.integer = some affinity from typed)
    rfl
  constructor
  · exact inserted
  · intro index member
    exact indexes_mirror_rows _ inserted _ (.head _) index member

/-- The text `'5'` is stored as an integer and indexed as text. -/
theorem text_is_indexed_unconverted :
    Reached (fun _ _ => True) [indexedRow (.integer 5) (.text ['5'])] ∧
      ∃ index ∈ (indexedRow (.integer 5) (.text ['5'])).indexes,
        ¬ index.entries.Perm
          ((indexedRow (.integer 5) (.text ['5'])).rows.entries.map fun row =>
            indexedSchema.rowKey row.1 row.2 index.schema) := by
  constructor
  · exact @Reached.step _ _ 0 _ _ (.insert [some (.plain (.text ['5']))] .abort)
      (.createTable indexedSchema [indexOnA] .start) rfl trivial rfl
  · exact ⟨_, .head _, by decide⟩

/-- Rows inserted one by one, each with its rowid and one register for each column. -/
def Table.addRows (table : Table) (rows : List (Int × List Value)) : Except Failure Table :=
  rows.foldlM (fun table row =>
    table.addRow (.integer row.1) row.2 (makeRecord table.schema.affinities row.2)) table

/-- Indexed columns whose value in the register is the value in the record: not the
rowid's alias, and in stored form. -/
def TableSchema.RegistersStored (schema : TableSchema) (index : IndexSchema)
    (values : List Value) : Prop :=
  ∀ column ∈ index.columns, schema.rowidAlias ≠ some column.position ∧
    ∀ affinity value, schema.affinities[column.position]? = some affinity →
      values[column.position]? = some value →
      storedValue (applyAffinity affinity value) = storedValue value

theorem compareKeys_self (key : List Value) : compareKeys key key = .eq := by
  have values (value : Value) : compareValues value value = .eq := by
    cases value with
    | real number => cases level : number.level <;> simp [compareValues, Binary64.partialCmp, level]
    | _ => simp [compareValues]
  induction key with
  | nil => rfl
  | cons value rest ih => rw [compareKeys_cons, values, ih]; rfl

namespace Table

variable {schema} {index : IndexSchema}

theorem addRows_entries (rows : List (Int × List Value)) {table next : Table}
    {entries filled : List (List Value)} (held : table.indexes = [⟨index, entries⟩])
    (left : next.indexes = [⟨index, filled⟩]) (done : table.addRows rows = .ok next) :
    filled.Perm ((rows.map fun row =>
      (table.schema.registerKey (.integer row.1) row.2 index).map storedValue) ++ entries) := by
  induction rows generalizing table entries with
  | nil =>
    cases done
    rw [held] at left
    cases left
    exact .refl _
  | cons row rest ih =>
    obtain ⟨middle, added, later⟩ := bind_ok done
    obtain ⟨_, indexes, number, _, edited, rfl⟩ := addRow_ok added
    cases number
    rw [held] at edited
    obtain ⟨placed, inserted, same⟩ := bind_ok edited
    cases same
    exact (ih rfl later).trans
      (((Index.insertEntry_perm inserted).append_left _).trans perm_middle)

theorem keys_agree_iff (rowid : Int) {values : List Value}
    (unset : ∀ pos, schema.rowidAlias = some pos → values.getD pos .null = .null) :
    (populateKey rowid (makeRecord schema.affinities values) index).map storedValue =
        (schema.registerKey (.integer rowid) values index).map storedValue ↔
      schema.RegistersStored index values := by
  simp only [populateKey, TableSchema.registerKey, map_append, map_map, append_cancel_right_eq,
    map_inj_left, RegistersStored]
  refine forall_congr' fun column => imp_congr_right fun _ => ?_
  simp only [comp_apply, getD_eq_getElem?_getD, makeRecord_getElem]
  cases here : values[column.position]? with
  | none => by_cases aliased : schema.rowidAlias = some column.position <;>
      simp [aliased, storedValue]
  | some value =>
    by_cases aliased : schema.rowidAlias = some column.position
    · have null := unset _ aliased
      rw [getD_eq_getElem?_getD, here] at null
      cases null
      cases schema.affinities[column.position]? <;>
        simp [aliased, applyAffinity_null, storedValue]
    · cases schema.affinities[column.position]? <;> simp [aliased, storedValue_idem]

end Table

/-- Filling a new index gives the entries of inserting row by row, and DELETE finds its
entry for every row, exactly if the registers hold what the records do. -/
theorem bulk_index_agrees_iff (table : Table) (index : IndexSchema) (rows : List (Int × List Value))
    {stored : OrderedMap Int Record} {sequence : Option Int} {bulk single : List (List Value)}
    (same : table.rows.entries.Perm
      (rows.map fun row => (row.1, makeRecord table.schema.affinities row.2)))
    (unset : ∀ row ∈ rows, ∀ pos, table.schema.rowidAlias = some pos →
      row.2.getD pos .null = .null)
    (filled : table.createIndex index =
      .ok { table with indexes := table.indexes ++ [⟨index, bulk⟩] })
    (grown : (Table.empty table.schema [index]).addRows rows =
      .ok ⟨table.schema, stored, [⟨index, single⟩], sequence⟩) :
    (bulk.Perm single ∧ ∀ row ∈ table.rows.entries,
        ∃ rest, Index.deleteEntry bulk (table.schema.rowKey row.1 row.2 index) = .ok rest) ↔
      ∀ row ∈ rows, table.schema.RegistersStored index row.2 := by
  have one := Table.addRows_entries rows rfl rfl grown
  obtain ⟨entries, populated, built⟩ := bind_ok (orFail_ok filled)
  cases append_cancel_left (congrArg Table.indexes (Except.ok.inj built))
  have all := populate_perm index _ _ populated
  rw [append_nil] at one all
  replace all := all.trans (same.map _)
  rw [map_map] at all
  have agree := fun row (mem : row ∈ rows) =>
    @Table.keys_agree_iff table.schema index row.1 row.2 (unset row mem)
  constructor
  · rintro ⟨perm, -⟩ row mem
    -- A key ends with its rowid, so the equal key is that of the same row.
    have listed := (all.symm.trans (perm.trans one)).mem_iff.mp (mem_map_of_mem mem)
    obtain ⟨other, inside, equal⟩ := mem_map.mp listed
    have rowids : other.1 = row.1 := by
      have last := congrArg getLast? equal
      simpa [populateKey, TableSchema.registerKey, storedValue] using last
    have nodup : (rows.map Prod.fst).Nodup := by
      have keys := (same.map Prod.fst).nodup_iff.mp table.rows.keys_nodup
      rwa [map_map] at keys
    cases inj_on_of_nodup_map nodup inside mem rowids
    exact (agree row mem).mp equal.symm
  · intro stored
    have keys : bulk.Perm (rows.map fun row =>
        (table.schema.registerKey (.integer row.1) row.2 index).map storedValue) :=
      all.trans (.of_eq (map_congr_left fun row mem => (agree row mem).mpr (stored row mem)))
    refine ⟨keys.trans one.symm, fun row mem => ?_⟩
    obtain ⟨given, inside, rfl⟩ := mem_map.mp (same.mem_iff.mp mem)
    have held : table.schema.rowKey given.1 (makeRecord table.schema.affinities given.2) index ∈
        bulk := by
      rw [keys.mem_iff, ← registerKey_stored _ _ _ _ fun column here _ =>
        (stored given inside column here).2]
      exact mem_map_of_mem inside
    refine ⟨_, if_pos (any_eq_true.mpr ⟨_, held, ?_⟩)⟩
    rw [compareKeys_self]
    rfl

def threeNumbers : OrderedMap Int Record :=
  ((OrderedMap.empty.insert 1 [.integer 7]).insert 2 [.integer 5]).insert 3 [.integer 7]

/-- Filled at once or row by row, the index of three rows has the same entries. -/
theorem bulk_index_of_integers :
    let rows := [(3, [.integer 7]), (1, [.integer 7]), (2, [.integer 5])]
    ∃ bulk single,
      (Table.mk indexedSchema threeNumbers [] none).createIndex indexOnA =
          .ok ⟨indexedSchema, threeNumbers, [⟨indexOnA, bulk⟩], none⟩ ∧
        (Table.empty indexedSchema [indexOnA]).addRows rows =
          .ok ⟨indexedSchema, threeNumbers, [⟨indexOnA, single⟩], none⟩ ∧ bulk.Perm single := by
  refine ⟨_, _, rfl, rfl, ((bulk_index_agrees_iff ⟨indexedSchema, threeNumbers, [], none⟩ indexOnA
    [(3, [.integer 7]), (1, [.integer 7]), (2, [.integer 5])] (by decide) (by simp [indexedSchema])
    rfl rfl).mpr ?_).1⟩
  intro row mem column here
  cases mem_singleton.mp here
  simp only [mem_cons, not_mem_nil, or_false] at mem
  rcases mem with rfl | rfl | rfl
  all_goals
    refine ⟨by decide, fun affinity value typed held => ?_⟩
    cases (show some Affinity.integer = some affinity from typed)
    cases held
    rfl

/-- An index on the rowid's alias is filled with NULL; a later DELETE finds no entry. -/
theorem bulk_alias_index_lacks_row :
    let aliased := { indexedSchema with rowidAlias := some 0 }
    (Table.mk aliased (OrderedMap.empty.insert 7 [.null]) [] none).createIndex indexOnA =
        .ok ⟨aliased, OrderedMap.empty.insert 7 [.null], [⟨indexOnA, [[.null, .integer 7]]⟩], none⟩ ∧
      (Table.empty aliased [indexOnA]).addRows [(7, [.null])] =
        .ok ⟨aliased, OrderedMap.empty.insert 7 [.null],
          [⟨indexOnA, [[.integer 7, .integer 7]]⟩], none⟩ ∧
      Index.deleteEntry [[.null, .integer 7]] (aliased.rowKey 7 [.null] indexOnA) =
        .error .keyNotFound :=
  ⟨rfl, rfl, rfl⟩

end SqliteRs
