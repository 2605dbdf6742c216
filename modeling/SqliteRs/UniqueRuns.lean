import SqliteRs.UniqueIndex

/-!
Uniqueness over whole runs. INSERT probes every UNIQUE index and trusts the
order its entries are kept in; UPDATE and CREATE UNIQUE INDEX probe nothing. On
exact values under BINARY the probe meets every row with the same key, so an
INSERT keeps the rows distinct; the other two keep them distinct only when the
rows they leave are.
-/

namespace SqliteRs

open List Function OrderedMap Index Value TableSchema

/-- A UNIQUE index that the probe decides: one with the rowid among its columns
needs no probe. -/
def IndexSchema.Probed (index : IndexSchema) (schema : TableSchema) : Prop :=
  index.unique = true ∧ ∀ column ∈ index.columns, schema.rowidAlias ≠ some column.position

def IndexSchema.lead (index : IndexSchema) (key : List Value) : List Place :=
  (key.take index.columns.length).map Value.place

/-- The run invariant: rows distinct in every UNIQUE index, and the entries of a
probed one exact and in order. -/
structure Table.Unique (table : Table) : Prop where
  indexed : table.Indexed
  distinct : ∀ index ∈ table.indexes, index.schema.unique = true → ∀ first second : Int × Record,
    table.rows.get first.1 = some first.2 → table.rows.get second.1 = some second.2 →
    table.schema.SameKey index.schema first second → first.1 = second.1
  exact : ∀ index ∈ table.indexes, index.schema.Probed table.schema → ∀ rowid record,
    table.rows.get rowid = some record → ∀ column ∈ index.schema.columns,
    (table.schema.readRecord record column.position).Exact
  sorted : ∀ index ∈ table.indexes, index.schema.Probed table.schema →
    index.entries.Pairwise fun left right => index.schema.lead left ≤ index.schema.lead right

/-- Steps that keep rows distinct: an INSERT with exact values under BINARY, an
UPDATE that gives no row the key of another, an index made over distinct rows. -/
def Table.UniqueKept (table : Table) (step : TableStep) : Prop :=
  table.IndexesStored step ∧
    match step with
    | .createIndex index =>
      index.unique = true →
        (∀ first second : Int × Record, table.rows.get first.1 = some first.2 →
          table.rows.get second.1 = some second.2 → table.schema.SameKey index first second →
          first.1 = second.1) ∧
        (index.Probed table.schema → ∀ rowid record, table.rows.get rowid = some record →
          ∀ column ∈ index.columns, (table.schema.readRecord record column.position).Exact)
    | .insert row action =>
      ∀ index ∈ table.indexes, index.schema.Probed table.schema →
        ∀ column ∈ index.schema.columns, column.collation = .binary ∧
          (((table.chooseSources row action).map Source.value).getD column.position .null).Exact
    | .update rowid assignment _ =>
      ∀ record, table.rows.get rowid = some record → ∀ index ∈ table.indexes,
        (index.schema.Probed table.schema → ∀ column ∈ index.schema.columns,
          ((table.updatedValues rowid record assignment).getD column.position .null).Exact) ∧
        (index.schema.unique = true → ∀ target other kept, other ≠ rowid →
          assignment.rowid.getD (.integer rowid) = .integer target →
          table.rows.get other = some kept →
          ¬ table.schema.SameKey index.schema (other, kept) (target,
            makeRecord table.schema.affinities (table.updatedValues rowid record assignment)))
    | .delete _ => True

section KeyOrder

theorem compare_places_cons (left right : Place) (lefts rights : List Place) :
    compare (left :: lefts) (right :: rights) =
      (compare left right).then (compare lefts rights) := List.compareLex_cons_cons

variable {Rank : Type} (left right : List Value)

theorem compareKeys_append (tail other : List Value)
    (lengths : left.length = right.length) (exactLeft : ∀ value ∈ left, value.Exact)
    (exactRight : ∀ value ∈ right, value.Exact) : compareKeys (left ++ tail) (right ++ other) =
      (compare (left.map Value.place) (right.map Value.place)).then (compareKeys tail other) := by
  induction left generalizing right with
  | nil =>
    cases length_eq_zero_iff.mp lengths.symm
    rfl
  | cons value rest ih =>
    cases right with
    | nil => cases lengths
    | cons next others =>
      have tails := ih others (Nat.succ.inj lengths)
        (fun value mem => exactLeft value (.tail _ mem))
        (fun value mem => exactRight value (.tail _ mem))
      rw [cons_append, cons_append, compareKeys_cons, tails, map_cons, map_cons,
        compare_places_cons, compareValues_place value next (exactLeft value (.head _))
          (exactRight next (.head _)), Ordering.then_assoc]

theorem then_gt_ne_lt (left right : List Place) :
    ((compare left right).then .gt != .lt) = true ↔ ¬ left < right := by
  rw [← places_agrees.lt]
  cases compare left right <;> simp

theorem find_first_equal {Entry : Type} [LinearOrder Rank] (rank : Entry → Rank)
    (target : Rank) (entries : List Entry)
    (sorted : entries.Pairwise fun left right => rank left ≤ rank right) (reaches : Entry → Bool)
    (meaning : ∀ entry ∈ entries, reaches entry = true ↔ ¬ rank entry < target)
    (entry : Entry) (mem : entry ∈ entries) (equal : rank entry = target) :
    ∃ found, entries.find? reaches = some found ∧ rank found = target := by
  induction entries with
  | nil => cases mem
  | cons first rest ih =>
    obtain ⟨above, later⟩ := pairwise_cons.mp sorted
    by_cases here : reaches first = true
    · refine ⟨first, find?_cons_of_pos here, ?_⟩
      have reached := not_lt.mp ((meaning first (.head _)).mp here)
      rcases mem_cons.mp mem with rfl | behind
      · exact equal
      · exact le_antisymm (equal ▸ above entry behind) reached
    · rw [find?_cons_of_neg here]
      apply ih later (fun other inside => meaning other (.tail _ inside))
      rcases mem_cons.mp mem with rfl | behind
      · exact absurd ((meaning entry (.head _)).mpr (by rw [equal]; exact lt_irrefl _)) here
      · exact behind

theorem zip_all_equal (probe rest : List Value) (exactLeft : ∀ value ∈ left, value.Exact)
    (exactProbe : ∀ value ∈ probe, value.Exact) (equal : left.map Value.place = probe.map Value.place) :
    (((left ++ rest).zip probe).all fun pair => pair.1.compare pair.2 .binary == .eq) = true := by
  induction left generalizing probe with
  | nil =>
    cases map_eq_nil_iff.mp equal.symm
    simp
  | cons value others ih =>
    cases probe with
    | nil => cases equal
    | cons wanted more =>
      obtain ⟨head, tail⟩ := cons.inj equal
      have first := compare_binary_place value wanted (exactLeft value (.head _))
        (exactProbe wanted (.head _))
      rw [head] at first
      simp only [cons_append, zip_cons_cons, all_cons, Bool.and_eq_true]
      constructor
      · rw [first]
        simp
      · exact ih more (fun other inside => exactLeft other (.tail _ inside))
          (fun other inside => exactProbe other (.tail _ inside)) tail

theorem Index.place_sorted [LinearOrder Rank] (rank : List Value → Rank)
    (key held : List Value) (entries : List (List Value))
    (sorted : entries.Pairwise fun left right => rank left ≤ rank right)
    (before : ∀ entry ∈ entries, compareKeys key entry = .lt → rank held ≤ rank entry)
    (behind : ∀ entry ∈ entries, compareKeys key entry ≠ .lt → rank entry ≤ rank held) :
    (place key held entries).Pairwise fun left right => rank left ≤ rank right := by
  induction entries with
  | nil => exact pairwise_singleton _ _
  | cons first rest ih =>
    obtain ⟨above, later⟩ := pairwise_cons.mp sorted
    simp only [place]
    split
    · rename_i less
      have lower := before first (.head _) less
      constructor
      · intro entry mem
        rcases mem_cons.mp mem with rfl | inside
        · exact lower
        · exact le_trans lower (above entry inside)
      · exact sorted
    · rename_i notLess
      constructor
      · intro entry mem
        rcases mem_cons.mp ((place_perm _ _ _).mem_iff.mp mem) with rfl | inside
        · exact behind first (.head _) notLess
        · exact above entry inside
      · exact ih later (fun entry inside => before entry (.tail _ inside))
          (fun entry inside => behind entry (.tail _ inside))

theorem compareKeys_rowid_le (first second : Int)
    (lengths : left.length = right.length) (exactLeft : ∀ value ∈ left, value.Exact)
    (exactRight : ∀ value ∈ right, value.Exact) :
    (compareKeys (left ++ [.integer first]) (right ++ [.integer second]) = .lt →
        left.map Value.place ≤ right.map Value.place) ∧
      (compareKeys (left ++ [.integer first]) (right ++ [.integer second]) ≠ .lt →
        right.map Value.place ≤ left.map Value.place) := by
  rw [compareKeys_append left right _ _ lengths exactLeft exactRight, ne_eq, Ordering.then_eq_lt]
  have less := places_agrees.lt (left.map place) (right.map place)
  have same := places_agrees.eq (left.map place) (right.map place)
  constructor
  · rintro (lower | ⟨equal, _⟩)
    · exact le_of_lt (less.mp lower)
    · exact le_of_eq (same.mp equal)
  intro notLess
  apply not_lt.mp
  intro lower
  exact notLess (.inl (less.mpr lower))

end KeyOrder

namespace Table

def columnValues (schema : TableSchema) (index : IndexSchema) (record : Record) : List Value :=
  index.columns.map fun column => schema.readRecord record column.position

variable {schema : TableSchema} {key : List Value} {res : List (List Value)}
  {staged record : Record} {first second : Int × Record} {act : ConflictAction}

theorem rowKey_probed {index : IndexSchema} (probed : index.Probed schema) (rowid : Int)
    (record : Record) :
    schema.rowKey rowid record index = columnValues schema index record ++ [.integer rowid] := by
  simp only [rowKey]
  congr 1
  apply map_congr_left
  intro col inside
  rw [readColumn, if_neg (probed.2 col inside)]

theorem lead_append (index : IndexSchema) (values : List Value) (rowid : Value)
    (width : values.length = index.columns.length) :
    index.lead (values ++ [rowid]) = values.map Value.place := by
  rw [IndexSchema.lead, ← width, take_left]

theorem columnValues_length (schema : TableSchema) (index : IndexSchema) (record : Record) :
    (columnValues schema index record).length = index.columns.length := length_map _

variable {table next : Table} {index : Index}

def KeyForm (index : IndexSchema) (key : List Value) : Prop :=
  ∃ values rowid, key = values ++ [.integer rowid] ∧ values.length = index.columns.length ∧
    ∀ value ∈ values, value.Exact

theorem exact_ne_nan {value : Value} (exact : value.Exact) : value ≠ .real .nan := by
  rintro rfl
  exact exact rfl

theorem KeyForm.stored {index : IndexSchema} (form : KeyForm index key) :
    key.map storedValue = key := by
  obtain ⟨values, rowid, rfl, _, exact⟩ := form
  rw [map_append, map_congr_left fun value inside =>
    storedValue_of_ne value (exact_ne_nan (exact value inside)), map_id']
  rfl

theorem insertEntry_sorted (index : IndexSchema) {entries : List (List Value)}
    (forms : ∀ entry ∈ entries, KeyForm index entry) (form : KeyForm index key)
    (sorted : entries.Pairwise fun left right => index.lead left ≤ index.lead right)
    (done : insertEntry entries key = .ok res) :
    res.Pairwise fun left right => index.lead left ≤ index.lead right := by
  rw [insertEntry_eq done, form.stored]
  obtain ⟨values, rowid, rfl, width, exact⟩ := form
  -- Entries stand on the side of the new key that their places are on.
  apply place_sorted _ _ _ _ sorted
  all_goals
    intro entry held side
    obtain ⟨others, other, rfl, wide, exactOther⟩ := forms entry held
    rw [lead_append _ _ _ width, lead_append _ _ _ wide]
    have sides := compareKeys_rowid_le values others rowid other (width.trans wide.symm) exact
      exactOther
  · exact sides.1 side
  · exact sides.2 side

theorem Unique.entry_form (unique : table.Unique) (mem : index ∈ table.indexes)
    (probed : index.schema.Probed table.schema) {entry : List Value} (held : entry ∈ index.entries) :
    ∃ rowid record, table.rows.get rowid = some record ∧
      entry = columnValues table.schema index.schema record ++ [.integer rowid] ∧
      ∀ value ∈ columnValues table.schema index.schema record, value.Exact := by
  obtain ⟨row, here, same⟩ := mem_map.mp ((unique.indexed.mirrors index mem).mem_iff.mp held)
  have present := (table.mem_entries_iff row).mp here
  refine ⟨row.1, row.2, present, same.symm.trans (rowKey_probed probed _ _), fun value inside => ?_⟩
  obtain ⟨col, listed, rfl⟩ := mem_map.mp inside
  exact unique.exact index mem probed row.1 row.2 present col listed

variable {rowid : Int}

theorem Unique.conflict_found (unique : table.Unique) (mem : index ∈ table.indexes)
    (probed : index.schema.Probed table.schema)
    (exactProbe : ∀ value ∈ columnValues table.schema index.schema staged, value.Exact)
    (present : table.rows.get rowid = some record)
    (same : (columnValues table.schema index.schema record).map Value.place =
      (columnValues table.schema index.schema staged).map Value.place) :
    ∃ key, conflict index.entries (table.probe index.schema staged) = some key := by
  have probeEq : table.probe index.schema staged = columnValues table.schema index.schema staged :=
    rfl
  have meaning : ∀ entry ∈ index.entries,
      (compareKeys entry (table.probe index.schema staged) != .lt) = true ↔ ¬ index.schema.lead entry <
          (columnValues table.schema index.schema staged).map Value.place := by
    intro entry held
    obtain ⟨other, kept, _, rfl, exact⟩ := unique.entry_form mem probed held
    have widths : (columnValues table.schema index.schema kept).length =
        (columnValues table.schema index.schema staged).length := by
      rw [columnValues_length, columnValues_length]
    have compared := compareKeys_append _ _ [.integer other] [] widths exact exactProbe
    rw [append_nil] at compared
    rw [probeEq, compared, lead_append _ _ _ (columnValues_length _ _ _)]
    exact then_gt_ne_lt _ _
  have entry : columnValues table.schema index.schema record ++ [.integer rowid] ∈
      index.entries := by
    rw [(unique.indexed.mirrors index mem).mem_iff, ← rowKey_probed probed]
    exact mem_map_of_mem ((table.mem_entries_iff (rowid, record)).mpr present)
  obtain ⟨found, sought, equal⟩ := find_first_equal index.schema.lead _ _
    (unique.sorted index mem probed) _ meaning _ entry
    ((lead_append _ _ _ (columnValues_length _ _ _)).trans same)
  obtain ⟨other, kept, _, rfl, exact⟩ := unique.entry_form mem probed (mem_of_find?_eq_some sought)
  refine ⟨_, Option.filter_eq_some_iff.mpr ⟨sought, ?_⟩⟩
  rw [lead_append _ _ _ (columnValues_length _ _ _)] at equal
  rw [probeEq, Bool.and_eq_true_iff]
  constructor
  · simp [columnValues_length]
  · exact zip_all_equal _ _ _ exact exactProbe equal

theorem Unique.recorded (unique : table.Unique) : table.newRowid.1.Unique := by
  constructor
  · exact unique.indexed.recorded
  · intro index mem
    rw [newRowid_indexes] at mem
    rw [newRowid_rows, newRowid_schema]
    exact unique.distinct index mem
  · intro index mem
    rw [newRowid_indexes] at mem
    rw [newRowid_rows, newRowid_schema]
    exact unique.exact index mem
  · intro index mem
    rw [newRowid_indexes] at mem
    rw [newRowid_schema]
    exact unique.sorted index mem

theorem Unique.removed (unique : table.Unique)
    (present : table.rows.get rowid = some record) (done : table.removeRow rowid record = .ok next)
    : next.Unique := by
  have shrinks := removeRow_shrinks done
  have indexed := unique.indexed.removed present done
  obtain ⟨indexes, edited, rfl⟩ := removeRow_ok done
  constructor
  · exact indexed
  · intro changed mem isUnique first second here there
    obtain ⟨index, old, schema, _⟩ := editAll_mem _ edited changed mem
    rw [schema] at isUnique ⊢
    exact unique.distinct index old isUnique first second (shrinks.rows _ _ here)
      (shrinks.rows _ _ there)
  · intro changed mem probed other kept found
    obtain ⟨index, old, schema, _⟩ := editAll_mem _ edited changed mem
    rw [schema] at probed ⊢
    exact unique.exact index old probed other kept (shrinks.rows _ _ found)
  · intro changed mem probed
    obtain ⟨index, old, schema, deleted⟩ := editAll_mem _ edited changed mem
    rw [schema] at probed ⊢
    exact (unique.sorted index old probed).sublist (deleteEntry_sublist deleted)

theorem read_exact (schema : TableSchema) (values : List Value) (pos : Nat)
    (stored : ∀ affinity value, schema.affinities[pos]? = some affinity →
      values[pos]? = some value → storedValue (applyAffinity affinity value) = storedValue value)
    (exact : (values.getD pos .null).Exact) :
    schema.readRecord (makeRecord schema.affinities values) pos = values.getD pos .null ∧
      schema.readRecord (makeRecord [] values) pos = values.getD pos .null := by
  have num := exact_ne_nan exact
  have converted : ∀ affinity, schema.affinities[pos]? = some affinity →
      storedValue (applyAffinity affinity (values.getD pos .null)) =
        values.getD pos .null := by
    intro affinity typed
    rw [getD_eq_getElem?_getD] at num ⊢
    cases held : values[pos]? with
    | none => exact congrArg storedValue (applyAffinity_null affinity)
    | some value =>
      rw [held] at num
      exact (stored affinity value typed held).trans (storedValue_of_ne _ num)
  rw [readRecord_stored, readRecord_staged, storedValue_of_ne _ num]
  constructor
  · cases typed : schema.affinities[pos]? with
    | none => exact storedValue_of_ne _ num
    | some affinity => exact converted affinity typed
  split
  · rename_i typed
    have kept := converted .real typed
    rw [storedValue_of_ne _ fun nan => num (applyAffinity_real_nan _ nan)] at kept
    exact kept
  · rfl

theorem registerKey_probed {index : IndexSchema} (probed : index.Probed schema) (rowid : Value)
    (values : List Value) : schema.registerKey rowid values index =
      (index.columns.map fun col => values.getD col.position .null) ++ [rowid] := by
  simp only [registerKey]
  congr 1
  apply map_congr_left
  intro col inside
  rw [if_neg (probed.2 col inside)]

theorem SameKey.symm {index : IndexSchema} (same : schema.SameKey index first second) :
    schema.SameKey index second first := by
  intro col inside
  obtain ⟨one, two, equal⟩ := same col inside
  exact ⟨two, one, compare_eq_comm _ _ _ equal⟩

theorem Unique.added {rowid : Value} {values : List Value} (unique : table.Unique)
    (stored : table.KeysStored values)
    (exact : ∀ index ∈ table.indexes, index.schema.Probed table.schema →
      ∀ col ∈ index.schema.columns, (values.getD col.position .null).Exact)
    (apart : ∀ index ∈ table.indexes, index.schema.unique = true → ∀ num other kept,
      rowid = .integer num → table.rows.get other = some kept →
      ¬ table.schema.SameKey index.schema (other, kept)
        (num, makeRecord table.schema.affinities values))
    (done : table.addRow rowid values (makeRecord table.schema.affinities values) = .ok next) :
    next.Unique := by
  have indexed : next.Indexed :=
    ⟨addRow_mirrors unique.indexed.mirrors stored done, addRow_settled unique.indexed.settled done⟩
  obtain ⟨num, indexes, rfl, absent, edited, rfl⟩ := addRow_ok done
  constructor
  · exact indexed
  · rintro changed mem isUnique ⟨first, one⟩ ⟨second, two⟩ here there same
    obtain ⟨index, old, schema, _⟩ := editAll_mem _ edited changed mem
    rw [schema] at isUnique same
    rw [get_insert] at here there
    -- Each of the two rows is the new one or an old one.
    split at here <;> split at there
    · rename_i left right
      exact left.trans right.symm
    · rename_i left _
      cases here
      cases left
      exact absurd (SameKey.symm same) (apart index old isUnique first second two rfl there)
    · rename_i _ right
      cases there
      cases right
      exact absurd same (apart index old isUnique second first one rfl here)
    · exact unique.distinct index old isUnique (first, one) (second, two) here there same
  · intro changed mem probed other kept found col inside
    obtain ⟨index, old, schema, _⟩ := editAll_mem _ edited changed mem
    rw [schema] at probed inside
    rw [get_insert] at found
    split at found
    · cases found
      have given := exact index old probed col inside
      have read := (read_exact table.schema values col.position
        (stored index old col inside (probed.2 col inside)) given).1
      rw [read]
      exact given
    · exact unique.exact index old probed other kept found col inside
  · intro changed mem probed
    obtain ⟨index, old, schema, added⟩ := editAll_mem _ edited changed mem
    rw [schema] at probed ⊢
    have forms : ∀ entry ∈ index.entries, KeyForm index.schema entry := by
      intro entry held
      obtain ⟨other, kept, _, rfl, exactKept⟩ := unique.entry_form old probed held
      exact ⟨_, other, rfl, columnValues_length _ _ _, exactKept⟩
    apply insertEntry_sorted index.schema forms _ (unique.sorted index old probed) added
    rw [registerKey_probed probed]
    refine ⟨_, num, rfl, length_map _, fun value inside => ?_⟩
    obtain ⟨col, listed, rfl⟩ := mem_map.mp inside
    exact exact index old probed col listed

def Clear (table : Table) (index : IndexSchema) (staged : Record) : Prop :=
  ∀ rowid record, table.rows.get rowid = some record →
    (columnValues table.schema index record).map Value.place ≠
      (columnValues table.schema index staged).map Value.place

theorem Clear.shrinks {index : IndexSchema} (clear : table.Clear index staged)
    (shrinks : Shrinks table next) : next.Clear index staged := by
  intro rowid record found
  rw [shrinks.schema]
  exact clear rowid record (shrinks.rows rowid record found)

theorem sameKey_of_places {index : Index} (unique : table.Unique) (mem : index ∈ table.indexes)
    (probed : index.schema.Probed table.schema) (here : table.rows.get first.1 = some first.2)
    (there : table.rows.get second.1 = some second.2) (filled : ∀ col ∈ index.schema.columns,
      table.schema.readRecord first.2 col.position ≠ .null)
    (places : (columnValues table.schema index.schema first.2).map Value.place =
      (columnValues table.schema index.schema second.2).map Value.place) :
    table.schema.SameKey index.schema first second := by
  intro col inside
  have ordinary := probed.2 col inside
  simp only [readColumn, if_neg ordinary]
  have place : (table.schema.readRecord first.2 col.position).place =
      (table.schema.readRecord second.2 col.position).place := by
    simp only [columnValues, map_map] at places
    exact map_inj_left.mp places col inside
  have equal : (table.schema.readRecord first.2 col.position).compare
      (table.schema.readRecord second.2 col.position) .binary = .eq := by
    rw [compare_binary_place _ _ (unique.exact index mem probed _ _ here col inside)
      (unique.exact index mem probed _ _ there col inside), place]
    exact (place_agrees.eq _ _).mpr rfl
  have notNull := filled col inside
  refine ⟨notNull, fun null => ?_, compare_of_binary _ _ _ equal⟩
  rw [null] at equal
  exact notNull (null_of_valueRank _ (valueRank_of_compare _ _ _ equal))

/-- Values that a probe can decide: exact, and none of them NULL. -/
def Decides (schema : TableSchema) (index : IndexSchema) (staged : Record) : Prop :=
  ∀ column ∈ index.columns, (schema.readRecord staged column.position).Exact ∧
    schema.readRecord staged column.position ≠ .null

theorem Unique.uniqueCheck_clear {pos : Nat} (unique : table.Unique)
    (here : table.indexes[pos]? = some index) (probed : index.schema.Probed table.schema)
    (decides : Decides table.schema index.schema staged)
    (done : table.uniqueCheck act staged pos = .ok next) : next.Clear index.schema staged := by
  have mem : index ∈ table.indexes := mem_of_getElem? here
  have exactProbe : ∀ value ∈ columnValues table.schema index.schema staged, value.Exact := by
    intro value inside
    obtain ⟨col, listed, rfl⟩ := mem_map.mp inside
    exact (decides col listed).1
  rcases uniqueCheck_ok done with ⟨rfl, clear⟩ | ⟨_, other, key, there, _, clash, newer⟩
  · intro rowid record present same
    obtain ⟨key, clash⟩ := unique.conflict_found mem probed exactProbe present same
    rw [clear index here probed.1] at clash
    cases clash
  rw [here] at there
  cases there
  obtain ⟨held, carries⟩ := conflict_some clash
  obtain ⟨taken, record, present, keyed, equal⟩ :=
    conflict_row unique.indexed.mirrors mem held carries
  have removed : table.removeRow taken record = .ok next := by
    unfold replaceConflict at newer
    rw [keyed, TableSchema.rowKey, List.getLast?_append] at newer
    simp only [List.getLast?_singleton, Option.some_or, present] at newer
    exact orFail_ok newer
  have shrinks := removeRow_shrinks removed
  -- The removed row is at the staged places, and so is any other row that is.
  have places : (columnValues table.schema index.schema record).map Value.place =
      (columnValues table.schema index.schema staged).map Value.place := by
    simp only [columnValues, map_map]
    apply map_congr_left
    intro col inside
    have same := equal col inside
    rw [TableSchema.readColumn, if_neg (probed.2 col inside), compare_binary_place _ _
      (unique.exact index mem probed _ _ present col inside) (decides col inside).1]
      at same
    exact (place_agrees.eq _ _).mp same
  have filled : ∀ col ∈ index.schema.columns,
      table.schema.readRecord record col.position ≠ .null := by
    intro col inside null
    have same := equal col inside
    rw [TableSchema.readColumn, if_neg (probed.2 col inside), null] at same
    exact (decides col inside).2 (null_of_valueRank _ (valueRank_of_compare _ _ _ same).symm)
  intro rowid kept found same
  rw [shrinks.schema] at same
  have old := shrinks.rows rowid kept found
  have key : table.schema.SameKey index.schema (taken, record) (rowid, kept) :=
    sameKey_of_places unique mem probed present old filled (places.trans same.symm)
  have rowids : taken = rowid := unique.distinct index mem probed.1 (taken, record)
    (rowid, kept) present old key
  obtain ⟨indexes, _, rfl⟩ := removeRow_ok removed
  rw [get_erase, if_pos rowids.symm] at found
  cases found

theorem Unique.uniqueChecks_clear (positions : List Nat) {table next : Table}
    (unique : table.Unique) (done : uniqueChecks act staged positions table = .ok next) :
    ∀ pos ∈ positions, ∀ index, (table.indexes.map Index.schema)[pos]? = some index →
      index.Probed table.schema → Decides table.schema index staged → next.Clear index staged := by
  induction positions generalizing table with
  | nil =>
    intro pos inside
    cases inside
  | cons first rest ih =>
    intro pos inside index here probed decides
    obtain ⟨middle, passed, later⟩ := bind_ok done
    have shrinks := uniqueCheck_shrinks passed
    rcases mem_cons.mp inside with rfl | behind
    · rw [getElem?_map] at here
      obtain ⟨held, present, rfl⟩ := Option.map_eq_some_iff.mp here
      exact (unique.uniqueCheck_clear present probed decides passed).shrinks
        (uniqueChecks_shrinks rest later)
    · have kept : middle.Unique :=
        uniqueChecks_keeps Unique.removed [first] unique (by rw [uniqueChecks, passed]; rfl)
      rw [← shrinks.schema] at probed decides
      rw [← shrinks.indexes] at here
      exact ih kept later pos behind index here probed decides

theorem mem_schemas {before after : Table}
    (indexes : after.indexes.map Index.schema = before.indexes.map Index.schema) {index : Index}
    (mem : index ∈ after.indexes) : ∃ other ∈ before.indexes, other.schema = index.schema := by
  have here : index.schema ∈ before.indexes.map Index.schema := by
    rw [← indexes]
    exact mem_map_of_mem mem
  exact mem_map.mp here

theorem apart_of_alias {index : IndexSchema} (unique : index.unique = true)
    (unprobed : ¬ index.Probed schema) (same : schema.SameKey index first second) :
    first.1 = second.1 := by
  have found : ∃ col ∈ index.columns, schema.rowidAlias = some col.position := by
    by_contra none
    push Not at none
    exact unprobed ⟨unique, none⟩
  obtain ⟨col, inside, aliased⟩ := found
  have equal := (same col inside).2.2
  simp only [readColumn, aliased] at equal
  exact compare_eq_iff_eq.mp equal

theorem insertRow_unique {row : List (Option Source)} (unique : table.Unique)
    (allowed : table.UniqueKept (.insert row act)) (done : table.insertRow row act = .ok next)
    : next.Unique := by
  obtain ⟨⟨aligned, stored⟩, exactly⟩ := allowed
  obtain ⟨resolved, rowid, cleared, found, _, _, probed, added⟩ := insertRow_ok done
  have shrinks := uniqueChecks_shrinks _ probed
  have start : resolved.Unique := resolveRowid_keeps Unique.recorded Unique.removed unique found
  have before : cleared.Unique := uniqueChecks_keeps Unique.removed _ start probed
  have schema := shrinks.schema.trans (resolveRowid_schema found)
  have indexes := shrinks.indexes.trans (resolveRowid_indexes found)
  rw [chooseSources_schema (resolveRowid_schema found), aligned] at added probed
  let values := (table.chooseSources row act).map Source.value
  have exact : ∀ index ∈ cleared.indexes, index.schema.Probed cleared.schema →
      ∀ col ∈ index.schema.columns, col.collation = .binary ∧
        (values.getD col.position .null).Exact := by
    intro index mem decided
    obtain ⟨other, old, same⟩ := mem_schemas indexes mem
    rw [schema, ← same] at decided
    rw [← same]
    exact exactly other old decided
  have keys := stored.transfer schema indexes
  apply before.added keys (fun index mem decided col inside =>
    (exact index mem decided col inside).2) _ added
  intro index mem isUnique num other kept held present same
  obtain ⟨target, _, integer, absent, _, _⟩ := addRow_ok added
  rw [held] at integer
  cases integer
  by_cases decided : index.schema.Probed cleared.schema
  · -- The tests left no row at the places of the new one.
    have read := fun col (inside : col ∈ index.schema.columns) =>
      read_exact cleared.schema values col.position
        (keys index mem col inside (decided.2 col inside))
        (exact index mem decided col inside).2
    have decides : Decides cleared.schema index.schema (makeRecord [] values) := by
      intro col inside
      have notNull := (same col inside).2.1
      rw [readColumn, if_neg (decided.2 col inside), (read col inside).1] at notNull
      rw [(read col inside).2]
      exact ⟨(exact index mem decided col inside).2, notNull⟩
    have clear : cleared.Clear index.schema (makeRecord [] values) := by
      have listed : index.schema ∈ resolved.indexes.map Index.schema := by
        rw [← shrinks.indexes]
        exact mem_map_of_mem mem
      obtain ⟨pos, here⟩ := mem_iff_getElem?.mp listed
      have inside : pos < resolved.indexes.length := by
        have bound := (List.getElem?_eq_some_iff.mp here).1
        rwa [length_map] at bound
      rw [shrinks.schema] at decided decides
      exact start.uniqueChecks_clear _ probed pos (mem_range.mpr inside) index.schema here
        decided decides
    apply clear other kept present
    simp only [columnValues, map_map]
    apply map_congr_left
    intro col inside
    have equal := (same col inside).2.2
    rw [readColumn, readColumn, if_neg (decided.2 col inside),
      if_neg (decided.2 col inside), (exact index mem decided col inside).1,
      (read col inside).1, compare_binary_place _ _
        (before.exact index mem decided other kept present col inside)
        (exact index mem decided col inside).2] at equal
    rw [comp_apply, comp_apply, (read col inside).2]
    exact (place_agrees.eq _ _).mp equal
  · have rowids : other = num := apart_of_alias isUnique decided same
    rw [rowids, absent] at present
    cases present

theorem updateRow_unique {assignment : Assignment} (unique : table.Unique)
    (allowed : table.UniqueKept (.update rowid assignment act))
    (done : table.updateRow rowid assignment act = .ok next) : next.Unique := by
  obtain ⟨stored, kept⟩ := allowed
  obtain ⟨record, removed, present, taken, added⟩ := updateRow_ok done
  have shrinks := removeRow_shrinks taken
  have before := unique.removed present taken
  rw [← shrinks.schema] at added
  apply before.added ((stored record present).transfer shrinks.schema shrinks.indexes) _ _ added
  · intro index mem probed col inside
    obtain ⟨old, listed, same⟩ := mem_schemas shrinks.indexes mem
    rw [shrinks.schema, ← same] at probed
    rw [← same] at inside
    exact (kept record present old listed).1 probed col inside
  intro index mem isUnique num other held target found
  obtain ⟨old, listed, same⟩ := mem_schemas shrinks.indexes mem
  rw [← same] at isUnique ⊢
  rw [shrinks.schema]
  have nodup : other ≠ rowid := by
    rintro rfl
    obtain ⟨indexes, _, rfl⟩ := removeRow_ok taken
    rw [get_erase, if_pos rfl] at found
    cases found
  exact (kept record present old listed).2 isUnique num other held nodup target
    (shrinks.rows _ _ found)

theorem populate_sorted (index : IndexSchema) (rows : List (Int × Record))
    (exact : ∀ row ∈ rows, ∀ col ∈ index.columns, (row.2.getD col.position .null).Exact)
    (entries : List (List Value)) (forms : ∀ entry ∈ entries, KeyForm index entry)
    (sorted : entries.Pairwise fun left right => index.lead left ≤ index.lead right)
    (done : rows.foldlM (fun entries row =>
      insertEntry entries (populateKey row.1 row.2 index)) entries = .ok res) :
    res.Pairwise fun left right => index.lead left ≤ index.lead right := by
  induction rows generalizing entries with
  | nil =>
    cases done
    exact sorted
  | cons row rest ih =>
    obtain ⟨placed, added, later⟩ := bind_ok done
    have form : KeyForm index (populateKey row.1 row.2 index) := by
      refine ⟨_, row.1, rfl, length_map _, fun value inside => ?_⟩
      obtain ⟨col, listed, rfl⟩ := mem_map.mp inside
      exact exact row (.head _) col listed
    apply ih (fun row mem => exact row (.tail _ mem)) placed _
      (insertEntry_sorted index forms form sorted added) later
    intro entry held
    rcases mem_cons.mp ((insertEntry_perm added).mem_iff.mp held) with rfl | old
    · rw [form.stored]
      exact form
    · exact forms entry old

theorem createIndex_unique {index : IndexSchema} (unique : table.Unique)
    (allowed : table.UniqueKept (.createIndex index))
    (done : table.createIndex index = .ok next) : next.Unique := by
  obtain ⟨stored, apart⟩ := allowed
  have indexed := createIndex_indexed unique.indexed stored done
  obtain ⟨entries, filled, same⟩ := bind_ok (orFail_ok done)
  cases same
  constructor
  · exact indexed
  · intro changed mem isUnique
    rcases mem_append.mp mem with old | new
    · exact unique.distinct changed old isUnique
    · cases mem_singleton.mp new
      exact (apart isUnique).1
  · intro changed mem probed
    rcases mem_append.mp mem with old | new
    · exact unique.exact changed old probed
    · cases mem_singleton.mp new
      exact (apart probed.1).2 probed
  · intro changed mem probed
    rcases mem_append.mp mem with old | new
    · exact unique.sorted changed old probed
    cases mem_singleton.mp new
    apply populate_sorted index table.rows.entries _ [] _ List.Pairwise.nil filled
    · intro row here col inside
      have present := (table.mem_entries_iff row).mp here
      rw [← readRecord_keeps table.schema row.2 col.position
        (unique.indexed.settled row.1 row.2 present col.position)]
      exact (apart probed.1).2 probed row.1 row.2 present col inside
    · intro entry held
      cases held

theorem step_unique {step : TableStep} (unique : table.Unique) (allowed : table.UniqueKept step)
    (done : table.step step = some next) : next.Unique := by
  rcases step_some done with finished | rfl | rfl
  · cases step with
    | createIndex index => exact createIndex_unique unique allowed finished
    | insert row act => exact insertRow_unique unique allowed finished
    | update rowid assignment act => exact updateRow_unique unique allowed finished
    | delete rowid =>
      obtain ⟨record, present, removed⟩ := deleteRow_ok finished
      exact unique.removed present removed
  · exact unique
  · exact unique.recorded

theorem empty_unique (schema : TableSchema) (indexes : List IndexSchema) :
    (Table.empty schema indexes).Unique := by
  constructor
  · exact empty_indexed schema indexes
  · intro index _ _ first second found
    cases found
  · intro index _ _ rowid record found
    cases found
  · intro index mem _
    obtain ⟨declared, _, rfl⟩ := mem_map.mp mem
    exact List.Pairwise.nil

end Table

/-- In every run whose steps keep rows distinct, two rows of a table with the
same key in a UNIQUE index are one row. -/
theorem unique_rows_distinct (database : Database) (reached : Reached Table.UniqueKept database)
    (table : Table) (member : table ∈ database) (index : Index) (here : index ∈ table.indexes)
    (unique : index.schema.unique = true) (first second : Int × Record)
    (one : table.rows.get first.1 = some first.2) (two : table.rows.get second.1 = some second.2)
    (same : table.schema.SameKey index.schema first second) : first.1 = second.1 := by
  have kept := reached.invariant Table.empty_unique
    (fun _ _ _ before allowed done => Table.step_unique before allowed done) table member
  exact kept.distinct index here unique first second one two same

/-- The table `t(a INTEGER)`, UNIQUE on `a`, with two rows. -/
def uniqueRows (first second : Value) : Table :=
  ⟨indexedSchema, (OrderedMap.empty.insert 1 [first]).insert 2 [second],
    [⟨uniqueOnA, [[first, .integer 1], [second, .integer 2]]⟩], none⟩

theorem insert_integer_kept {table : Table} (schema : table.schema = indexedSchema)
    (indexes : table.indexes.map Index.schema = [uniqueOnA]) (num : Int) (exact : (integer num).Exact) :
    table.UniqueKept (.insert [some (.plain (.integer num))] .abort) := by
  have chosen : table.chooseSources [some (.plain (.integer num))] .abort = [.plain (.integer num)] :=
    @Table.chooseSources_schema (Table.empty indexedSchema []) table schema _ _
  have only : ∀ index ∈ table.indexes, index.schema = uniqueOnA := by
    intro index mem
    have listed : index.schema ∈ table.indexes.map Index.schema := mem_map_of_mem mem
    rw [indexes] at listed
    exact mem_singleton.mp listed
  refine ⟨⟨by rw [chosen]; rfl, ?_⟩, ?_⟩
  · intro index mem col here _ affinity value typed held
    rw [only index mem] at here
    cases mem_singleton.mp here
    rw [chosen] at held
    rw [schema] at typed
    cases held
    cases (show some Affinity.integer = some affinity from typed)
    rfl
  · intro index mem _ col here
    rw [only index mem] at here
    cases mem_singleton.mp here
    rw [chosen]
    exact ⟨rfl, exact⟩

/-- After `INSERT` of 5 and of 6 equal keys mean one row, and the keys differ. -/
theorem five_and_six_distinct :
    (indexedSchema.SameKey uniqueOnA (1, [.integer 5]) (1, [.integer 5]) ∧ (1 : Int) = 1) ∧
      ¬ indexedSchema.SameKey uniqueOnA (1, [.integer 5]) (2, [.integer 6]) := by
  have first : Reached Table.UniqueKept [uniqueRow (.integer 5)] :=
    @Reached.step _ _ 0 _ _ (.insert [some (.plain (.integer 5))] .abort)
      (.createTable indexedSchema [uniqueOnA] .start) rfl
      (insert_integer_kept rfl rfl 5 (by decide +kernel)) rfl
  have both : Reached Table.UniqueKept [uniqueRows (.integer 5) (.integer 6)] :=
    @Reached.step _ _ 0 _ _ (.insert [some (.plain (.integer 6))] .abort) first rfl
      (insert_integer_kept rfl rfl 6 (by decide +kernel)) rfl
  have same : indexedSchema.SameKey uniqueOnA (1, [.integer 5]) (1, [.integer 5]) := by
    intro column inside
    cases mem_singleton.mp inside
    decide
  constructor
  · exact ⟨same, unique_rows_distinct _ both _ (.head _) _ (.head _) rfl (1, [.integer 5])
      (1, [.integer 5]) rfl rfl same⟩
  intro equal
  have rowids : (1 : Int) = 2 := unique_rows_distinct _ both _ (.head _) _ (.head _) rfl
    (1, [.integer 5]) (2, [.integer 6]) rfl rfl equal
  exact absurd rowids (by decide)

/-- `UPDATE t SET a = 5` on the second row succeeds and leaves two rows with 5. -/
theorem update_duplicates_unique_value :
    Reached (fun _ _ => True) [uniqueRows (.integer 5) (.integer 5)] ∧
      (uniqueRows (.integer 5) (.integer 5)).rows.get 1 = some [.integer 5] ∧
      (uniqueRows (.integer 5) (.integer 5)).rows.get 2 = some [.integer 5] ∧
      indexedSchema.SameKey uniqueOnA (1, [.integer 5]) (2, [.integer 5]) := by
  have first : Reached (fun _ _ => True) [uniqueRow (.integer 5)] :=
    @Reached.step _ _ 0 _ _ (.insert [some (.plain (.integer 5))] .abort)
      (.createTable indexedSchema [uniqueOnA] .start) rfl trivial rfl
  have both : Reached (fun _ _ => True) [uniqueRows (.integer 5) (.integer 6)] :=
    @Reached.step _ _ 0 _ _ (.insert [some (.plain (.integer 6))] .abort) first rfl trivial rfl
  refine ⟨?_, rfl, rfl, ?_⟩
  · exact @Reached.step _ _ 0 _ _ (.update 2 ⟨none, [some (.integer 5)]⟩ .abort) both rfl trivial rfl
  intro column inside
  cases mem_singleton.mp inside
  decide

end SqliteRs
