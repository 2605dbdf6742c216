import SqliteRs.IndexMirror
import SqliteRs.SortOrder

/-!
What the uniqueness probe finds. The probe is a search in the key order for the
first entry at or after the probed values, and the entry is a conflict when its
leading columns compare equal to them, NULL to NULL included. In an index that
mirrors its table an entry is the key of a row, so a conflict is a row with the
same values; on exact values the search misses none.
There a key with a NULL is the one way to refuse a row that no existing row agrees with.
-/

namespace SqliteRs

open List Option

def TableSchema.SameKey (schema : TableSchema) (index : IndexSchema) (first second : Int × Record) :
    Prop :=
  ∀ column ∈ index.columns,
    schema.readColumn first.1 first.2 column.position ≠ .null ∧
      schema.readColumn second.1 second.2 column.position ≠ .null ∧
      (schema.readColumn first.1 first.2 column.position).compare
        (schema.readColumn second.1 second.2 column.position) column.collation = .eq

theorem codePoints_injective : Function.Injective codePoints := by
  apply map_injective_iff.mpr
  intro left right same
  exact Char.ext (UInt32.toNat_inj.mp same)

variable (left right value : Value)

theorem compare_refl (coll : Collation) : value.compare value coll = .eq :=
  @Std.ReflCmp.compare_self _ (fun left right : Value => left.compare right coll) _ value

theorem compare_of_binary (coll : Collation)
    (equal : left.compare right .binary = .eq) : left.compare right coll = .eq := by
  cases left with
  | text chars =>
    cases right with
    | text others =>
      have codes : compare (codePoints chars) (codePoints others) = .eq := equal
      rw [codePoints_injective (Std.LawfulEqCmp.eq_of_compare codes)]
      exact compare_refl (.text others) coll
    | _ => exact equal
  | _ => cases right <;> exact equal

theorem compare_eq_comm (coll : Collation)
    (equal : left.compare right coll = .eq) : right.compare left coll = .eq :=
  @Std.OrientedCmp.eq_symm _ (fun left right : Value => left.compare right coll) _ left right equal

theorem valueRank_of_compare (coll : Collation)
    (equal : left.compare right coll = .eq) : valueRank left = valueRank right := by
  cases left <;> cases right <;> first | rfl | cases equal

theorem null_of_valueRank (rank : valueRank value = 0) : value = .null := by
  cases value with
  | null => rfl
  | _ => cases rank

namespace Index

/-- An entry with the values of a probe in its columns, NULL equal to NULL. -/
def Carries (probe key : List Value) : Prop :=
  probe.length ≤ key.length ∧ ∀ pair ∈ key.zip probe, pair.1.compare pair.2 .binary = .eq

/-- Entries in key order whose values, and those of the probe, both comparisons rank alike. -/
structure Searched (entries : List (List Value)) (probe : List Value) : Prop where
  sorted : entries.Pairwise fun first second => compareKeys first second ≠ .gt
  ranked : ∀ key ∈ entries, ∀ other ∈ probe :: entries, ∀ value ∈ key, ∀ wanted ∈ other,
    value.Ranks wanted

variable {entries : List (List Value)} {probe key : List Value}

theorem conflict_some (found : conflict entries probe = some key) :
    key ∈ entries ∧ Carries probe key := by
  obtain ⟨sought, accepted⟩ := filter_eq_some_iff.mp found
  obtain ⟨long, equal⟩ := Bool.and_eq_true_iff.mp accepted
  refine ⟨mem_of_find?_eq_some sought, of_decide_eq_true long, fun pair mem => ?_⟩
  simpa using all_eq_true.mp equal pair mem

theorem carries_iff (ranked : ∀ value ∈ key, ∀ wanted ∈ probe, value.Ranks wanted) :
    Carries probe key ↔ (key.map Value.place).take probe.length = probe.map Value.place := by
  unfold Carries
  induction probe generalizing key with
  | nil => simp
  | cons wanted others ih =>
    cases key with
    | nil => simp
    | cons value rest =>
      have tails := ih fun one mem two listed => ranked one (.tail _ mem) two (.tail _ listed)
      have heads := (ranked value (.head _) wanted (.head _)).place_eq
      simp only [length_cons, Nat.add_le_add_iff_right, zip_cons_cons, forall_mem_cons, heads,
        map_cons, take_succ_cons, cons.injEq, ← tails]
      tauto

theorem append_not_lt (target tail : List Place) : ¬ target ++ tail < target := by
  induction target with
  | nil => exact not_lt_nil tail
  | cons first rest ih =>
    rw [cons_append, cons_lt_cons_iff]
    rintro (below | ⟨-, below⟩)
    · exact lt_irrefl first below
    · exact ih below

theorem take_of_between {target value tail : List Place} (least : ¬ value < target)
    (most : ¬ target ++ tail < value) : value.take target.length = target := by
  induction target generalizing value with
  | nil => rfl
  | cons first rest ih =>
    cases value with
    | nil => exact absurd (nil_lt_cons first rest) least
    | cons head others =>
      rw [cons_lt_cons_iff, not_or] at least
      rw [cons_append, cons_lt_cons_iff, not_or] at most
      have same : head = first := le_antisymm (not_lt.mp most.1) (not_lt.mp least.1)
      rw [length_cons, take_succ_cons, same, ih (fun below => least.2 ⟨same, below⟩)
        fun above => most.2 ⟨same.symm, above⟩]

/-- The search misses no entry with the probed values. -/
theorem Searched.found (searched : Searched entries probe) (mem : key ∈ entries)
    (carries : Carries probe key) : ∃ found, conflict entries probe = some found := by
  have places (one : List Value) (held : one ∈ entries) (other : List Value)
      (listed : other ∈ probe :: entries) :
      compareKeys one other = Ord.compare (one.map Value.place) (other.map Value.place) :=
    compareKeys_of_values fun value inside wanted given =>
      (searched.ranked one held other listed value inside wanted given).rounded
  have reaches (one : List Value) (held : one ∈ entries) :
      (compareKeys one probe != .lt) = true ↔ ¬ one.map Value.place < probe.map Value.place := by
    rw [places one held probe (.head _), ← places_agrees.lt, bne_iff_ne]
  have lead := (carries_iff (searched.ranked key mem probe (.head _))).mp carries
  have whole := take_append_drop probe.length (key.map Value.place)
  rw [lead] at whole
  have here : (compareKeys key probe != .lt) = true := by
    rw [reaches key mem, ← whole]
    exact append_not_lt _ _
  obtain ⟨first, sought⟩ : ∃ first, seek entries probe = some first :=
    Option.isSome_iff_exists.mp (find?_isSome.mpr ⟨key, mem, here⟩)
  obtain ⟨reached, front, back, split, early⟩ := find?_eq_some_iff_append.mp sought
  have held : first ∈ entries := mem_of_find?_eq_some sought
  -- The entry found stands no later than the one that carries the values.
  have earlier : ¬ key.map Value.place < first.map Value.place := by
    have sorted := searched.sorted
    rw [split] at mem sorted
    rcases mem_append.mp mem with before | after
    · exact absurd here (by simpa using early key before)
    rcases mem_cons.mp after with rfl | behind
    · exact lt_irrefl _
    · have order := rel_of_pairwise_cons (pairwise_append.mp sorted).2.1 behind
      rw [places first held key (.tail _ (split ▸ mem_append_right _ after))] at order
      exact fun above => order ((places_agrees.compare_eq _ _).trans (compare_gt_iff_gt.mpr above))
  rw [← whole] at earlier
  have same := take_of_between ((reaches first held).mp reached) earlier
  rw [length_map] at same
  obtain ⟨long, equal⟩ := (carries_iff (searched.ranked first held probe (.head _))).mpr same
  refine ⟨first, filter_eq_some_iff.mpr ⟨sought, ?_⟩⟩
  rw [Bool.and_eq_true_iff, List.all_eq_true]
  exact ⟨decide_eq_true long, fun pair inside => by simp [equal pair inside]⟩

end Index

theorem textToNumber_nan (nan : textToNumber value = .real .nan) : value = .real .nan := by
  cases value with
  | text chars =>
    simp only [textToNumber, parseWellFormedNumber] at nan
    split at nan
    · cases nan
    split at nan
    · cases nan
    split at nan
    · split at nan
      · rename_i finite
        cases nan
        cases finite
      · cases nan
    · cases nan
  | _ => exact nan

theorem applyAffinity_real_nan (nan : applyAffinity .real value = .real .nan) : value = .real .nan := by
  apply textToNumber_nan
  change forceReal (textToNumber value) = .real .nan at nan
  cases num : textToNumber value with
  | integer whole =>
    rw [num] at nan
    exact absurd (Value.real.inj nan) (Binary64.round_ne_nan whole)
  | _ =>
    rw [num] at nan
    exact nan

theorem applyAffinity_nan {affinity : Affinity} (nan : applyAffinity affinity value = .real .nan) :
    value = .real .nan := by
  cases affinity with
  | blob => exact nan
  | text => cases value <;> first | exact nan | cases nan
  | numeric | integer => exact textToNumber_nan value nan
  | real => exact applyAffinity_real_nan value nan

variable {held given : Value}

theorem textToNumber_of_equal (kept : textToNumber held = held)
    (equal : held.compare given .binary = .eq) : textToNumber given = given := by
  cases given with
  | text chars =>
    have ranks := valueRank_of_compare held (.text chars) .binary equal
    cases held with
    | text others =>
      have codes : compare (codePoints others) (codePoints chars) = .eq := equal
      rw [← codePoints_injective (Std.LawfulEqCmp.eq_of_compare codes)]
      exact kept
    | _ => cases ranks
  | _ => rfl

theorem valueRank_of_text (kept : applyAffinity .text held = held) : valueRank held ≠ 1 := by
  cases held with
  | integer | real => cases kept
  | _ => simp [valueRank]

theorem stored_of_equal {affinity : Affinity} (kept : applyAffinity affinity held = held)
    (notReal : affinity ≠ .real) (equal : held.compare given .binary = .eq) :
    applyAffinity affinity given = given := by
  have ranks := valueRank_of_compare held given .binary equal
  cases affinity with
  | real => exact absurd rfl notReal
  | blob => rfl
  | text =>
    -- A TEXT column keeps no number, so the given value is none either.
    have text := valueRank_of_text kept
    cases given with
    | integer | real => exact absurd ranks text
    | _ => rfl
  | numeric | integer => exact textToNumber_of_equal kept equal

section

variable (schema : TableSchema) (values : List Value) (pos : Nat)

include schema values pos

theorem readRecord_staged :
    schema.readRecord (makeRecord [] values) pos = if schema.affinities[pos]? = some .real then
        applyAffinity .real (storedValue (values.getD pos .null))
      else storedValue (values.getD pos .null) := by
  have held : (makeRecord [] values).getD pos .null =
      storedValue (values.getD pos .null) := by
    rw [getD_eq_getElem?_getD, getD_eq_getElem?_getD, makeRecord_getElem]
    cases values[pos]? <;> rfl
  rw [TableSchema.readRecord, held]

theorem readRecord_stored : schema.readRecord (makeRecord schema.affinities values) pos =
      storedValue ((schema.affinities[pos]?.map fun affinity =>
        applyAffinity affinity (values.getD pos .null)).getD (values.getD pos .null)) := by
  rw [readRecord_keeps schema _ pos (makeRecord_keeps schema values pos),
    getD_eq_getElem?_getD, getD_eq_getElem?_getD, makeRecord_getElem]
  cases values[pos]? with
  | some value => rfl
  | none =>
    cases schema.affinities[pos]? with
    | none => rfl
    | some affinity =>
      simp only [getD_none, applyAffinity_null]
      rfl

theorem stored_eq_staged (num : values.getD pos .null ≠ .real .nan) (kept : schema.Keeps pos held)
    (equal : held.compare (schema.readRecord (makeRecord [] values) pos) .binary = .eq) :
    schema.readRecord (makeRecord schema.affinities values) pos =
      schema.readRecord (makeRecord [] values) pos := by
  rw [readRecord_stored]
  rw [readRecord_staged, storedValue_of_ne _ num] at equal ⊢
  cases col : schema.affinities[pos]? with
  | none =>
    exact storedValue_of_ne _ num
  | some affinity =>
    rw [col] at equal
    by_cases real : affinity = .real
    · subst real
      exact storedValue_of_ne _ fun nan => num (applyAffinity_real_nan _ nan)
    have other : ¬ some affinity = some Affinity.real := fun same => real (Option.some.inj same)
    rw [if_neg other] at equal ⊢
    change storedValue (applyAffinity affinity _) = _
    rw [stored_of_equal (kept.2 affinity col) real equal, storedValue_of_ne _ num]

end

theorem zip_columns {First Second Third : Type} (columns : List First) (left : First → Second)
    (right : First → Third) (rest : List Second) :
    (columns.map left ++ rest).zip (columns.map right) =
      columns.map fun column => (left column, right column) := by
  induction columns with
  | nil => simp
  | cons first others ih => simpa using ih

variable {table : Table} {index : Index} {staged : Record}

/-- The entry of a row carries the probed values if the row's columns hold them. -/
theorem Table.carries_rowKey (rowid : Int) (record : Record) :
    Index.Carries (table.probe index.schema staged)
        (table.schema.rowKey rowid record index.schema) ↔
      ∀ column ∈ index.schema.columns, (table.schema.readColumn rowid record column.position).compare
        (table.schema.readRecord staged column.position) .binary = .eq := by
  simp [Index.Carries, probe, TableSchema.rowKey, zip_columns]

theorem Table.conflict_row (mirrors : table.Mirrors) (mem : index ∈ table.indexes) {key : List Value}
    (held : key ∈ index.entries) (carries : Index.Carries (table.probe index.schema staged) key) :
    ∃ rowid record, table.rows.get rowid = some record ∧
      key = table.schema.rowKey rowid record index.schema ∧ ∀ col ∈ index.schema.columns,
        (table.schema.readColumn rowid record col.position).compare
          (table.schema.readRecord staged col.position) .binary = .eq := by
  obtain ⟨row, here, rfl⟩ := mem_map.mp ((mirrors index mem).mem_iff.mp held)
  exact ⟨row.1, row.2, (table.mem_entries_iff row).mp here, rfl,
    (carries_rowKey row.1 row.2).mp carries⟩

theorem Table.uniqueCheck_refuses {act : ConflictAction} {pos : Nat}
    (here : table.indexes[pos]? = some index) (unique : index.schema.unique = true)
    (strict : act ≠ .replace) : (∃ stop, table.uniqueCheck act staged pos = .error stop) ↔
      ∃ key, Index.conflict index.entries (table.probe index.schema staged) = some key := by
  cases clash : Index.conflict index.entries (table.probe index.schema staged) with
  | none => simp [uniqueCheck, here, clash]
  | some key =>
    cases act with
    | replace => exact absurd rfl strict
    | _ => simp [uniqueCheck, here, unique, clash]

section Refusal

variable {values : List Value}

/-- No key column is the rowid alias, and none is written with NULL. -/
def Table.WholeKey (table : Table) (index : IndexSchema) (values : List Value) : Prop :=
  ∀ column ∈ index.columns, table.schema.rowidAlias ≠ some column.position ∧
    values.getD column.position .null ≠ .null

theorem getD_ne_nan (numbers : ∀ value ∈ values, value ≠ .real .nan) (place : Nat) :
    values.getD place .null ≠ .real .nan := by
  rw [getD_eq_getElem?_getD]
  cases at_ : values[place]? with
  | none => simp
  | some value => exact numbers value (mem_of_getElem? at_)

theorem readRecord_written_null (numbers : ∀ value ∈ values, value ≠ .real .nan)
    (schema : TableSchema) (pos : Nat) :
    schema.readRecord (makeRecord schema.affinities values) pos = .null ↔
      values.getD pos .null = .null := by
  rw [readRecord_stored]
  have given := getD_ne_nan numbers pos
  constructor
  · intro null
    cases typed : schema.affinities[pos]? with
    | none =>
      rw [typed] at null
      rwa [← storedValue_of_ne _ given]
    | some affinity =>
      rw [typed] at null
      have held : applyAffinity affinity (values.getD pos .null) = .null := by
        rwa [← storedValue_of_ne _ fun nan => given (applyAffinity_nan _ nan)]
      exact applyAffinity_eq_null affinity _ held
  · intro null
    rw [null]
    cases schema.affinities[pos]? with
    | none => rfl
    | some affinity => exact congrArg storedValue (applyAffinity_null affinity)

/-- A row agrees with a new one if the key is whole and the stored values compare equal. -/
theorem Table.sameKey_iff (numbers : ∀ value ∈ values, value ≠ .real .nan) {number rowid : Int}
    {record : Record} (fresh : table.rows.get number = none)
    (present : table.rows.get rowid = some record) :
    table.schema.SameKey index.schema (rowid, record)
        (number, makeRecord table.schema.affinities values) ↔
      table.WholeKey index.schema values ∧ ∀ column ∈ index.schema.columns,
        (table.schema.readRecord record column.position).compare
          (table.schema.readRecord (makeRecord table.schema.affinities values) column.position)
          column.collation = .eq := by
  have other : rowid ≠ number := by
    rintro rfl
    rw [fresh] at present
    cases present
  unfold TableSchema.SameKey Table.WholeKey
  rw [← forall₂_and]
  refine forall₂_congr fun column inside => ?_
  by_cases aliased : table.schema.rowidAlias = some column.position
  · -- An alias column agrees only with the row that has the new rowid.
    refine iff_of_false (fun same => other ?_) fun whole => whole.1.1 aliased
    have equal := same.2.2
    simp only [TableSchema.readColumn, aliased] at equal
    exact compare_eq_iff_eq.mp equal
  simp only [TableSchema.readColumn, aliased, if_false, ne_eq, not_false_eq_true, true_and,
    readRecord_written_null numbers]
  constructor
  · exact fun same => same.2
  · rintro ⟨given, equal⟩
    refine ⟨fun null => given ?_, given, equal⟩
    rw [null] at equal
    exact (readRecord_written_null numbers _ _).mp
      (null_of_valueRank _ (valueRank_of_compare _ _ _ equal).symm)

/-- In an index that mirrors its table, the row of an entry with the probed values agrees
with a new row whose key is whole. -/
theorem Table.Indexed.sameKey (indexed : table.Indexed)
    (numbers : ∀ value ∈ values, value ≠ .real .nan) {rowid : Int} {record : Record}
    (present : table.rows.get rowid = some record) (whole : table.WholeKey index.schema values)
    (equal : ∀ column ∈ index.schema.columns,
      (table.schema.readColumn rowid record column.position).compare
        (table.schema.readRecord (makeRecord [] values) column.position) .binary = .eq) :
    ∀ column ∈ index.schema.columns, (table.schema.readRecord record column.position).compare
      (table.schema.readRecord (makeRecord table.schema.affinities values) column.position)
      column.collation = .eq := by
  intro column inside
  have same := equal column inside
  have kept := indexed.settled rowid record present column.position
  rw [TableSchema.readColumn, if_neg (whole column inside).1,
    readRecord_keeps table.schema record column.position kept] at same
  rw [readRecord_keeps table.schema record column.position kept, stored_eq_staged table.schema values
    column.position (getD_ne_nan numbers _) kept same]
  exact compare_of_binary _ _ _ same

/-- What keeps a refusal justified: no entry of the index carries the values given for its
columns, or the key is whole and some row holds its values as they are stored. -/
def Table.Refusable (table : Table) (index : Index) (values : List Value) : Prop :=
  (∀ key ∈ index.entries, ¬ Index.Carries (table.probe index.schema (makeRecord [] values)) key) ∨
    table.WholeKey index.schema values ∧
      ∃ rowid record, table.rows.get rowid = some record ∧ ∀ column ∈ index.schema.columns,
        (table.schema.readRecord record column.position).compare
          (table.schema.readRecord (makeRecord table.schema.affinities values) column.position)
          column.collation = .eq

/-- Where the index mirrors the table, no row holds the given values, NULL equal to NULL, or
the key is whole. -/
theorem Table.Indexed.refusable_iff (indexed : table.Indexed) (member : index ∈ table.indexes)
    (numbers : ∀ value ∈ values, value ≠ .real .nan) :
    table.Refusable index values ↔
      (∀ rowid record, table.rows.get rowid = some record → ∃ column ∈ index.schema.columns,
        (table.schema.readColumn rowid record column.position).compare
          (table.schema.readRecord (makeRecord [] values) column.position) .binary ≠ .eq) ∨
        table.WholeKey index.schema values := by
  constructor
  · rintro (none | ⟨whole, -⟩)
    · left
      intro rowid record present
      by_contra every
      push Not at every
      have listed := (indexed.mirrors index member).mem_iff.mpr
        (mem_map_of_mem ((table.mem_entries_iff (rowid, record)).mpr present))
      exact none _ listed ((Table.carries_rowKey rowid record).mpr every)
    · exact .inr whole
  · rintro (apart | whole)
    · left
      intro key held carries
      obtain ⟨rowid, record, present, -, equal⟩ :=
        Table.conflict_row indexed.mirrors member held carries
      obtain ⟨column, inside, differs⟩ := apart rowid record present
      exact differs (equal column inside)
    · by_cases carried : ∃ key ∈ index.entries,
          Index.Carries (table.probe index.schema (makeRecord [] values)) key
      · obtain ⟨key, held, carries⟩ := carried
        obtain ⟨rowid, record, present, -, equal⟩ :=
          Table.conflict_row indexed.mirrors member held carries
        exact .inr ⟨whole, rowid, record, present, indexed.sameKey numbers present whole equal⟩
      · left
        intro key held carries
        exact carried ⟨key, held, carries⟩

/-- A UNIQUE constraint refuses a row only for an existing row that agrees with it if no entry
carries the given values or the key is whole and held by a row, and only then as long as the
search can find every entry. In an index that mirrors its table the condition speaks of
the rows and the given values alone. -/
theorem unique_refusal_justified_iff (table : Table) (values : List Value)
    (numbers : ∀ value ∈ values, value ≠ .real .nan) (number : Int)
    (fresh : table.rows.get number = none) (action : ConflictAction) (strict : action ≠ .replace)
    (position : Nat) (index : Index) (here : table.indexes[position]? = some index)
    (unique : index.schema.unique = true) :
    let justified := (∃ stop, table.uniqueCheck action (makeRecord [] values) position =
      .error stop) → ∃ rowid record, table.rows.get rowid = some record ∧
        table.schema.SameKey index.schema (rowid, record)
          (number, makeRecord table.schema.affinities values)
    (table.Refusable index values → justified) ∧
    (Index.Searched index.entries (table.probe index.schema (makeRecord [] values)) →
      justified → table.Refusable index values) ∧
    (table.Indexed → (table.Refusable index values ↔
      (∀ rowid record, table.rows.get rowid = some record → ∃ column ∈ index.schema.columns,
        (table.schema.readColumn rowid record column.position).compare
          (table.schema.readRecord (makeRecord [] values) column.position) .binary ≠ .eq) ∨
        table.WholeKey index.schema values)) := by
  intro justified
  have member : index ∈ table.indexes := mem_of_getElem? here
  have refused := @Table.uniqueCheck_refuses table index (makeRecord [] values) action position here
    unique strict
  refine ⟨?_, ?_, fun indexed => indexed.refusable_iff member numbers⟩
  · rintro (none | ⟨whole, rowid, record, present, equal⟩) stopped
    · obtain ⟨key, clash⟩ := refused.mp stopped
      obtain ⟨held, carries⟩ := Index.conflict_some clash
      exact absurd carries (none key held)
    · exact ⟨rowid, record, present, (Table.sameKey_iff numbers fresh present).mpr ⟨whole, equal⟩⟩
  · intro searched right
    by_cases carried : ∃ key ∈ index.entries,
        Index.Carries (table.probe index.schema (makeRecord [] values)) key
    · obtain ⟨key, held, carries⟩ := carried
      obtain ⟨rowid, record, present, same⟩ := right (refused.mpr (searched.found held carries))
      obtain ⟨whole, equal⟩ := (Table.sameKey_iff numbers fresh present).mp same
      exact .inr ⟨whole, rowid, record, present, equal⟩
    · left
      intro key held carries
      exact carried ⟨key, held, carries⟩

end Refusal

/-- A table `t(a INTEGER)` with a UNIQUE index on `a` and one row. -/
def uniqueOnA : IndexSchema where
  name := "u"
  unique := true
  columns := [{ name := "a", position := 0 }]

def uniqueRow (held : Value) : Table :=
  ⟨indexedSchema, OrderedMap.empty.insert 1 [held], [⟨uniqueOnA, [[held, .integer 1]]⟩], none⟩

theorem uniqueRow_indexed (held : Value) (kept : indexedSchema.Keeps 0 held) :
    (uniqueRow held).Indexed := by
  constructor
  · intro index mem
    cases mem_singleton.mp mem
    exact List.Perm.refl _
  intro rowid record found pos
  have only : record = [held] := by
    have here := (OrderedMap.get_eq_some_iff _ _ _).mp found
    cases mem_singleton.mp here
    rfl
  rw [only]
  cases pos with
  | zero => exact kept
  | succ later => exact ⟨rfl, fun affinity _ => applyAffinity_null affinity⟩

/-- A second 5 is refused, and the first row is the reason. -/
theorem refused_for_equal_row :
    ∃ rowid record, (uniqueRow (.integer 5)).rows.get rowid = some record ∧
      indexedSchema.SameKey uniqueOnA (rowid, record) (2, [.integer 5]) := by
  have kept : indexedSchema.Keeps 0 (.integer 5) := by
    refine ⟨rfl, fun affinity typed => ?_⟩
    cases (show some Affinity.integer = some affinity from typed)
    rfl
  have whole : (uniqueRow (.integer 5)).WholeKey uniqueOnA [.integer 5] := by
    intro column inside
    cases mem_singleton.mp inside
    exact ⟨by simp [uniqueRow, indexedSchema], by decide⟩
  obtain ⟨justified, -, mirrored⟩ := unique_refusal_justified_iff (uniqueRow (.integer 5))
    [.integer 5] (by simp) 2 rfl .abort (by simp) 0 _ rfl rfl
  exact justified ((mirrored (uniqueRow_indexed _ kept)).mpr (.inr whole)) ⟨_, rfl⟩

/-- A second NULL is refused, though no row agrees with it. -/
theorem second_null_is_refused :
    (uniqueRow .null).Indexed ∧
      (uniqueRow .null).insertRow [some .nullLiteral] .abort =
        .error (.failed (.halt constraintUnique "UNIQUE constraint failed: t.a")) ∧
      ∀ rowid record, (uniqueRow .null).rows.get rowid = some record →
        ¬ indexedSchema.SameKey uniqueOnA (rowid, record) (2, [.null]) := by
  refine ⟨uniqueRow_indexed _ ⟨rfl, fun affinity _ => applyAffinity_null affinity⟩, rfl, ?_⟩
  intro rowid record _ same
  exact (same _ (.head _)).2.1 rfl

end SqliteRs
