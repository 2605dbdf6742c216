import SqliteRs.IndexMirror

/-!
Which indexes a table gets when its schema is read. A declared index is attached by the
column list of its CREATE INDEX statement and nothing behind it, so a partial index looks
like one that holds every row, and a write adds an entry for every row. The key columns of
an automatic index are those of the constraint its name numbers; if they cannot be told,
the table is not written at all.
-/

namespace SqliteRs

open List

variable {entries : List (List Value)}

structure CreateIndex where
  unique : Bool
  columns : List IndexedColumn
  predicate : Option (Int × Record → Bool) := none

/-- Where an index comes from: its statement, or a constraint of the table by the number at
the end of the index's name. -/
inductive IndexOrigin where
  | declared (statement : CreateIndex)
  | automatic (ordinal : Option Nat)

/-- A row of the schema table for an index, and what the b-tree of the index holds. -/
structure IndexMasterRow where
  name : String
  origin : IndexOrigin
  entries : List (List Value)

namespace IndexMasterRow

def isDeclared (held : IndexMasterRow) : Bool :=
  match held.origin with
  | .declared _ => true
  | .automatic _ => false

/-- The rows that the index is meant to hold. -/
def selects (held : IndexMasterRow) (row : Int × Record) : Bool :=
  match held.origin with
  | .declared statement => statement.predicate.all (· row)
  | .automatic _ => true

/-- The schema of an index, given the key columns of the table's constraints if they could
be read. The predicate of the statement is not part of it. -/
def indexSchema (keyLists : Option (List (List IndexedColumn))) (held : IndexMasterRow) :
    Option IndexSchema :=
  match held.origin with
  | .declared statement => some ⟨held.name, statement.unique, statement.columns⟩
  | .automatic ordinal => do
      let number ← ordinal
      let lists ← keyLists
      let columns ← lists[number - 1]?
      return ⟨held.name, true, columns⟩

end IndexMasterRow

section Attached

variable (keyLists : Option (List (List IndexedColumn))) (master : List IndexMasterRow)

/-- Declared indexes come first, then the automatic ones. -/
def attachedIndexes : List Index :=
  (master.filter (·.isDeclared) ++ master.filter (!·.isDeclared)).filterMap fun held =>
    (held.indexSchema keyLists).map fun schema => ⟨schema, held.entries⟩

def unresolvedAutoindex : Bool := master.any fun held => (held.indexSchema keyLists).isNone

/-- The entries of a new row, from the registers of its values. -/
def emitIndexKeyOps (schema : TableSchema) (rowid : Int) (values : List Value) :
    List IndexMasterRow → Except Failure (List IndexMasterRow)
  | [] => .ok []
  | held :: rest => do
      let entries ← match held.indexSchema keyLists with
        | some index =>
          Index.insertEntry held.entries (schema.registerKey (.integer rowid) values index)
        | none => .ok held.entries
      let others ← emitIndexKeyOps schema rowid values rest
      return { held with entries } :: others

end Attached

/-- One entry for each row: a value for each column of the index, then the row's rowid. -/
def HoldsRows (rows : List (Int × Record)) (index : IndexSchema) (entries : List (List Value)) :
    Prop :=
  ∃ keyOf : Int × Record → List Value, (∀ row ∈ rows, (keyOf row).length = index.columns.length) ∧
    entries.Perm (rows.map fun row => keyOf row ++ [.integer row.1])

/-- Each index holds an entry for exactly the rows its statement selects. -/
def ConsistentIndexes (keyLists : Option (List (List IndexedColumn))) (rows : List (Int × Record))
    (master : List IndexMasterRow) : Prop :=
  ∀ held ∈ master, ∀ index, held.indexSchema keyLists = some index →
    HoldsRows (rows.filter held.selects) index held.entries

def SelectsAll (rows : List (Int × Record)) (master : List IndexMasterRow) : Prop :=
  ∀ held ∈ master, ∀ row ∈ rows, held.selects row = true

instance (rows : List (Int × Record)) (master : List IndexMasterRow) :
    Decidable (SelectsAll rows master) :=
  inferInstanceAs (Decidable (∀ held ∈ master, ∀ row ∈ rows, held.selects row = true))

variable {keyLists : Option (List (List IndexedColumn))} {rows : List (Int × Record)}
  {master : List IndexMasterRow} {schema : TableSchema} {rowid : Int} {values : List Value}

theorem HoldsRows.length_eq {index : IndexSchema}
    (holds : HoldsRows rows index entries) : entries.length = rows.length := by
  obtain ⟨keyOf, -, same⟩ := holds
  rw [same.length_eq, length_map]

/-- An automatic index has no predicate, so only declared ones can leave a row out. -/
theorem selects_of_unresolved {held : IndexMasterRow} (none : held.indexSchema keyLists = none)
    (row : Int × Record) : held.selects row = true := by
  cases origin : held.origin with
  | declared statement => simp [IndexMasterRow.indexSchema, origin] at none
  | automatic ordinal => simp [IndexMasterRow.selects, origin]

theorem mem_attachedIndexes {index : Index} : index ∈ attachedIndexes keyLists master ↔
    ∃ held ∈ master, ∃ schema, held.indexSchema keyLists = some schema ∧
      index = ⟨schema, held.entries⟩ := by
  unfold attachedIndexes
  simp only [mem_filterMap, mem_append, mem_filter, Option.map_eq_some_iff, ← and_or_left,
    Bool.not_eq_true', Bool.eq_false_or_eq_true, and_true]
  grind

theorem covers_iff (consistent : ConsistentIndexes keyLists rows master) :
    (∀ index ∈ attachedIndexes keyLists master, HoldsRows rows index.schema index.entries) ↔
      SelectsAll rows master := by
  simp only [mem_attachedIndexes]
  constructor
  · intro covers held mem
    cases read : held.indexSchema keyLists with
    | none => exact fun row _ => selects_of_unresolved read row
    | some index =>
      have whole := (covers _ ⟨held, mem, index, read, rfl⟩).length_eq
      rwa [(consistent held mem index read).length_eq, length_filter_eq_length_iff] at whole
  · rintro all _ ⟨held, mem, index, read, rfl⟩
    have entries := consistent held mem index read
    rwa [filter_eq_self.mpr (all held mem)] at entries

/-- The values a new entry takes from the registers, before the rowid. -/
def TableSchema.registerValues (schema : TableSchema) (rowid : Int) (values : List Value)
    (index : IndexSchema) : List Value :=
  index.columns.map fun column =>
    if schema.rowidAlias = some column.position then .integer rowid
    else values.getD column.position .null

/-- A new row adds one entry to an index: no entry there ends in its rowid. -/
theorem HoldsRows.insertEntry {index : IndexSchema}
    (holds : HoldsRows rows index entries) (fresh : ∀ row ∈ rows, row.1 ≠ rowid)
    (schema : TableSchema) (values : List Value) (record : Record) :
    ∃ filled, Index.insertEntry entries (schema.registerKey (.integer rowid) values index) =
        .ok filled ∧ filled.length = entries.length + 1 ∧
      HoldsRows ((rowid, record) :: rows) index filled := by
  obtain ⟨keyOf, sized, same⟩ := holds
  have absent : ¬ (entries.any fun entry =>
      compareKeys (schema.registerKey (.integer rowid) values index) entry == .eq) = true := by
    intro present
    obtain ⟨entry, mem, equal⟩ := any_eq_true.mp present
    obtain ⟨row, here, rfl⟩ := mem_map.mp (same.mem_iff.mp mem)
    have equal : compareKeys (schema.registerValues rowid values index ++ [.integer rowid])
        (keyOf row ++ [.integer row.1]) = .eq := beq_iff_eq.mp equal
    have lengths : (schema.registerValues rowid values index).length = (keyOf row).length := by
      rw [sized row here, TableSchema.registerValues, length_map]
    exact fresh row here (rowid_of_compareKeys _ _ _ _ lengths equal).symm
  have done : Index.insertEntry entries (schema.registerKey (.integer rowid) values index) =
      .ok (Index.place _ _ entries) := if_neg absent
  have placed := Index.insertEntry_perm done
  refine ⟨_, done, placed.length_eq, ?_⟩
  -- The entry of the new row is keyed from its registers, the others as before.
  let keyed (row : Int × Record) : List Value :=
    if row.1 = rowid then (schema.registerValues rowid values index).map storedValue else keyOf row
  have new : keyed (rowid, record) = (schema.registerValues rowid values index).map storedValue :=
    if_pos rfl
  have old : ∀ row ∈ rows, keyed row = keyOf row := fun row mem => if_neg (fresh row mem)
  refine ⟨keyed, forall_mem_cons.mpr ⟨?_, fun row mem => by rw [old row mem, sized row mem]⟩, ?_⟩
  · rw [new, length_map, TableSchema.registerValues, length_map]
  · have key : (schema.registerKey (.integer rowid) values index).map storedValue =
        keyed (rowid, record) ++ [.integer rowid] := by
      rw [new]
      exact map_append
    have others : (rows.map fun row => keyed row ++ [Value.integer row.1]) =
        rows.map fun row => keyOf row ++ [.integer row.1] :=
      map_congr_left fun row mem => by rw [old row mem]
    rw [map_cons, others, ← key]
    exact placed.trans (same.cons _)

section Maintained

variable {rows : List (Int × Record)} {master : List IndexMasterRow} {rowid : Int}
  (fresh : ∀ row ∈ rows, row.1 ≠ rowid) (schema : TableSchema) (values : List Value)

include fresh

theorem maintained_iff (consistent : ConsistentIndexes keyLists rows master)
    (resolved : ∀ held ∈ master, held.indexSchema keyLists ≠ none) (record : Record) :
    (∃ written, emitIndexKeyOps keyLists schema rowid values master = .ok written ∧
        ConsistentIndexes keyLists ((rowid, record) :: rows) written) ↔
      SelectsAll [(rowid, record)] master := by
  induction master with
  | nil => simp [emitIndexKeyOps, ConsistentIndexes, SelectsAll]
  | cons held rest ih =>
    obtain ⟨index, read⟩ := Option.ne_none_iff_exists'.mp (resolved held (.head _))
    have later := ih (fun other mem => consistent other (.tail _ mem))
      fun other mem => resolved other (.tail _ mem)
    have here := consistent held (.head _) index read
    obtain ⟨filled, added, longer, holds⟩ := here.insertEntry
      (fun row mem => fresh row (mem_of_mem_filter mem)) schema values record
    -- The new entry belongs to the index exactly if its statement selects the row.
    have first : HoldsRows (((rowid, record) :: rows).filter held.selects) index filled ↔
        held.selects (rowid, record) = true := by
      cases selected : held.selects (rowid, record) with
      | true => simpa [selected] using holds
      | false =>
        simp only [filter_cons, selected, Bool.false_eq_true, if_false, iff_false]
        intro same
        have count := same.length_eq
        rw [longer, here.length_eq] at count
        omega
    have step : emitIndexKeyOps keyLists schema rowid values (held :: rest) =
        (emitIndexKeyOps keyLists schema rowid values rest >>= fun others =>
          .ok ({ held with entries := filled } :: others)) := by
      rw [emitIndexKeyOps, read]
      simp only [added]
      rfl
    have parted (others : List IndexMasterRow) :
        ConsistentIndexes keyLists ((rowid, record) :: rows)
            ({ held with entries := filled } :: others) ↔
          held.selects (rowid, record) = true ∧
            ConsistentIndexes keyLists ((rowid, record) :: rows) others := by
      unfold ConsistentIndexes
      rw [forall_mem_cons, ← first]
      refine and_congr_left fun _ => ⟨fun kept => kept index read, fun kept other same => ?_⟩
      cases read.symm.trans same
      exact kept
    have whole : SelectsAll [(rowid, record)] (held :: rest) ↔
        held.selects (rowid, record) = true ∧ SelectsAll [(rowid, record)] rest := by
      simp [SelectsAll]
    rw [step, whole, ← later]
    constructor
    · rintro ⟨written, done, kept⟩
      obtain ⟨others, ran, same⟩ := Table.bind_ok done
      cases same
      exact ⟨((parted others).mp kept).1, others, ran, ((parted others).mp kept).2⟩
    · rintro ⟨selected, others, ran, kept⟩
      exact ⟨_, by rw [ran]; rfl, (parted others).mpr ⟨selected, kept⟩⟩

end Maintained

/-- `t(a UNIQUE)` with rows `a = 1` and `a = 2`, its automatic index and `CREATE INDEX i ON t(a)`,
or the same statement with `WHERE a = 9` and then no entries. -/
def uniqueColumn : TableSchema where
  name := "t"
  columns := [{ name := "a", declaredType := "".toList }]

def keyOnA : List IndexedColumn := [{ name := "a", position := 0 }]

def rowsOneAndTwo : List (Int × Record) := [(1, [.integer 1]), (2, [.integer 2])]

def twoEntries : List (List Value) := [[.integer 1, .integer 1], [.integer 2, .integer 2]]

def automaticIndex : IndexMasterRow := ⟨"sqlite_autoindex_t_1", .automatic (some 1), twoEntries⟩

def wholeIndex : IndexMasterRow := ⟨"i", .declared ⟨false, keyOnA, none⟩, twoEntries⟩

def partialIndex : IndexMasterRow :=
  ⟨"i", .declared ⟨false, keyOnA, some fun row => row.2.head? = some (.integer 9)⟩, []⟩

end SqliteRs
