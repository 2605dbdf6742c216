import SqliteRs.RowStore

/-!
The row bodies that INSERT, UPDATE and DELETE compile to, and CREATE INDEX. A
row of an INSERT resolves its rowid first, then stages its column values in a
run of registers, tests the constraints on the staged record and writes the
record and the index entries. An UPDATE tests NOT NULL and CHECK only. A CHECK sees no
column conversion and the register of the alias column in the place of the rowid.
A run of a database takes row steps with their values left open, and may stop after any.
-/

namespace SqliteRs

open Except Index Source

inductive ConflictAction where
  | rollback
  | abort
  | fail
  | ignore
  | replace
deriving DecidableEq

def constraintPrimaryKey : Nat := 1555
def constraintNotNull : Nat := 1299
def constraintCheck : Nat := 275
def constraintUnique : Nat := 2067

def maxRowid : Int := 2 ^ 63 - 1

def saturatingSucc (rowid : Int) : Int := min (rowid + 1) maxRowid

def orFail {Result : Type} : Except Failure Result → Except Stop Result
  | .ok result => .ok result
  | .error failure => .error (.failed failure)

namespace Table

variable (table : Table)

def columnName (position : Nat) : String :=
  (table.schema.columns[position]?.map Column.name).getD "?"

def lastRowid : Int := (table.rows.keys.getLast?).getD 0

/-- An automatic rowid: one past the largest in the table, and for an
AUTOINCREMENT table past the sequence row too, which then records it. -/
def newRowid : Table × Int :=
  if table.schema.autoincrement then
    let candidate := saturatingSucc (max table.lastRowid (table.sequence.getD 0))
    let sequence := match table.sequence with
      | none => some candidate
      | some tracked => if tracked < candidate then some candidate else some tracked
    ({ table with sequence }, candidate)
  else (table, saturatingSucc table.lastRowid)

def removeRow (rowid : Int) (record : Record) : Except Failure Table := do
  let indexes ← Index.editAll Index.deleteEntry (table.schema.rowKey rowid record) table.indexes
  return { table with rows := table.rows.erase rowid, indexes }

def addRow (rowid : Value) (values : List Value) (record : Record) : Except Failure Table :=
  match rowid with
  | .integer number =>
    match table.rows.get number with
    | some _ => .error .duplicateRowid
    | none => do
        let indexes ← Index.editAll Index.insertEntry (table.schema.registerKey rowid values)
          table.indexes
        return { table with rows := table.rows.insert number record, indexes }
  | _ => .error .rowidNotInteger

def violation (action : ConflictAction) (code : Nat) (message : String) : Stop :=
  if action = .ignore then .skipped table else .failed (.halt code message)

/-- The source an INSERT gives the rowid, unless it is a NULL literal. -/
def explicitRowid (row : List (Option Source)) : Option Source :=
  match table.schema.rowidAlias with
  | none => none
  | some position =>
    match (row[position]?).getD none with
    | some (.compiled front held back) => some (.compiled front held back)
    | _ => none

def resolveRowid (row : List (Option Source)) (action : ConflictAction) :
    Except Stop (Table × Value) :=
  match table.explicitRowid row with
  | none => .ok (table.newRowid.1, .integer table.newRowid.2)
  | some source =>
    match source.value with
    | .integer number =>
      match table.rows.get number with
      | none => .ok (table, source.value)
      | some record =>
        match action with
        | .ignore => .error (.skipped table)
        | .replace => do
            let removed ← orFail (table.removeRow number record)
            return (removed, source.value)
        | _ =>
          .error (.failed (.halt constraintPrimaryKey
            ("UNIQUE constraint failed: " ++ table.schema.name ++ "." ++
              table.columnName (table.schema.rowidAlias.getD 0) ++ " (PRIMARY KEY)")))
    | _ => .error (.failed .rowidNotInteger)

/-- The source a column is filled from: the alias holds NULL, a missing value
its default, and under OR REPLACE a NULL literal takes the default as well. -/
def chooseSource (row : List (Option Source)) (action : ConflictAction) (position : Nat)
    (column : Column) : Source :=
  if table.schema.rowidAlias = some position then .nullLiteral
  else
    match (row[position]?).getD none with
    | none => column.default.getD .nullLiteral
    | some .nullLiteral =>
      if action = .replace then column.default.getD .nullLiteral else .nullLiteral
    | some source => source

def chooseSources (row : List (Option Source)) (action : ConflictAction) : List Source :=
  table.schema.columns.mapIdx fun position column => table.chooseSource row action position column

/-- NOT NULL of every column but an exempt one. An INSERT exempts the alias
column, an UPDATE exempts none. -/
def checkNotNull (exempt : Option Nat) (action : ConflictAction) (values : List Value) :
    Except Stop Unit :=
  match (table.schema.columns.zipIdx).find? fun entry =>
      entry.1.notNull && decide (exempt ≠ some entry.2)
        && decide (values.getD entry.2 .null = .null) with
  | none => .ok ()
  | some entry =>
    .error (table.violation action constraintNotNull
      ("NOT NULL constraint failed: " ++ table.schema.name ++ "." ++ entry.1.name))

def checks : List Check :=
  table.schema.columns.flatMap Column.checks ++ table.schema.tableChecks

/-- A CHECK reads the staged record, where the alias column is an ordinary
column that holds NULL. Only false fails it. -/
def checkConstraints (action : ConflictAction) (staged : Record) : Except Stop Unit :=
  if table.checks.any fun check =>
      check.eval (check.columns.map (table.schema.readRecord staged)) = some false then
    .error (table.violation action constraintCheck
      ("CHECK constraint failed: " ++ table.schema.name))
  else .ok ()

def uniqueMessage (index : IndexSchema) : String :=
  "UNIQUE constraint failed: " ++
    String.intercalate ", "
      (index.columns.map fun column => table.schema.name ++ "." ++ column.name)

def probe (index : IndexSchema) (staged : Record) : List Value :=
  index.columns.map fun column => table.schema.readRecord staged column.position

/-- The rowid column at the end of a conflicting entry leads to the row that
OR REPLACE removes. -/
def replaceConflict (key : List Value) : Except Stop Table :=
  match key.getLast? with
  | some (.integer number) =>
    match table.rows.get number with
    | some record => orFail (table.removeRow number record)
    | none => .ok table
  | _ => .error (.failed .rowidNotInteger)

def uniqueCheck (action : ConflictAction) (staged : Record) (position : Nat) :
    Except Stop Table :=
  match table.indexes[position]? with
  | none => .ok table
  | some index =>
    if index.schema.unique then
      match Index.conflict index.entries (table.probe index.schema staged) with
      | none => .ok table
      | some key =>
        match action with
        | .ignore => .error (.skipped table)
        | .replace => table.replaceConflict key
        | _ =>
          .error (.failed (.halt constraintUnique (table.uniqueMessage index.schema)))
    else .ok table

end Table

def uniqueChecks (action : ConflictAction) (staged : Record) :
    List Nat → Table → Except Stop Table
  | [], table => .ok table
  | position :: rest, table => do
      let next ← table.uniqueCheck action staged position
      uniqueChecks action staged rest next

/-- The registers from the first column's value on, one for each column. An
expression that needs more registers than its result pushes the others along. -/
def stagedValues (sources : List Source) : List Value :=
  ((sources.flatMap Source.registers).drop
    ((sources.head?.map fun source => source.before.length).getD 0)).take sources.length

namespace Table

def insertRow (table : Table) (row : List (Option Source)) (action : ConflictAction) :
    Except Stop Table := do
  let (resolved, rowid) ← table.resolveRowid row action
  let sources := resolved.chooseSources row action
  let values := sources.map Source.value
  resolved.checkNotNull resolved.schema.rowidAlias action values
  let staged := makeRecord [] (stagedValues sources)
  resolved.checkConstraints action staged
  let cleared ← uniqueChecks action staged (List.range resolved.indexes.length) resolved
  orFail (cleared.addRow rowid values
    (makeRecord cleared.schema.affinities (stagedValues sources)))

/-- What UPDATE assigns: a new rowid if it sets the alias, and new values. -/
structure Assignment where
  rowid : Option Value
  values : List (Option Value)

def updatedValues (table : Table) (rowid : Int) (record : Record) (assignment : Assignment) :
    List Value :=
  table.schema.columns.mapIdx fun position _ =>
    if table.schema.rowidAlias = some position then .null
    else ((assignment.values[position]?).getD none).getD
      (table.schema.readColumn rowid record position)

def updateRow (table : Table) (rowid : Int) (assignment : Assignment) (action : ConflictAction) :
    Except Stop Table :=
  match table.rows.get rowid with
  | none => .error (.failed .rowidNotFound)
  | some record => do
      let values := table.updatedValues rowid record assignment
      table.checkNotNull none action values
      table.checkConstraints action (makeRecord [] values)
      let removed ← orFail (table.removeRow rowid record)
      orFail (removed.addRow (assignment.rowid.getD (.integer rowid)) values
        (makeRecord table.schema.affinities values))

def deleteRow (table : Table) (rowid : Int) : Except Stop Table :=
  match table.rows.get rowid with
  | none => .error (.failed .rowidNotFound)
  | some record => orFail (table.removeRow rowid record)

/-- A new index takes one entry from each row; nothing tests uniqueness. -/
def createIndex (table : Table) (index : IndexSchema) : Except Stop Table :=
  orFail do
    let entries ← table.rows.entries.foldlM
      (fun entries row => Index.insertEntry entries (populateKey row.1 row.2 index)) []
    return { table with indexes := table.indexes ++ [⟨index, entries⟩] }

theorem orFail_ok {Result : Type} {attempt : Except Failure Result} {res : Result}
    (done : orFail attempt = .ok res) : attempt = .ok res := by
  cases attempt with
  | ok value => exact congrArg ok (ok.inj done)
  | error failure => cases done

theorem bind_ok {Error First Second : Type} {first : Except Error First}
    {next : First → Except Error Second} {res : Second}
    (done : (first >>= next) = .ok res) : ∃ value, first = .ok value ∧ next value = .ok res := by
  cases first with
  | ok value => exact ⟨value, rfl, done⟩
  | error failure => cases done

theorem bind_error {Error First Second : Type} {first : Except Error First}
    {next : First → Except Error Second} {stop : Error} (stopped : (first >>= next) = .error stop) :
    first = .error stop ∨ ∃ value, first = .ok value ∧ next value = .error stop := by
  cases first with
  | ok value => exact .inr ⟨value, rfl, stopped⟩
  | error failure => exact .inl (congrArg error (error.inj stopped))

variable {left resolved second : Table} {record staged : Record} {values key : List Value}
  {row : List (Option Source)} {act : ConflictAction} {pos : Nat} {holds : Table → Prop}
  {assignment : Assignment}

theorem orFail_not_skipped {Result : Type} {attempt : Except Failure Result} :
    orFail attempt ≠ .error (.skipped left) := by
  cases attempt <;> simp [orFail]

variable {table next : Table} {rowid : Value} (positions : List Nat)

theorem removeRow_ok {rowid : Int} (done : table.removeRow rowid record = .ok next) :
    ∃ indexes, editAll deleteEntry (table.schema.rowKey rowid record) table.indexes =
        .ok indexes ∧ next = { table with rows := table.rows.erase rowid, indexes } := by
  obtain ⟨indexes, edited, same⟩ := bind_ok done
  cases same
  exact ⟨indexes, edited, rfl⟩

theorem addRow_ok (done : table.addRow rowid values record = .ok next) :
    ∃ num indexes, rowid = .integer num ∧ table.rows.get num = none ∧
      editAll insertEntry (table.schema.registerKey rowid values) table.indexes =
        .ok indexes ∧ next = { table with rows := table.rows.insert num record, indexes } := by
  cases rowid with
  | integer num =>
    cases present : table.rows.get num with
    | some found => simp [addRow, present] at done
    | none =>
      simp only [addRow, present] at done
      obtain ⟨indexes, edited, same⟩ := bind_ok done
      cases same
      exact ⟨num, indexes, rfl, present, edited, rfl⟩
  | _ => cases done

theorem resolveRowid_ok (done : table.resolveRowid row act = .ok (resolved, rowid)) :
    (table.explicitRowid row = none ∧ resolved = table.newRowid.1 ∧ rowid = .integer table.newRowid.2) ∨
      ∃ src num, table.explicitRowid row = some src ∧ src.value = .integer num ∧
        rowid = .integer num ∧ ((table.rows.get num = none ∧ resolved = table) ∨
          ∃ record, table.rows.get num = some record ∧ act = .replace ∧
            table.removeRow num record = .ok resolved) := by
  unfold resolveRowid at done
  cases given : table.explicitRowid row with
  | none =>
    simp only [given, ok.injEq, Prod.mk.injEq] at done
    exact .inl ⟨rfl, done.1.symm, done.2.symm⟩
  | some src =>
    right
    simp only [given] at done
    cases held : src.value with
    | integer num =>
      simp only [held] at done
      cases present : table.rows.get num with
      | none =>
        simp only [present, ok.injEq, Prod.mk.injEq] at done
        exact ⟨src, num, rfl, held, done.2.symm, .inl ⟨present, done.1.symm⟩⟩
      | some record =>
        simp only [present] at done
        cases act with
        | replace =>
          obtain ⟨removed, taken, same⟩ := bind_ok done
          cases same
          exact ⟨src, num, rfl, held, rfl, .inr ⟨record, present, rfl, orFail_ok taken⟩⟩
        | _ => cases done
    | _ => simp [held] at done

theorem insertRow_ok (done : table.insertRow row act = .ok next) :
    ∃ resolved rowid cleared, table.resolveRowid row act = .ok (resolved, rowid) ∧
      resolved.checkNotNull resolved.schema.rowidAlias act
        ((resolved.chooseSources row act).map value) = .ok () ∧ resolved.checkConstraints act
        (makeRecord [] (stagedValues (resolved.chooseSources row act))) = .ok () ∧
      uniqueChecks act (makeRecord [] (stagedValues (resolved.chooseSources row act)))
        (List.range resolved.indexes.length) resolved = .ok cleared ∧
      cleared.addRow rowid ((resolved.chooseSources row act).map value)
        (makeRecord cleared.schema.affinities
          (stagedValues (resolved.chooseSources row act))) = .ok next := by
  obtain ⟨⟨resolved, rowid⟩, found, rest⟩ := bind_ok done
  obtain ⟨_, filled, rest⟩ := bind_ok rest
  obtain ⟨_, checked, rest⟩ := bind_ok rest
  obtain ⟨cleared, probed, added⟩ := bind_ok rest
  exact ⟨resolved, rowid, cleared, found, filled, checked, probed, orFail_ok added⟩

theorem insertRow_of_stages {cleared : Table} {sources : List Source}
    (found : table.resolveRowid row act = .ok (resolved, rowid))
    (chosen : resolved.chooseSources row act = sources)
    (filled : resolved.checkNotNull resolved.schema.rowidAlias act (sources.map value) = .ok ())
    (checked : resolved.checkConstraints act (makeRecord [] (stagedValues sources)) = .ok ())
    (probed : uniqueChecks act (makeRecord [] (stagedValues sources))
      (List.range resolved.indexes.length) resolved = .ok cleared)
    (added : cleared.addRow rowid (sources.map value)
      (makeRecord cleared.schema.affinities (stagedValues sources)) = .ok next) :
    table.insertRow row act = .ok next := by
  simp [insertRow, found, bind, Except.bind, chosen, filled, checked, probed, added, orFail]

theorem editAll_schemas {edit : List (List Value) → List Value → Except Failure (List (List Value))}
    {keyOf : IndexSchema → List Value} (indexes : List Index) {edited : List Index}
    (done : editAll edit keyOf indexes = .ok edited) :
    edited.map Index.schema = indexes.map Index.schema := by
  induction indexes generalizing edited with
  | nil =>
    cases done
    rfl
  | cons index rest ih =>
    obtain ⟨entries, _, later⟩ := bind_ok done
    obtain ⟨others, tail, same⟩ := bind_ok later
    cases same
    simp [ih tail]

structure Shrinks (before after : Table) : Prop where
  schema : after.schema = before.schema
  indexes : after.indexes.map Index.schema = before.indexes.map Index.schema
  sequence : after.sequence = before.sequence
  rows : ∀ rowid record, after.rows.get rowid = some record → before.rows.get rowid = some record

theorem Shrinks.refl (table : Table) : Shrinks table table :=
  ⟨rfl, rfl, rfl, fun _ _ found => found⟩

theorem Shrinks.trans {first third : Table} (left : Shrinks first second)
    (right : Shrinks second third) : Shrinks first third :=
  ⟨right.schema.trans left.schema, right.indexes.trans left.indexes, right.sequence.trans left.sequence,
    fun rowid record found => left.rows rowid record (right.rows rowid record found)⟩

theorem removeRow_shrinks {rowid : Int}
    (done : table.removeRow rowid record = .ok next) : Shrinks table next := by
  obtain ⟨indexes, edited, rfl⟩ := removeRow_ok done
  refine ⟨rfl, editAll_schemas _ edited, rfl, fun other kept found => ?_⟩
  simp only [OrderedMap.get_erase] at found
  split at found
  · cases found
  · exact found

theorem newRowid_schema (table : Table) : table.newRowid.1.schema = table.schema := by
  unfold newRowid
  split <;> rfl

theorem newRowid_rows (table : Table) : table.newRowid.1.rows = table.rows := by
  unfold newRowid
  split <;> rfl

theorem newRowid_indexes (table : Table) : table.newRowid.1.indexes = table.indexes := by
  unfold newRowid
  split <;> rfl

theorem resolveRowid_schema (done : table.resolveRowid row act = .ok (resolved, rowid)) :
    resolved.schema = table.schema := by
  rcases resolveRowid_ok done with
    ⟨_, rfl, _⟩ | ⟨_, _, _, _, _, ⟨_, rfl⟩ | ⟨_, _, _, removed⟩⟩
  · exact newRowid_schema table
  · rfl
  · exact (removeRow_shrinks removed).schema

theorem chooseSources_schema {first : Table} (same : first.schema = second.schema)
    (row : List (Option Source)) (act : ConflictAction) :
    first.chooseSources row act = second.chooseSources row act := by
  simp [chooseSources, chooseSource, same]

theorem replaceConflict_shrinks (done : table.replaceConflict key = .ok next) : Shrinks table next := by
  unfold replaceConflict at done
  split at done
  · split at done
    · exact removeRow_shrinks (orFail_ok done)
    · cases done
      exact Shrinks.refl table
  · cases done

theorem uniqueCheck_ok (done : table.uniqueCheck act staged pos = .ok next) :
    (next = table ∧ ∀ index, table.indexes[pos]? = some index → index.schema.unique = true →
        conflict index.entries (table.probe index.schema staged) = none) ∨
      act = .replace ∧ ∃ index key, table.indexes[pos]? = some index ∧ index.schema.unique = true ∧
        conflict index.entries (table.probe index.schema staged) = some key ∧
        table.replaceConflict key = .ok next := by
  unfold uniqueCheck at done
  cases here : table.indexes[pos]? with
  | none =>
    simp only [here, ok.injEq] at done
    exact .inl ⟨done.symm, fun index found => by cases found⟩
  | some index =>
    simp only [here] at done
    by_cases unique : index.schema.unique = true
    · simp only [unique, if_true] at done
      cases clash : Index.conflict index.entries (table.probe index.schema staged) with
      | none =>
        simp only [clash, ok.injEq] at done
        left
        constructor
        · exact done.symm
        intro other found _
        cases found
        exact clash
      | some key =>
        simp only [clash] at done
        cases act with
        | replace => exact .inr ⟨rfl, index, key, rfl, unique, clash, done⟩
        | _ => cases done
    · simp only [unique, Bool.false_eq_true, if_false, ok.injEq] at done
      left
      constructor
      · exact done.symm
      intro other found isUnique
      cases found
      exact absurd isUnique unique

theorem uniqueCheck_shrinks
    (done : table.uniqueCheck act staged pos = .ok next) : Shrinks table next := by
  rcases uniqueCheck_ok done with ⟨same, _⟩ | ⟨_, index, key, _, _, _, newer⟩
  · rw [same]
    exact Shrinks.refl table
  · exact replaceConflict_shrinks newer

theorem uniqueChecks_shrinks
    (done : uniqueChecks act staged positions table = .ok next) : Shrinks table next := by
  induction positions generalizing table with
  | nil =>
    cases done
    exact Shrinks.refl _
  | cons pos rest ih =>
    obtain ⟨middle, first, later⟩ := bind_ok done
    exact (uniqueCheck_shrinks first).trans (ih later)

theorem uniqueChecks_keeps
    (removed : ∀ {table next : Table} {rowid : Int} {record : Record}, holds table →
      table.rows.get rowid = some record → table.removeRow rowid record = .ok next → holds next)
    (positions : List Nat) (before : holds table)
    (done : uniqueChecks act staged positions table = .ok next) : holds next := by
  induction positions generalizing table with
  | nil =>
    cases done
    exact before
  | cons pos rest ih =>
    obtain ⟨middle, first, later⟩ := bind_ok done
    apply ih _ later
    rcases uniqueCheck_ok first with ⟨rfl, _⟩ | ⟨_, _, key, _, _, _, newer⟩
    · exact before
    unfold replaceConflict at newer
    split at newer
    · split at newer
      · rename_i record present
        exact removed before present (orFail_ok newer)
      · cases newer
        exact before
    · cases newer

theorem resolveRowid_keeps (recorded : ∀ {table : Table}, holds table → holds table.newRowid.1)
    (removed : ∀ {table next : Table} {rowid : Int} {record : Record}, holds table →
      table.rows.get rowid = some record → table.removeRow rowid record = .ok next → holds next)
    (before : holds table)
    (done : table.resolveRowid row act = .ok (resolved, rowid)) : holds resolved := by
  rcases resolveRowid_ok done with
    ⟨_, rfl, _⟩ | ⟨_, _, _, _, _, ⟨_, rfl⟩ | ⟨_, present, _, taken⟩⟩
  · exact recorded before
  · exact before
  · exact removed before present taken

theorem resolveRowid_indexes (done : table.resolveRowid row act = .ok (resolved, rowid)) :
    resolved.indexes.map Index.schema = table.indexes.map Index.schema := by
  rcases resolveRowid_ok done with
    ⟨_, rfl, _⟩ | ⟨_, _, _, _, _, ⟨_, rfl⟩ | ⟨_, _, _, removed⟩⟩
  · rw [newRowid_indexes]
  · rfl
  · exact (removeRow_shrinks removed).indexes

theorem violation_skipped {code : Nat} {message : String}
    (skip : table.violation act code message = .skipped left) : act = .ignore ∧ left = table := by
  unfold violation at skip
  split at skip
  · rename_i ignored
    cases skip
    exact ⟨ignored, rfl⟩
  · cases skip

theorem resolveRowid_skipped (skip : table.resolveRowid row act = .error (.skipped left)) :
    act = .ignore ∧ left = table := by
  unfold resolveRowid at skip
  split at skip
  · cases skip
  split at skip
  swap
  · cases skip
  split at skip
  · cases skip
  cases act with
  | ignore =>
    cases skip
    exact ⟨rfl, rfl⟩
  | replace =>
    rcases bind_error skip with early | ⟨_, _, late⟩
    · exact absurd early orFail_not_skipped
    · cases late
  | _ => cases skip

theorem checkNotNull_skipped {exempt : Option Nat}
    (skip : table.checkNotNull exempt act values = .error (.skipped left)) :
    act = .ignore ∧ left = table := by
  unfold checkNotNull at skip
  split at skip
  · cases skip
  · exact violation_skipped (error.inj skip)

theorem checkConstraints_skipped (skip : table.checkConstraints act staged = .error (.skipped left)) :
    act = .ignore ∧ left = table := by
  unfold checkConstraints at skip
  split at skip
  · exact violation_skipped (error.inj skip)
  · cases skip

theorem replaceConflict_not_skipped : table.replaceConflict key ≠ .error (.skipped left) := by
  unfold replaceConflict
  split
  · split
    · exact orFail_not_skipped
    · simp
  · simp

theorem uniqueCheck_skipped (skip : table.uniqueCheck act staged pos = .error (.skipped left)) :
    act = .ignore ∧ left = table := by
  unfold uniqueCheck at skip
  split at skip
  · cases skip
  split at skip
  swap
  · cases skip
  split at skip
  · cases skip
  cases act with
  | ignore =>
    cases skip
    exact ⟨rfl, rfl⟩
  | replace => exact absurd skip replaceConflict_not_skipped
  | _ => cases skip

theorem uniqueChecks_same (keeps : act ≠ .replace)
    (done : uniqueChecks act staged positions table = .ok next) : next = table := by
  induction positions with
  | nil =>
    cases done
    rfl
  | cons pos rest ih =>
    obtain ⟨middle, first, later⟩ := bind_ok done
    rcases uniqueCheck_ok first with ⟨same, _⟩ | ⟨newer, _⟩
    · rw [same] at later
      exact ih later
    · exact absurd newer keeps

theorem uniqueChecks_skipped (skip : uniqueChecks act staged positions table = .error (.skipped left)) :
    act = .ignore ∧ left = table := by
  induction positions generalizing table with
  | nil => cases skip
  | cons pos rest ih =>
    rcases bind_error skip with first | ⟨middle, first, later⟩
    · exact uniqueCheck_skipped first
    obtain ⟨ignored, final⟩ := ih later
    rcases uniqueCheck_ok first with ⟨same, _⟩ | ⟨newer, _⟩
    · exact ⟨ignored, final.trans same⟩
    · rw [ignored] at newer
      cases newer

theorem insertRow_skipped (skip : table.insertRow row act = .error (.skipped left)) :
    left = table ∨ left = table.newRowid.1 := by
  rcases bind_error skip with early | ⟨⟨resolved, rowid⟩, found, rest⟩
  · exact .inl (resolveRowid_skipped early).2
  -- From here on the row is skipped under OR IGNORE, with the resolved table.
  have late : act = .ignore ∧ left = resolved := by
    rcases bind_error rest with stop | ⟨_, _, rest⟩
    · exact checkNotNull_skipped stop
    rcases bind_error rest with stop | ⟨_, _, rest⟩
    · exact checkConstraints_skipped stop
    rcases bind_error rest with stop | ⟨_, _, rest⟩
    · exact uniqueChecks_skipped _ stop
    · exact absurd rest orFail_not_skipped
  obtain ⟨ignored, same⟩ := late
  rcases resolveRowid_ok found with ⟨_, automatic, _⟩ | ⟨_, _, _, _, _, ⟨_, explicit⟩ | newer⟩
  · exact .inr (same.trans automatic)
  · exact .inl (same.trans explicit)
  obtain ⟨_, _, replaces, _⟩ := newer
  rw [ignored] at replaces
  cases replaces

theorem updateRow_ok {rowid : Int} (done : table.updateRow rowid assignment act = .ok next) :
    ∃ record removed, table.rows.get rowid = some record ∧ table.removeRow rowid record = .ok removed ∧
      removed.addRow (assignment.rowid.getD (.integer rowid))
        (table.updatedValues rowid record assignment)
        (makeRecord table.schema.affinities (table.updatedValues rowid record assignment)) =
          .ok next := by
  unfold updateRow at done
  cases present : table.rows.get rowid with
  | none => simp [present] at done
  | some record =>
    simp only [present] at done
    obtain ⟨_, _, rest⟩ := bind_ok done
    obtain ⟨_, _, rest⟩ := bind_ok rest
    obtain ⟨removed, taken, added⟩ := bind_ok rest
    exact ⟨record, removed, rfl, orFail_ok taken, orFail_ok added⟩

theorem updateRow_skipped {rowid : Int}
    (skip : table.updateRow rowid assignment act = .error (.skipped left)) : left = table := by
  unfold updateRow at skip
  split at skip
  · cases skip
  rcases bind_error skip with stop | ⟨_, _, rest⟩
  · exact (checkNotNull_skipped stop).2
  rcases bind_error rest with stop | ⟨_, _, rest⟩
  · exact (checkConstraints_skipped stop).2
  rcases bind_error rest with stop | ⟨_, _, rest⟩
  · exact absurd stop orFail_not_skipped
  · exact absurd rest orFail_not_skipped

theorem deleteRow_not_skipped {rowid : Int} : table.deleteRow rowid ≠ .error (.skipped left) := by
  unfold deleteRow
  split
  · simp
  · exact orFail_not_skipped

theorem deleteRow_ok {rowid : Int} (done : table.deleteRow rowid = .ok next) :
    ∃ record, table.rows.get rowid = some record ∧ table.removeRow rowid record = .ok next := by
  unfold deleteRow at done
  cases present : table.rows.get rowid with
  | none => simp [present] at done
  | some record =>
    simp only [present] at done
    exact ⟨record, rfl, orFail_ok done⟩

def empty (schema : TableSchema) (indexes : List IndexSchema) : Table :=
  ⟨schema, OrderedMap.empty, indexes.map fun index => ⟨index, []⟩, none⟩

end Table

/-- A skipped row is no failure; it leaves the table as it was reached. -/
def settled : Except Stop Table → Option Table
  | .ok table => some table
  | .error (.skipped table) => some table
  | .error (.failed _) => none

theorem settled_some {outcome : Except Stop Table} {table : Table}
    (done : settled outcome = some table) :
    outcome = .ok table ∨ outcome = .error (.skipped table) := by
  cases outcome with
  | ok res => exact .inl (congrArg ok (Option.some.inj done))
  | error stop =>
    cases stop with
    | skipped left => exact .inr (congrArg (error ∘ Stop.skipped) (Option.some.inj done))
    | failed failure => cases done

open List

inductive TableStep where
  | createIndex (index : IndexSchema)
  | insert (row : List (Option Source)) (action : ConflictAction)
  | update (rowid : Int) (assignment : Table.Assignment) (action : ConflictAction)
  | delete (rowid : Int)

def Table.attempt (table : Table) : TableStep → Except Stop Table
  | .createIndex index => table.createIndex index
  | .insert row action => table.insertRow row action
  | .update rowid assignment action => table.updateRow rowid assignment action
  | .delete rowid => table.deleteRow rowid

def Table.step (table : Table) (step : TableStep) : Option Table := settled (table.attempt step)

open Table in
/-- A step that is skipped changes no row and no index. -/
theorem Table.step_some {table next : Table} {step : TableStep} (done : table.step step = some next) :
    table.attempt step = .ok next ∨ next = table ∨ next = table.newRowid.1 := by
  rcases settled_some done with finished | skip
  · exact .inl finished
  cases step with
  | createIndex index => exact absurd skip orFail_not_skipped
  | insert row act => exact .inr (insertRow_skipped skip)
  | update rowid assignment act => exact .inr (.inl (updateRow_skipped skip))
  | delete rowid => exact absurd skip deleteRow_not_skipped

abbrev Database := List Table

/-- Databases that successful statements lead to, each table step allowed by a
condition on the table before it. -/
inductive Reached (allowed : Table → TableStep → Prop) : Database → Prop
  | start : Reached allowed []
  | createTable {database : Database} (schema : TableSchema) (indexes : List IndexSchema) :
      Reached allowed database → Reached allowed (database ++ [Table.empty schema indexes])
  | step {database : Database} {position : Nat} {table next : Table} (step : TableStep) :
      Reached allowed database → database[position]? = some table → allowed table step →
      table.step step = some next → Reached allowed (database.set position next)

theorem Reached.invariant {allowed : Table → TableStep → Prop} {holds : Table → Prop}
    (created : ∀ schema indexes, holds (Table.empty schema indexes))
    (kept : ∀ table step next, holds table → allowed table step → table.step step = some next →
      holds next)
    {database : Database} (reached : Reached allowed database) : ∀ table ∈ database, holds table := by
  induction reached with
  | start =>
    intro table mem
    cases mem
  | createTable schema indexes _ ih =>
    intro table mem
    rcases mem_append.mp mem with old | new
    · exact ih table old
    · cases mem_singleton.mp new
      exact created schema indexes
  | step step earlier here permitted done ih =>
    intro table mem
    rcases mem_or_eq_of_mem_set mem with old | rfl
    · exact ih table old
    · exact kept _ step _ (ih _ (mem_of_getElem? here)) permitted done

open Table

def Table.withCheck (table : Table) (check : Check) : Table :=
  { table with schema :=
      { table.schema with tableChecks := table.schema.tableChecks ++ [check] } }

def Table.rowidFor (table : Table) (row : List (Option Source)) : Option Int :=
  match table.explicitRowid row with
  | none => some table.newRowid.2
  | some source =>
    match source.value with
    | .integer number => some number
    | _ => none

/-- A column that reads the same staged and stored: its conversion changes
nothing, or is applied on every read, and it is not the rowid alias. -/
def TableSchema.ReadsStored (schema : TableSchema) (number : Int) (values : List Value)
    (position : Nat) : Prop :=
  schema.readRecord (makeRecord [] values) position =
    schema.readColumn number (makeRecord schema.affinities values) position

namespace Table

variable {table next resolved cleared : Table} (check : Check)

theorem newRowid_withCheck :
    (table.withCheck check).newRowid = (table.newRowid.1.withCheck check, table.newRowid.2) := by
  unfold newRowid
  by_cases auto : table.schema.autoincrement = true
  · simp [withCheck, auto, lastRowid]
    rfl
  · simp [withCheck, auto, lastRowid]

theorem rowidFor_withCheck (row : List (Option Source)) :
    (table.withCheck check).rowidFor row = table.rowidFor row := by
  simp only [rowidFor, newRowid_withCheck]
  rfl

variable {record staged : Record} {values : List Value} {row : List (Option Source)}
  {act : ConflictAction}

theorem removeRow_withCheck {rowid : Int} (done : table.removeRow rowid record = .ok next) :
    (table.withCheck check).removeRow rowid record = .ok (next.withCheck check) := by
  obtain ⟨indexes, edited, rfl⟩ := removeRow_ok done
  change (Index.editAll Index.deleteEntry (table.schema.rowKey rowid record) table.indexes >>= _) = _
  rw [edited]
  rfl

theorem addRow_withCheck {rowid : Value} (done : table.addRow rowid values record = .ok next) :
    (table.withCheck check).addRow rowid values record = .ok (next.withCheck check) := by
  obtain ⟨num, indexes, rfl, absent, edited, rfl⟩ := addRow_ok done
  simp only [addRow, show (table.withCheck check).rows = table.rows from rfl, absent]
  change (Index.editAll Index.insertEntry (table.schema.registerKey (.integer num) values)
    table.indexes >>= _) = _
  rw [edited]
  rfl

theorem resolveRowid_withCheck {rowid : Value}
    (done : table.resolveRowid row act = .ok (resolved, rowid)) :
    (table.withCheck check).resolveRowid row act = .ok (resolved.withCheck check, rowid) := by
  rcases resolveRowid_ok done with ⟨automatic, rfl, rfl⟩ | ⟨src, num, given, held, rfl, how⟩
  · have same : (table.withCheck check).explicitRowid row = none := automatic
    simp [resolveRowid, same, newRowid_withCheck]
  have same : (table.withCheck check).explicitRowid row = some src := given
  have rows : (table.withCheck check).rows = table.rows := rfl
  rcases how with ⟨absent, rfl⟩ | ⟨record, present, rfl, removed⟩
  · simp [resolveRowid, same, held, rows, absent]
  · simp only [resolveRowid, same, held, rows, present, removeRow_withCheck check removed]
    rfl

theorem replaceConflict_withCheck {key : List Value} (done : table.replaceConflict key = .ok next) :
    (table.withCheck check).replaceConflict key = .ok (next.withCheck check) := by
  unfold replaceConflict at done ⊢
  split at done
  swap
  · cases done
  split at done
  · rename_i record present
    have removed := removeRow_withCheck check (orFail_ok done)
    simp [show (table.withCheck check).rows = table.rows from rfl, present, removed, orFail]
  · rename_i absent
    cases done
    simp [show (table.withCheck check).rows = table.rows from rfl, absent]

theorem uniqueCheck_withCheck {pos : Nat} (done : table.uniqueCheck act staged pos = .ok next) :
    (table.withCheck check).uniqueCheck act staged pos = .ok (next.withCheck check) := by
  have probe : ∀ index, (table.withCheck check).probe index staged = table.probe index staged :=
    fun _ => rfl
  have indexes : (table.withCheck check).indexes = table.indexes := rfl
  rcases uniqueCheck_ok done with ⟨rfl, clear⟩ | ⟨rfl, index, key, here, unique, clash, newer⟩
  · unfold uniqueCheck
    split
    · rfl
    rename_i index here
    split
    · rename_i unique
      rw [probe, clear index here unique]
    · rfl
  · have taken := replaceConflict_withCheck check newer
    simp [uniqueCheck, indexes, here, unique, probe, clash, taken]

theorem uniqueChecks_withCheck (positions : List Nat)
    (done : uniqueChecks act staged positions table = .ok next) :
    uniqueChecks act staged positions (table.withCheck check) = .ok (next.withCheck check) := by
  induction positions generalizing table with
  | nil =>
    cases done
    rfl
  | cons pos rest ih =>
    obtain ⟨middle, first, later⟩ := bind_ok done
    rw [uniqueChecks, uniqueCheck_withCheck check first]
    exact ih later

theorem checkConstraints_ok : table.checkConstraints act staged = .ok () ↔ ∀ check ∈ table.checks,
      check.eval (check.columns.map (table.schema.readRecord staged)) ≠ some false := by
  unfold checkConstraints
  constructor
  · intro passed check mem false
    rw [if_pos (List.any_eq_true.mpr ⟨check, mem, by simpa using false⟩)] at passed
    cases passed
  intro hold
  rw [if_neg]
  intro some
  obtain ⟨check, mem, false⟩ := List.any_eq_true.mp some
  exact hold check mem (by simpa using false)

theorem checkNotNull_withCheck {exempt : Option Nat}
    (filled : table.checkNotNull exempt act values = .ok ()) :
    (table.withCheck check).checkNotNull exempt act values = .ok () := by
  unfold checkNotNull at filled ⊢
  split at filled
  · rename_i none
    rw [show (table.withCheck check).schema.columns = table.schema.columns from rfl, none]
  · cases filled

theorem mem_checks_withCheck (other : Check) :
    other ∈ (table.withCheck check).checks ↔ other ∈ table.checks ∨ other = check := by
  simp [checks, withCheck, or_assoc]

theorem insertRow_withCheck (done : table.insertRow row act = .ok next)
    (passes : check.eval (check.columns.map (table.schema.readRecord
      (makeRecord [] (stagedValues (table.chooseSources row act))))) ≠ some false) :
    (table.withCheck check).insertRow row act = .ok (next.withCheck check) := by
  obtain ⟨resolved, rowid, cleared, found, filled, checked, probed, added⟩ := insertRow_ok done
  have schema := resolveRowid_schema found
  have sources := chooseSources_schema schema row act
  have constraints : (resolved.withCheck check).checkConstraints act
      (makeRecord [] (stagedValues (resolved.chooseSources row act))) = .ok () := by
    rw [checkConstraints_ok] at checked ⊢
    intro other mem
    rcases (mem_checks_withCheck check other).mp mem with old | rfl
    · exact checked other old
    rw [sources]
    change other.eval (other.columns.map (resolved.schema.readRecord _)) ≠ some false
    rw [schema]
    exact passes
  exact insertRow_of_stages (resolveRowid_withCheck check found) rfl
    (checkNotNull_withCheck check filled) constraints (uniqueChecks_withCheck check _ probed)
    (addRow_withCheck check added)

theorem insertRow_record {num : Int} (done : table.insertRow row act = .ok next)
    (chosen : table.rowidFor row = some num) : next.schema = table.schema ∧ next.rows.get num = some
      (makeRecord table.schema.affinities (stagedValues (table.chooseSources row act))) := by
  obtain ⟨resolved, rowid, cleared, found, _, _, probed, added⟩ := insertRow_ok done
  obtain ⟨target, indexes, held, _, _, rfl⟩ := addRow_ok added
  have schema : cleared.schema = table.schema :=
    (uniqueChecks_shrinks _ probed).schema.trans (resolveRowid_schema found)
  have same : target = num := by
    unfold rowidFor at chosen
    rcases resolveRowid_ok found with ⟨automatic, _, given⟩ | ⟨src, other, given, value, taken, _⟩
    · rw [automatic] at chosen
      rw [given] at held
      cases held
      exact Option.some.inj chosen
    · simp only [given, value, Option.some.injEq] at chosen
      rw [taken] at held
      cases held
      exact chosen
  constructor
  · exact schema
  · rw [OrderedMap.get_insert, if_pos same.symm, schema,
      chooseSources_schema (resolveRowid_schema found)]

end Table

/-- A row accepted without a CHECK satisfies every CHECK over the given columns
once stored, or is refused by it, exactly when those columns read the same
before and after the row is stored. -/
theorem check_holds_on_stored_row_iff (table next : Table) (row : List (Option Source))
    (action : ConflictAction) (number : Int) (columns : List Nat)
    (accepted : table.insertRow row action = .ok next)
    (chosen : table.rowidFor row = some number) :
    (∀ eval after record, (table.withCheck ⟨columns, eval⟩).insertRow row action = .ok after →
        after.rows.get number = some record →
        eval (columns.map (after.schema.readColumn number record)) ≠ some false) ↔
      ∀ position ∈ columns, table.schema.ReadsStored number
        (stagedValues (table.chooseSources row action)) position := by
  let values := stagedValues (table.chooseSources row action)
  let staged := columns.map (table.schema.readRecord (makeRecord [] values))
  let stored := columns.map
    (table.schema.readColumn number (makeRecord table.schema.affinities values))
  have reads : staged = stored ↔ ∀ position ∈ columns, table.schema.ReadsStored number values
      position := List.map_inj_left
  rw [← reads]
  constructor
  · intro holds
    -- The constraint that asks for the staged values passes and must hold once stored.
    let eval : List Value → Option Bool := fun read => some (decide (read = staged))
    have passed := insertRow_withCheck ⟨columns, eval⟩ accepted (by simp [eval, staged, values])
    obtain ⟨schema, found⟩ :=
      insertRow_record passed ((rowidFor_withCheck _ row).trans chosen)
    have kept := holds eval _ _ passed found
    rw [schema] at kept
    change eval stored ≠ some false at kept
    have same : stored = staged := by simpa [eval] using kept
    exact same.symm
  · intro same eval after record inserted found
    obtain ⟨resolved, rowid, cleared, resolves, _, checked, _, _⟩ := insertRow_ok inserted
    have schema := resolveRowid_schema resolves
    obtain ⟨final, kept⟩ :=
      insertRow_record inserted ((rowidFor_withCheck _ row).trans chosen)
    rw [found] at kept
    cases kept
    have passed := checkConstraints_ok.mp checked ⟨columns, eval⟩
      (by rw [checks, schema]; simp [withCheck])
    rw [schema, chooseSources_schema schema] at passed
    rw [final]
    change eval stored ≠ some false
    rw [← same]
    exact passed

/-- A table `t(a INTEGER)` with no rows. -/
def integerTable : Table :=
  ⟨{ name := "t", columns := [{ name := "a", declaredType := "INTEGER".toList }] },
    OrderedMap.empty, [], none⟩

/-- `CHECK (typeof(a) = 'text')`. -/
def isTextCheck : Check where
  columns := [0]
  eval
    | [.text _] => some true
    | _ => some false

/-- An integer given for an INTEGER column is checked as it is stored. -/
theorem integer_checked_as_stored :
    ¬ ∃ eval after record,
      (integerTable.withCheck ⟨[0], eval⟩).insertRow [some (.plain (.integer 5))] .abort =
        .ok after ∧
      after.rows.get 1 = some record ∧
      eval ([0].map (after.schema.readColumn 1 record)) = some false := by
  rintro ⟨eval, after, record, ran, stored, refused⟩
  apply (check_holds_on_stored_row_iff integerTable _ [some (.plain (.integer 5))] .abort 1 [0]
    rfl rfl).mpr _ eval after record ran stored refused
  intro position member
  cases List.mem_singleton.mp member
  rfl

/-- The text `'5'` passes the CHECK for text and is stored as the integer 5. -/
theorem checked_text_is_stored_as_integer :
    ∃ next record,
      (integerTable.withCheck isTextCheck).insertRow [some (.plain (.text ['5']))] .abort =
        .ok next ∧
      next.rows.get 1 = some record ∧ isTextCheck ∈ next.checks ∧
      isTextCheck.eval (isTextCheck.columns.map (next.schema.readColumn 1 record)) =
        some false :=
  ⟨_, _, rfl, rfl, .head _, rfl⟩

end SqliteRs
