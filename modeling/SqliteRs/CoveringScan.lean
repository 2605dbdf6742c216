import SqliteRs.RowidSeek
import SqliteRs.UniqueIndex

/-!
Scans that an index answers. A covering scan probes the leading column of an
index that carries every result column and returns the matching entries; a skip
scan walks a whole index for matches of a later column and fetches their rows.
Both match raw key values, without the conversions of a comparison, and test
nothing else of the WHERE clause.
-/

namespace SqliteRs

open List SqliteRs.Expr TableSchema Table

def TableSchema.bareResultColumnNames (schema : TableSchema) :
    List ResultColumn → Option (List String)
  | [] => some []
  | column :: rest => do
      let names ← match column with
        | .star => some (schema.columns.map Column.name)
        | .tableStar table =>
          if equalsIgnoreCase table schema.name then some (schema.columns.map Column.name)
          else none
        | .column name => some [name]
        | .computed _ _ => none
      return names ++ (← schema.bareResultColumnNames rest)

def TableSchema.isAliasName (schema : TableSchema) (name : String) : Bool :=
  (schema.rowidAlias.bind fun position => schema.columns[position]?).any fun column =>
    equalsIgnoreCase column.name name

def IndexSchema.leading (index : IndexSchema) : Option IndexedColumn := index.columns.head?

def IndexSchema.leadingCollation (index : IndexSchema) : Collation :=
  (index.leading.map IndexedColumn.collation).getD .binary

def IndexSchema.position (index : IndexSchema) (name : String) : Option Nat :=
  index.columns.findIdx? fun column => equalsIgnoreCase column.name name

def IndexSchema.covers (index : IndexSchema) (schema : TableSchema) (name : String) : Bool :=
  (index.position name).isSome || schema.isAliasName name

namespace Table

variable (table : Table)

/-- The index to probe and its operands: the first whose leading column has a
constant, else the first whose leading column an OR chain compares. -/
def probedIndex (clause : Expr) : Option (Index × List Atom) :=
  let constants := propagateConstants clause
  let direct := table.indexes.findSome? fun index => do
    let column ← index.schema.leading
    let operand ← constants (lowercase column.name)
    return (index, [operand])
  direct <|> table.indexes.findSome? fun index => do
    let column ← index.schema.leading
    let operands ← orChainOperands clause fun expr =>
      expr.whereCol.any fun name => equalsIgnoreCase name column.name
    return (index, operands)

def findCoveringIndex (select : Select) : Option (Index × List Atom × List String) := do
  if select.distinct then none
  else
    let clause ← select.whereClause
    let (index, operands) ← table.probedIndex clause
    let names ← table.schema.bareResultColumnNames select.columns
    if names.all (index.schema.covers table.schema) then some (index, operands, names) else none

end Table

/-- The entries that one probe returns: a first match, then entries as long as
their leading column is equal, which NULL never is. -/
def IndexSearch.probe (search : IndexSearch) (entries : List (List Value)) (collation : Collation)
    (value : Value) : List (List Value) :=
  match search.seekEq entries value collation with
  | [] => []
  | key :: rest => key :: rest.takeWhile fun other =>
    compareJump .eq .blob collation (leadingValue other) value == some true

def IndexSchema.readEntry (index : IndexSchema) (key : List Value) (name : String) :
    Except QueryError Value :=
  match index.position name with
  | some position => .ok (key.getD position .null)
  | none => (entryRowid key).map Value.integer

def IndexSchema.emit (index : IndexSchema) (names : List String) (key : List Value) :
    Except QueryError (Option Value × List Value) := do
  return (key.getLast?, ← names.mapM (index.readEntry key))

def Table.coveringScan (table : Table) (search : IndexSearch) (bindings : Bindings)
    (select : Select) : Option (Except QueryError (List (Option Value × List Value))) :=
  (table.findCoveringIndex select).map fun (index, operands, names) =>
    ((operandValues bindings 0 operands).flatMap
      (search.probe index.entries index.schema.leadingCollation)).mapM (index.schema.emit names)

section SkipScan

/-- The index to walk, the place of the compared column in its key and the operand. -/
def Table.findSkipScanIndex (table : Table) (worthwhile : String → Bool) (select : Select) :
    Option (Index × Nat × Atom) := do
  if select.distinct then none
  else
    let clause ← select.whereClause
    let constants := propagateConstants clause
    table.indexes.findSome? fun index => do
      let position ← index.schema.columns.findIdx? fun column =>
        (constants (lowercase column.name)).isSome
      if position = 0 || !worthwhile index.schema.name then none
      else
        let column ← index.schema.columns[position]?
        let operand ← constants (lowercase column.name)
        return (index, position, operand)

/-- The result list is compiled behind the operand. -/
def Table.skipScan (table : Table) (worthwhile : String → Bool) (bindings : Bindings)
    (select : Select) : Option (Except QueryError (List (Option Value × List Value))) :=
  (table.findSkipScanIndex worthwhile select).map fun (index, position, operand) => do
    table.schema.resolveColumns select.columns
    let rows ← table.fetchAll (index.entries.filter fun key =>
      compareJump .eq .blob .binary (key.getD position .null) (operand.read bindings 0).1 ==
        some true)
    return rows.map (table.answer bindings select (operand.read bindings 0).2)

end SkipScan

section Probe

variable {index : Index} {collation : Collation} {value : Value}

def meets (collation : Collation) (value : Value) (key : List Value) : Bool :=
  (leadingValue key).compare value collation == .eq

theorem compareJump_blob (collation : Collation) (left right : Value) (known : right ≠ .null) :
    (compareJump .eq .blob collation left right == some true) =
      (left.compare right collation == .eq) := by
  by_cases null : left = .null
  · subst null
    have unequal : ¬ Value.null.compare right collation = .eq := by
      intro equal
      exact known (null_of_valueRank right (valueRank_of_compare .null right collation equal).symm)
    simp [compareJump, unequal]
  · simp [compareJump, null, known, applyAffinity, Comparison.holds]

theorem compareJump_null (op : Comparison) (affinity : Affinity) (collation : Collation)
    (left : Value) : compareJump op affinity collation left .null = none := by
  simp [compareJump]

theorem Index.Ascends.probe (search : IndexSearch) (ascends : index.Ascends)
    (long : ∀ key ∈ index.entries, 1 < key.length) (places : index.Places collation value) :
    search.probe index.entries collation value =
      if value = .null then (index.entries.filter (meets collation value)).take 1
      else index.entries.filter (meets collation value) := by
  have sought := ascends.seekEq search long places
  change search.seekEq index.entries value collation =
    if index.entries.filter (meets collation value) = [] then []
    else index.entries.filter (meets collation value) ++ _ at sought
  rw [IndexSearch.probe, sought]
  cases matching : index.entries.filter (meets collation value) with
  | nil => simp
  | cons key rest =>
    simp only [reduceCtorEq, if_false, cons_append]
    by_cases null : value = .null
    · have stops : ∀ other, (compareJump .eq .blob collation (leadingValue other) value ==
          some true) = false := by
        intro other
        rw [null, compareJump_null]
        rfl
      rw [if_pos null]
      simp only [stops]
      generalize rest ++ _ = behind
      cases behind <;> rfl
    · simp only [if_neg null, compareJump_blob collation _ value null]
      congr 1
      -- The walk takes the rest of the matches and stops at the first entry above them.
      have taken : ∀ other ∈ rest, ((leadingValue other).compare value collation == .eq) = true := by
        intro other mem
        have inside : other ∈ key :: rest := .tail _ mem
        rw [← matching] at inside
        exact (mem_filter.mp inside).2
      rw [takeWhile_append_of_pos taken]
      conv_rhs => rw [← append_nil rest]
      congr 1
      apply takeWhile_eq_nil_iff.mpr
      intro positive
      have mem := get_mem _ ⟨0, positive⟩
      rw [mem_filter, decide_eq_true_iff] at mem
      rw [beq_iff_eq, places.eq_iff mem.1]
      exact ne_of_gt mem.2

end Probe

section Known

variable {table : Table} {bindings : Bindings} {row : Int × Record} {clause : Expr}

def TrueOf (table : Table) (bindings : Bindings) (row : Int × Record) (expr : Expr) : Prop :=
  ∃ next, (expr.eval table.schema bindings row next).1.truth = some true

variable {left right : Option Bool} {lhs rhs : Expr} {constants : Constants} {name : List Char}
  {noted : Constants × List (List Char × List Char)} {links : List (List Char × List Char)}

theorem bothTrue_true (both : bothTrue left right = some true) :
    left = some true ∧ right = some true := by
  unfold bothTrue at both
  split at both
  · cases both
  · cases both
  · exact ⟨rfl, rfl⟩
  · cases both

theorem eitherTrue_true (either : eitherTrue left right = some true) :
    left = some true ∨ right = some true := by
  unfold eitherTrue at either
  split at either
  · exact .inl rfl
  · exact .inr rfl
  · cases either
  · cases either

theorem trueOf_and (holds : TrueOf table bindings row (.and lhs rhs)) :
    TrueOf table bindings row lhs ∧ TrueOf table bindings row rhs := by
  obtain ⟨next, truth⟩ := holds
  simp only [eval] at truth
  split at truth
  all_goals
    rw [truth_ofTruth] at truth
    obtain ⟨left, right⟩ := bothTrue_true truth
    exact ⟨⟨_, left⟩, ⟨_, right⟩⟩

theorem trueOf_or (holds : TrueOf table bindings row (.or lhs rhs)) :
    TrueOf table bindings row lhs ∨ TrueOf table bindings row rhs := by
  obtain ⟨next, truth⟩ := holds
  simp only [eval] at truth
  split at truth
  all_goals
    rw [truth_ofTruth] at truth
    exact (eitherTrue_true truth).imp (⟨_, ·⟩) (⟨_, ·⟩)

theorem conjunct_true (holds : TrueOf table bindings row clause) :
    ∀ conjunct ∈ clause.flattenAndConjuncts, TrueOf table bindings row conjunct := by
  induction clause with
  | and lhs rhs ihLeft ihRight =>
    obtain ⟨left, right⟩ := trueOf_and holds
    intro conjunct mem
    rcases mem_append.mp mem with inLeft | inRight
    · exact ihLeft left conjunct inLeft
    · exact ihRight right conjunct inRight
  | _ =>
    intro conjunct mem
    rw [mem_singleton.mp mem]
    exact holds

theorem disjunct_true (holds : TrueOf table bindings row clause) :
    ∃ disjunct ∈ clause.flattenOrDisjuncts, TrueOf table bindings row disjunct := by
  induction clause with
  | or lhs rhs ihLeft ihRight =>
    rcases trueOf_or holds with left | right
    · obtain ⟨disjunct, mem, here⟩ := ihLeft left
      exact ⟨disjunct, mem_append_left _ mem, here⟩
    · obtain ⟨disjunct, mem, here⟩ := ihRight right
      exact ⟨disjunct, mem_append_right _ mem, here⟩
  | _ => exact ⟨_, mem_singleton_self _, holds⟩

def KnownIn (table : Table) (row : Int × Record) (name : List Char) : Prop :=
  ∀ column, lowercase column = name → table.schema.columnValue column row ≠ .null

theorem columnValue_lowercase (schema : TableSchema) {first second : String}
    (same : lowercase first = lowercase second) :
    schema.columnValue first = schema.columnValue second := by
  have index : schema.columnIndex first = schema.columnIndex second := by
    unfold lowercase at same
    simp [columnIndex, equalsIgnoreCase, same]
  funext row
  simp [columnValue, index]

theorem equality_known {expr : Expr} (equality : expr.equalityOperands = some (lhs, rhs))
    (holds : TrueOf table bindings row expr) :
    (∀ name, lhs.whereCol = some name → KnownIn table row (lowercase name)) ∧
      ∀ name, rhs.whereCol = some name → KnownIn table row (lowercase name) := by
  obtain rfl : expr = .compare .eq lhs rhs := by
    unfold equalityOperands at equality
    split at equality <;> cases equality
    rfl
  obtain ⟨next, truth⟩ := holds
  rw [eval_compare, compareWith, compareJump] at truth
  split at truth
  · cases truth
  rename_i known
  rw [not_or] at known
  have column : ∀ {side : Expr} {name : String} {from_ : Nat}, side.whereCol = some name →
      (side.eval table.schema bindings row from_).1 ≠ .null →
      KnownIn table row (lowercase name) := by
    intro side name from_ isColumn held other same
    unfold whereCol at isColumn
    split at isColumn
    · cases isColumn
      rw [columnValue_lowercase table.schema same]
      exact held
    · cases isColumn
  exact ⟨fun name isColumn => column isColumn known.1, fun name isColumn => column isColumn known.2⟩

structure NotedKnown (table : Table) (row : Int × Record)
    (noted : Constants × List (List Char × List Char)) : Prop where
  constants : ∀ name, (noted.1 name).isSome → KnownIn table row name
  links : ∀ link ∈ noted.2, KnownIn table row link.1 ∧ KnownIn table row link.2

theorem insert_known {value : Atom} (known : ∀ name, (constants name).isSome → KnownIn table row name)
    (here : KnownIn table row name) :
    ∀ other, ((constants.insert name value) other).isSome → KnownIn table row other := by
  intro other held
  unfold Constants.insert at held
  split at held
  · rename_i same
    rw [same]
    exact here
  · exact known other held

theorem noteConjunct_known {conjunct : Expr} (known : NotedKnown table row noted)
    (holds : TrueOf table bindings row conjunct) :
    NotedKnown table row (noteConjunct noted conjunct) := by
  unfold noteConjunct
  split
  · exact known
  rename_i lhs rhs equality
  obtain ⟨left, right⟩ := equality_known equality holds
  split
  · rename_i name column _
    split
    · exact ⟨insert_known known.constants (left name column), known.links⟩
    · exact known
  · rename_i name _ column
    split
    · exact ⟨insert_known known.constants (right name column), known.links⟩
    · exact known
  · rename_i first second one two
    refine ⟨known.constants, ?_⟩
    intro link mem
    rcases mem_append.mp mem with earlier | new
    · exact known.links link earlier
    · rw [mem_singleton.mp new]
      exact ⟨left first one, right second two⟩
  · exact known

theorem noteConjuncts_known {conjuncts : List Expr} (known : NotedKnown table row noted)
    (holds : ∀ conjunct ∈ conjuncts, TrueOf table bindings row conjunct) :
    NotedKnown table row (conjuncts.foldl noteConjunct noted) := by
  induction conjuncts generalizing noted with
  | nil => exact known
  | cons conjunct rest ih =>
    exact ih (noteConjunct_known known (holds conjunct (.head _)))
      fun other mem => holds other (.tail _ mem)

theorem copy_known {src target : List Char}
    (known : ∀ name, (constants name).isSome → KnownIn table row name)
    (here : KnownIn table row target) :
    ∀ name, ((constants.copy src target).1 name).isSome → KnownIn table row name := by
  unfold Constants.copy
  split
  · exact insert_known known here
  · exact known

theorem propagatePass_known (known : ∀ name, (constants name).isSome → KnownIn table row name)
    (ends : ∀ link ∈ links, KnownIn table row link.1 ∧ KnownIn table row link.2) :
    ∀ name, ((propagatePass links constants).1 name).isSome → KnownIn table row name := by
  induction links generalizing constants with
  | nil => exact known
  | cons link rest ih =>
    obtain ⟨first, second⟩ := ends link (.head _)
    exact ih (copy_known (copy_known known second) first) fun other mem => ends other (.tail _ mem)

theorem propagateLinks_known (passes : Nat)
    (known : ∀ name, (constants name).isSome → KnownIn table row name)
    (ends : ∀ link ∈ links, KnownIn table row link.1 ∧ KnownIn table row link.2) :
    ∀ name, ((propagateLinks links passes constants) name).isSome → KnownIn table row name := by
  induction passes generalizing constants with
  | zero => exact known
  | succ passes ih =>
    simp only [propagateLinks]
    split
    · exact ih (propagatePass_known known ends)
    · exact propagatePass_known known ends

theorem propagateConstants_known (holds : TrueOf table bindings row clause)
    (constant : (propagateConstants clause name).isSome) : KnownIn table row name := by
  have noted : NotedKnown table row
      (clause.flattenAndConjuncts.foldl noteConjunct (fun _ => none, [])) := by
    have nothing : NotedKnown table row (fun _ => none, []) := by
      constructor
      · intro name held
        cases held
      · intro link mem
        cases mem
    exact noteConjuncts_known nothing (conjunct_true holds)
  exact propagateLinks_known _ noted.constants noted.links name constant

end Known

section Leading

variable {table : Table} {binds : Bindings} {row : Int × Record}

/-- A schema whose columns answer to their own names, in the table and in its indexes. -/
structure Table.Resolved (table : Table) : Prop where
  names : ∀ position column, table.schema.columns[position]? = some column →
    table.schema.columnIndex column.name = some position
  keys : ∀ index ∈ table.indexes, ∀ column ∈ index.schema.columns,
    table.schema.columnIndex column.name = some column.position

theorem mapM_defined {First Second : Type} {partly : First → Option Second} {items : List First}
    {images : List Second} (all : items.mapM partly = some images) :
    ∀ item ∈ items, ∃ image, partly item = some image := by
  induction items generalizing images with
  | nil =>
    intro item mem
    cases mem
  | cons item rest ih =>
    rw [mapM_cons] at all
    obtain ⟨image, here, all⟩ := Option.bind_eq_some_iff.mp all
    obtain ⟨later, there, -⟩ := Option.bind_eq_some_iff.mp all
    exact forall_mem_cons.mpr ⟨⟨image, here⟩, ih there⟩

theorem equalityOperand_known {column : String} {expr : Expr} {operand : Atom}
    (operandOf : equalityOperand (fun side =>
      side.whereCol.any fun name => equalsIgnoreCase name column) expr = some operand)
    (holds : TrueOf table binds row expr) : KnownIn table row (lowercase column) := by
  have named : ∀ {side : Expr}, (side.whereCol.any fun name => equalsIgnoreCase name column) = true →
      ∃ name, side.whereCol = some name ∧ lowercase name = lowercase column := by
    intro side isColumn
    cases whole : side.whereCol with
    | none => rw [whole] at isColumn; cases isColumn
    | some name =>
      rw [whole] at isColumn
      exact ⟨name, rfl, by simpa [equalsIgnoreCase, lowercase] using isColumn⟩
  unfold equalityOperand at operandOf
  split at operandOf
  · cases operandOf
  rename_i lhs rhs equality
  obtain ⟨left, right⟩ := equality_known equality holds
  split at operandOf
  · rename_i isColumn
    obtain ⟨name, here, same⟩ := named isColumn
    exact same ▸ left name here
  split at operandOf
  · rename_i isColumn
    obtain ⟨name, here, same⟩ := named isColumn
    exact same ▸ right name here
  · cases operandOf

theorem probedIndex_inv {clause : Expr} {index : Index} {operands : List Atom}
    (probed : table.probedIndex clause = some (index, operands)) :
    index ∈ table.indexes ∧ ∃ column, index.schema.leading = some column ∧
      ∀ binds row, TrueOf table binds row clause →
        table.schema.columnValue column.name row ≠ .null := by
  rw [probedIndex, Option.orElse_eq_orElse, Option.orElse_eq_or, Option.or_eq_some_iff] at probed
  rcases probed with direct | ⟨-, chained⟩
  · obtain ⟨found, mem, here⟩ := exists_of_findSome?_eq_some direct
    obtain ⟨column, leads, here⟩ := Option.bind_eq_some_iff.mp here
    obtain ⟨operand, constant, here⟩ := Option.bind_eq_some_iff.mp here
    cases here
    refine ⟨mem, column, leads, ?_⟩
    intro binds row holds
    exact propagateConstants_known holds (Option.isSome_of_eq_some constant) column.name rfl
  · obtain ⟨found, mem, here⟩ := exists_of_findSome?_eq_some chained
    obtain ⟨column, leads, here⟩ := Option.bind_eq_some_iff.mp here
    obtain ⟨chain, chainOf, here⟩ := Option.bind_eq_some_iff.mp here
    cases here
    refine ⟨mem, column, leads, ?_⟩
    intro binds row holds
    obtain ⟨disjunct, inside, truth⟩ := disjunct_true holds
    unfold orChainOperands at chainOf
    simp only at chainOf
    split at chainOf
    · cases chainOf
    · obtain ⟨operand, operandOf⟩ := mapM_defined chainOf disjunct inside
      exact equalityOperand_known operandOf truth column.name rfl

theorem Table.satisfies_trueOf {clause : Expr} (holds : table.satisfies binds clause row = true) :
    TrueOf table binds row clause := by
  refine ⟨0, ?_⟩
  simpa [satisfies, Expr.isTrue] using holds

section Entry

variable {index : Index} {keyOf : Int × Record → List Value} (resolved : table.Resolved)
  (filled : table.Fills index keyOf) (inside : row ∈ table.rows.entries)
include resolved filled inside

theorem Table.Resolved.lead (mem : index ∈ table.indexes) {column : IndexedColumn}
    (leads : index.schema.leading = some column) :
    table.schema.asRead column.position (leadingValue (keyOf row)) =
      table.schema.columnValue column.name row := by
  obtain ⟨rest, columns⟩ := head?_eq_some_iff.mp leads
  have pos := resolved.keys index mem column (by rw [columns]; exact .head _)
  have first := filled.column inside (show index.schema.columns[0]? = some column by rw [columns]; rfl)
  have value : table.schema.columnValue column.name row =
      table.schema.readColumn row.1 row.2 column.position := by
    rw [columnValue, pos]
  rw [value, ← first, leadingValue, headD_eq_head?_getD, getD_eq_getElem?_getD,
    head?_eq_getElem?]

theorem Table.Resolved.lead_null (mem : index ∈ table.indexes) {column : IndexedColumn}
    (leads : index.schema.leading = some column) :
    leadingValue (keyOf row) = .null ↔ table.schema.columnValue column.name row = .null := by
  rw [← resolved.lead filled inside mem leads, asRead_null]

theorem Table.Resolved.readEntry {name : String}
    (covered : index.schema.covers table.schema name = true) :
    index.schema.readEntry (keyOf row) name = .ok (match index.schema.position name with
      | some pos => (keyOf row).getD pos .null
      | none => table.schema.columnValue name row) := by
  unfold IndexSchema.readEntry
  split
  · rfl
  · rename_i missing
    have isAlias : table.schema.isAliasName name = true := by
      simpa [IndexSchema.covers, missing] using covered
    obtain ⟨column, found, same⟩ := (Option.any_eq_true _ _).mp isAlias
    obtain ⟨pos, isRowid, here⟩ := Option.bind_eq_some_iff.mp found
    rw [← columnValue_lowercase table.schema (by simpa [equalsIgnoreCase, lowercase] using same)]
    simp [columnValue, resolved.names pos column here, readColumn,
      isRowid, filled.rowid inside, Except.map]

end Entry

end Leading

section Scans

variable {table : Table} {bindings : Bindings} {clause : Expr} {index : Index}
  {rows : List (Int × Record)}

/-- Soundness of probing an index in place of a WHERE clause: a NULL operand meets
no row, no row is met by two operands, the rows that meet an operand's raw value are
the rows that the clause is true of, and their entries hold the result columns as they
are read. Only a REAL column that SQLite wrote as an integer is held otherwise. -/
structure Table.ProbeSound (table : Table) (bindings : Bindings) (clause : Expr) (index : Index)
    (keyOf : Int × Record → List Value) (values : List Value) (names : List String) : Prop where
  nulls : .null ∈ values → ∀ row ∈ table.rows.entries, leadingValue (keyOf row) ≠ .null
  once : ∀ row ∈ table.rows.entries, values.countP (fun value =>
    (leadingValue (keyOf row)).compare value index.schema.leadingCollation == .eq) ≤ 1
  agrees : ∀ row ∈ table.rows.entries, table.satisfies bindings clause row = true ↔
    ∃ value ∈ values,
      (leadingValue (keyOf row)).compare value index.schema.leadingCollation = .eq
  shown : ∀ row ∈ table.rows.entries, table.satisfies bindings clause row = true →
    ∀ name ∈ names, ∀ position, index.schema.position name = some position →
      (keyOf row).getD position .null = table.schema.columnValue name row

/-- Soundness of a skip scan: the bare result columns are the table's, the raw values that it
compares tell the rows that the clause is true of from the others, and the result list shows
these as the scan does, from the number behind its operand. -/
structure Table.SkipSound (table : Table) (bindings : Bindings) (select : Select) (clause : Expr)
    (keyOf : Int × Record → List Value) (position : Nat) (operand : Atom) : Prop where
  named : table.schema.NamesColumns select
  agrees : ∀ row ∈ table.rows.entries, table.satisfies bindings clause row =
    (compareJump .eq .blob .binary ((keyOf row).getD position .null)
      (operand.read bindings 0).1 == some true)
  shown : ∀ row ∈ table.rows.entries, table.satisfies bindings clause row = true →
    table.schema.project bindings row (operand.read bindings 0).2 select.columns =
      table.schema.project bindings row (select.scanNumber bindings) select.columns

variable {names : List String} {select : Select} {ordered : List (Int × Record)}
  {values : List Value} {keyOf : Int × Record → List Value}

theorem TableSchema.project_bare {schema : TableSchema} {columns : List ResultColumn}
    (bare : schema.bareResultColumnNames columns = some names) (row : Int × Record) (next : Nat) :
    schema.project bindings row next columns =
      names.map fun name => schema.columnValue name row := by
  induction columns generalizing names next with
  | nil =>
    cases bare
    rfl
  | cons column rest ih =>
    -- The names of one result column stand in front of the rest's.
    have split : ∃ here later, schema.bareResultColumnNames rest = some later ∧
        names = here ++ later ∧ schema.resultValues bindings next row column =
          here.map fun name => schema.columnValue name row := by
      cases column with
      | star | column =>
        obtain ⟨later, others, same⟩ := Option.bind_eq_some_iff.mp bare
        cases same
        exact ⟨_, later, others, rfl, by simp [resultValues, readRow]⟩
      | tableStar name =>
        simp only [bareResultColumnNames] at bare
        split at bare
        · rw [Option.bind_eq_bind, Option.bind_some] at bare
          obtain ⟨later, others, same⟩ := Option.bind_eq_some_iff.mp bare
          cases same
          exact ⟨_, later, others, rfl, by simp [resultValues, readRow]⟩
        · cases bare
      | computed params eval => cases bare
    obtain ⟨here, later, others, rfl, first⟩ := split
    rw [map_append, ← ih others, ← first]
    rfl

theorem mapM_ok {First Second Error : Type} {run : First → Except Error Second}
    {image : First → Second} {items : List First} (each : ∀ item ∈ items, run item = .ok (image item)) :
    items.mapM run = .ok (items.map image) := by
  induction items with
  | nil => rfl
  | cons item rest ih =>
    obtain ⟨here, later⟩ := forall_mem_cons.mp each
    rw [mapM_cons, here, ih later]
    rfl

/-- What a covering scan returns for a row. -/
def Table.entryValues (table : Table) (index : IndexSchema) (keyOf : Int × Record → List Value)
    (names : List String) (row : Int × Record) : List Value :=
  names.map fun name => match index.position name with
    | some pos => (keyOf row).getD pos .null
    | none => table.schema.columnValue name row

theorem Table.Resolved.emitted (resolved : table.Resolved) (filled : table.Fills index keyOf)
    (covered : ∀ name ∈ names, index.schema.covers table.schema name = true)
    (inside : ∀ row ∈ rows, row ∈ table.rows.entries) :
    (rows.map keyOf).mapM (index.schema.emit names) = .ok (rows.map fun row =>
      (some (.integer row.1), table.entryValues index.schema keyOf names row)) := by
  rw [mapM_map]
  apply mapM_ok
  intro row here
  have values : names.mapM (index.schema.readEntry (keyOf row)) =
      .ok (table.entryValues index.schema keyOf names row) :=
    mapM_ok fun name listed =>
      resolved.readEntry filled (inside row here) (covered name listed)
  rw [Function.comp_apply, IndexSchema.emit, values, filled.last (inside row here)]
  rfl

theorem Table.entryValues_eq_iff
    (bare : table.schema.bareResultColumnNames select.columns = some names) (row : Int × Record)
    (next : Nat) : table.entryValues index.schema keyOf names row =
        table.schema.project bindings row next select.columns ↔
      ∀ name ∈ names, ∀ position, index.schema.position name = some position →
        (keyOf row).getD position .null = table.schema.columnValue name row := by
  rw [project_bare bare, entryValues, map_inj_left]
  apply forall₂_congr
  intro name _
  cases index.schema.position name with
  | none => simp
  | some pos => simp

theorem Table.findCoveringIndex_inv {operands : List Atom} (filtered : select.whereClause = some clause)
    (taken : table.findCoveringIndex select = some (index, operands, names)) :
    table.probedIndex clause = some (index, operands) ∧
      table.schema.bareResultColumnNames select.columns = some names ∧
      ∀ name ∈ names, index.schema.covers table.schema name = true := by
  unfold findCoveringIndex at taken
  split at taken
  · cases taken
  rw [filtered, Option.bind_eq_bind, Option.bind_some] at taken
  obtain ⟨⟨found, chosen⟩, probed, taken⟩ := Option.bind_eq_some_iff.mp taken
  obtain ⟨columns, bare, taken⟩ := Option.bind_eq_some_iff.mp taken
  split at taken
  · rename_i covered
    cases taken
    exact ⟨probed, bare, all_eq_true.mp covered⟩
  · cases taken

def probeRows (collation : Collation) (keyOf : Int × Record → List Value)
    (rows : List (Int × Record)) (value : Value) : List (Int × Record) :=
  let met := rows.filter fun row => meets collation value (keyOf row)
  if value = .null then met.take 1 else met

theorem probeRows_subset {collation : Collation} {value : Value}
    {row : Int × Record} (returned : row ∈ probeRows collation keyOf rows value) : row ∈ rows := by
  unfold probeRows at returned
  split at returned
  · exact (mem_filter.mp (mem_of_mem_take returned)).1
  · exact (mem_filter.mp returned).1

theorem probes_rows (search : IndexSearch) (ascends : index.Ascends)
    (entries : index.entries = ordered.map keyOf)
    (long : ∀ key ∈ index.entries, 1 < key.length)
    (places : ∀ value ∈ values, index.Places index.schema.leadingCollation value) :
    values.flatMap (search.probe index.entries index.schema.leadingCollation) =
      (values.flatMap (probeRows index.schema.leadingCollation keyOf ordered)).map keyOf := by
  rw [map_flatMap]
  apply flatMap_congr
  intro value mem
  rw [ascends.probe search long (places value mem), entries, filter_map, probeRows]
  split
  · rw [map_take]
    rfl
  · rfl

theorem meets_null {collation : Collation} {key : List Value} :
    meets collation .null key = true ↔ leadingValue key = .null := by
  rw [meets, beq_iff_eq]
  constructor
  · intro equal
    exact null_of_valueRank _ (valueRank_of_compare _ .null collation equal)
  intro null
  rw [null]
  rfl

theorem Table.probeRows_perm_iff (perm : ordered.Perm table.rows.entries)
    (known : ∀ row ∈ table.rows.entries, table.satisfies bindings clause row = true →
      leadingValue (keyOf row) ≠ .null) :
    (values.flatMap (probeRows index.schema.leadingCollation keyOf ordered)).Perm
        (table.rows.entries.filter (table.satisfies bindings clause)) ↔
      (.null ∈ values → ∀ row ∈ table.rows.entries, leadingValue (keyOf row) ≠ .null) ∧
        MetOnce table.rows.entries values
          (fun value row => meets index.schema.leadingCollation value (keyOf row))
          (table.satisfies bindings clause) := by
  have probe : (.null ∈ values → ∀ row ∈ table.rows.entries, leadingValue (keyOf row) ≠ .null) →
      (values.flatMap (probeRows index.schema.leadingCollation keyOf ordered)) =
        values.flatMap fun value => ordered.filter fun row =>
          meets index.schema.leadingCollation value (keyOf row) := by
    intro nulls
    apply flatMap_congr
    intro value mem
    unfold probeRows
    split
    · rename_i null
      subst null
      rw [filter_eq_nil_iff.mpr, take_nil]
      intro row inside hit
      exact nulls mem row (perm.mem_iff.mp inside) (meets_null.mp hit)
    · rfl
  have gathered := gathered_ordered_perm_iff table.rows_nodup perm values (fun value row =>
    meets index.schema.leadingCollation value (keyOf row)) (table.satisfies bindings clause)
  constructor
  · intro same
    have nulls : .null ∈ values → ∀ row ∈ table.rows.entries, leadingValue (keyOf row) ≠ .null := by
      intro mem row inside null
      -- The probe of NULL would return a row that the clause is not true of.
      have hit : row ∈ ordered.filter fun row =>
          meets index.schema.leadingCollation .null (keyOf row) :=
        mem_filter.mpr ⟨perm.mem_iff.mpr inside, meets_null.mpr null⟩
      obtain ⟨first, rest, found⟩ := exists_cons_of_ne_nil (ne_nil_of_mem hit)
      have returned : first ∈ probeRows index.schema.leadingCollation keyOf ordered .null := by
        simp [probeRows, found]
      have met : first ∈ first :: rest := .head _
      rw [← found] at met
      obtain ⟨firstIn, holds⟩ :=
        mem_filter.mp (same.mem_iff.mp (mem_flatMap.mpr ⟨.null, mem, returned⟩))
      exact known first firstIn holds (meets_null.mp (mem_filter.mp met).2)
    rw [probe nulls] at same
    exact ⟨nulls, gathered.mp same⟩
  · rintro ⟨nulls, met⟩
    rw [probe nulls]
    exact gathered.mpr met

theorem Table.covering_exact_iff (resolved : table.Resolved) (search : IndexSearch)
    (filtered : select.whereClause = some clause) {operands : List Atom}
    (taken : table.findCoveringIndex select = some (index, operands, names))
    (filled : table.Fills index keyOf) (ascends : index.Ascends)
    (places : ∀ value ∈ operandValues bindings 0 operands,
      index.Places index.schema.leadingCollation value) :
    (∃ results, table.coveringScan search bindings select = some (.ok results) ∧
        results.Perm (table.scanAnswers bindings select)) ↔
      table.ProbeSound bindings clause index keyOf (operandValues bindings 0 operands) names := by
  obtain ⟨probed, bare, covered⟩ := findCoveringIndex_inv filtered taken
  obtain ⟨member, column, leads, notNull⟩ := probedIndex_inv probed
  obtain ⟨ordered, perm, entries⟩ := filled.ordered
  have known : ∀ row ∈ table.rows.entries, table.satisfies bindings clause row = true →
      leadingValue (keyOf row) ≠ .null := by
    intro row inside holds null
    exact notNull bindings row (satisfies_trueOf holds)
      ((resolved.lead_null filled inside member leads).mp null)
  have long := filled.long (ne_nil_of_mem (mem_of_head? leads))
  generalize same : operandValues bindings 0 operands = values at places ⊢
  have inside : ∀ value ∈ values, ∀ row ∈ probeRows index.schema.leadingCollation keyOf ordered
      value, row ∈ table.rows.entries :=
    fun value _ row returned => perm.mem_iff.mp (probeRows_subset returned)
  have wanted : ∀ row ∈ table.rows.entries.filter (table.satisfies bindings clause),
      row ∈ table.rows.entries := fun row met => (mem_filter.mp met).1
  have emitted : (values.flatMap (search.probe index.entries index.schema.leadingCollation)).mapM
      (index.schema.emit names) = .ok (values.flatMap fun value =>
        (probeRows index.schema.leadingCollation keyOf ordered value).map fun row =>
          (some (.integer row.1), table.entryValues index.schema keyOf names row)) := by
    rw [probes_rows search ascends entries long places, resolved.emitted filled covered,
      map_flatMap]
    intro row returned
    obtain ⟨value, listed, returned⟩ := mem_flatMap.mp returned
    exact inside value listed row returned
  rw [coveringScan, taken, scanAnswers, fullScan, filtered]
  simp only [Option.map_some, Option.some.injEq]
  rw [same, emitted]
  simp only [Except.ok.injEq, exists_eq_left']
  unfold answer
  rw [answers_perm_iff inside wanted, probeRows_perm_iff perm known]
  constructor
  · rintro ⟨⟨nulls, met⟩, shown⟩
    obtain ⟨once, agrees⟩ := metOnce_iff.mp met
    have agrees : ∀ row ∈ table.rows.entries, table.satisfies bindings clause row = true ↔
        ∃ value ∈ values,
          (leadingValue (keyOf row)).compare value index.schema.leadingCollation = .eq :=
      fun row mem => by simpa [meets] using agrees row mem
    refine ⟨nulls, once, agrees, fun row mem holds => ?_⟩
    -- A row that the clause is true of is among those of some operand.
    have returned := ((probeRows_perm_iff perm known).mpr ⟨nulls, met⟩).mem_iff.mpr
      (mem_filter.mpr ⟨mem, holds⟩)
    obtain ⟨value, listed, returned⟩ := mem_flatMap.mp returned
    exact (entryValues_eq_iff bare row _).mp (shown value listed row returned)
  · intro sound
    have met : MetOnce table.rows.entries values
        (fun value row => meets index.schema.leadingCollation value (keyOf row))
        (table.satisfies bindings clause) :=
      metOnce_iff.mpr ⟨sound.once, fun row mem => by simpa [meets] using sound.agrees row mem⟩
    refine ⟨⟨sound.nulls, met⟩, fun value listed row returned => ?_⟩
    have holds := ((probeRows_perm_iff perm known).mpr ⟨sound.nulls, met⟩).mem_iff.mp
      (mem_flatMap.mpr ⟨value, listed, returned⟩)
    obtain ⟨mem, holds⟩ := mem_filter.mp holds
    exact (entryValues_eq_iff bare row _).mpr (sound.shown row mem holds)

theorem Table.skip_exact_iff {worthwhile : String → Bool} {pos : Nat} {operand : Atom}
    (filtered : select.whereClause = some clause)
    (taken : table.findSkipScanIndex worthwhile select = some (index, pos, operand))
    (filled : table.Fills index keyOf) :
    (∃ results, table.skipScan worthwhile bindings select = some (.ok results) ∧
        results.Perm (table.scanAnswers bindings select)) ↔
      table.SkipSound bindings select clause keyOf pos operand := by
  obtain ⟨ordered, perm, entries⟩ := filled.ordered
  -- The scan compares with BLOB affinity under BINARY, whatever the column declares.
  let hits := fun row => compareJump .eq .blob .binary ((keyOf row).getD pos .null)
    (operand.read bindings 0).1 == some true
  have inside : ∀ row ∈ ordered.filter hits, row ∈ table.rows.entries :=
    fun row met => perm.mem_iff.mp (mem_filter.mp met).1
  have wanted : ∀ row ∈ table.rows.entries.filter (table.satisfies bindings clause),
      row ∈ table.rows.entries := fun row met => (mem_filter.mp met).1
  have fetched : table.fetchAll (index.entries.filter fun key =>
      compareJump .eq .blob .binary (key.getD pos .null) (operand.read bindings 0).1 ==
        some true) = .ok (ordered.filter hits) := by
    rw [entries, filter_map]
    exact filled.fetchAll inside
  have ran : ∀ results, table.skipScan worthwhile bindings select = some (.ok results) ↔
      table.schema.NamesColumns select ∧ results = (ordered.filter hits).map
        (table.answer bindings select (operand.read bindings 0).2) := by
    intro results
    rw [skipScan, taken, Option.map_some, Option.some.injEq, NamesColumns,
      ← resolveColumns_ok_iff]
    dsimp only
    rw [fetched]
    constructor
    · intro done
      obtain ⟨⟨⟩, named, done⟩ := bind_ok done
      exact ⟨named, (Except.ok.inj done).symm⟩
    · rintro ⟨named, rfl⟩
      rw [named]
      rfl
  have answers := @answers_map_iff table _
    (fun row => table.schema.project bindings row (select.scanNumber bindings) select.columns) _
    (fun row => table.schema.project bindings row (operand.read bindings 0).2 select.columns)
    inside wanted
  rw [filter_perm_iff table.rows_nodup perm] at answers
  simp only [ran, scanAnswers, fullScan, filtered]
  constructor
  · rintro ⟨results, ⟨named, rfl⟩, same⟩
    obtain ⟨agrees, shown⟩ := answers.mp same
    refine ⟨named, agrees, fun row mem holds => shown row (mem_filter.mpr ?_)⟩
    exact ⟨perm.mem_iff.mpr mem, agrees row mem ▸ holds⟩
  · intro sound
    refine ⟨_, ⟨sound.named, rfl⟩, answers.mpr ⟨sound.agrees, fun row met => ?_⟩⟩
    have mem := inside row met
    exact sound.shown row mem (sound.agrees row mem ▸ (mem_filter.mp met).2)

end Scans

def numberIndex : Index := ⟨indexOnA, [[.integer 5, .integer 1], [.integer 6, .integer 2]]⟩

def indexedNumbers : Table := { twoNumbers with indexes := [numberIndex] }

def indexedText : Table where
  schema := { name := "t", columns := [{ name := "a", declaredType := "TEXT".toList }] }
  rows := ⟨[(1, [.text ['5']])], by decide⟩
  indexes := [⟨indexOnA, [[.text ['5'], .integer 1]]⟩]
  sequence := none

theorem indexedNumbers_fills : indexedNumbers.Fills numberIndex (indexedNumbers.keyIn indexOnA) := by
  have mirrors : indexedNumbers.Mirrors := by
    intro index mem
    rw [mem_singleton.mp mem]
    decide
  exact mirrors.fills (mem_singleton_self _)

theorem numberIndex_ascends : numberIndex.Ascends :=
  Index.ascends_of_integers (by decide) (by decide)

theorem numberIndex_places (number : Int) :
    numberIndex.Places numberIndex.schema.leadingCollation (.integer number) :=
  Index.places_of_integers (by decide) rfl

theorem indexedNumbers_resolved : indexedNumbers.Resolved := by
  constructor
  · intro pos column held
    rcases pos with _ | pos
    · cases held
      rfl
    · cases held
  · intro index mem column inside
    rw [mem_singleton.mp mem] at inside
    rw [mem_singleton.mp inside]
    rfl

end SqliteRs
