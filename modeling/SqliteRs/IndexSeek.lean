import SqliteRs.CoveringScan

/-!
Seeks on the leading column of an index. A literal or a parameter is compared with
the keys as it stands, and the row of each entry found is fetched. The IN list
takes one entry for each member, and its result list is compiled once behind each
of them.
-/

namespace SqliteRs

open List Table TableSchema

section Operands

def Atom.isSupportedOperand : Atom → Bool
  | .literal (.integer _) | .literal (.float _) | .literal (.str _) => true
  | .param .anonymous | .param (.numbered _) => true
  | _ => false

/-- Whether an operand is of the storage class that the column's conversion gives.
A parameter is taken on trust. -/
def Atom.matchesColumnAffinity (affinity : Affinity) : Atom → Bool
  | .literal (.integer _) | .literal (.float _) => affinity.isNumeric
  | .literal (.str _) => affinity == .text
  | .param _ => true
  | _ => false

def TableSchema.declaredAffinity (schema : TableSchema) (name : String) : Affinity :=
  ((schema.columnIndex name).bind fun position => schema.affinities[position]?).getD .blob

def Table.findLeadingIndex (table : Table) (name : String) : Option Index :=
  table.indexes.find? fun index =>
    index.schema.leading.any fun column => equalsIgnoreCase column.name name

theorem Table.findLeadingIndex_inv {table : Table} {name : String} {index : Index}
    (found : table.findLeadingIndex name = some index) :
    index ∈ table.indexes ∧ ∃ column, index.schema.leading = some column ∧
      lowercase column.name = lowercase name := by
  refine ⟨mem_of_find?_eq_some found, ?_⟩
  have named := find?_some found
  obtain ⟨column, leads, same⟩ := (Option.any_eq_true _ _).mp named
  exact ⟨column, leads, by simpa [equalsIgnoreCase, lowercase] using same⟩

end Operands

section Matched

def bareColumnNames (columns : List ResultColumn) : Option (List String) :=
  columns.mapM fun column => match column with
    | .column name => some name
    | _ => none

namespace TableSchema

variable (schema : TableSchema)

/-- A bare result column of a matched row: the compared column comes out of the key. -/
def readMatched (indexed : String) (key : List Value) (row : Int × Record) (name : String) :
    Value :=
  match schema.columnIndex name with
  | none => .null
  | some position =>
    if equalsIgnoreCase name indexed && schema.rowidAlias != some position then
      if schema.affinities[position]? = some .real then applyAffinity .real (leadingValue key)
      else leadingValue key
    else schema.readColumn row.1 row.2 position

def matchedValues (bindings : Bindings) (select : Select) (indexed : String) (number : Nat)
    (key : List Value) (row : Int × Record) : List Value :=
  match bareColumnNames select.columns with
  | none => schema.project bindings row number select.columns
  | some names => names.map (schema.readMatched indexed key row)

end TableSchema

namespace Table

variable (table : Table) (bindings : Bindings) (select : Select) (indexed : String)

def emitMatched (number : Nat) :
    List (List Value) → Except QueryError (List (Option Value × List Value))
  | [] => .ok []
  | key :: rest => do
      let rows ← table.fetch key
      let later ← emitMatched number rest
      return rows.map (fun row => (some (.integer row.1),
        table.schema.matchedValues bindings select indexed number key row)) ++ later

def emitParts : List (Nat × List (List Value)) →
    Except QueryError (List (Option Value × List Value))
  | [] => .ok []
  | (number, keys) :: rest => do
      let here ← table.emitMatched bindings select indexed number keys
      let later ← emitParts rest
      return here ++ later

/-- The rows of the entries found, in parts that each have a copy of the result list. A bare
name that no column has, such as the rowid's, is refused when the query is compiled. -/
def matchedRows (parts : List (Nat × List (List Value))) :
    Except QueryError (List (Option Value × List Value)) := do
  table.schema.resolveColumns select.columns
  table.emitParts bindings select indexed parts

end Table

theorem bareColumnNames_map {columns : List ResultColumn} {names : List String}
    (bare : bareColumnNames columns = some names) : columns = names.map .column := by
  induction columns generalizing names with
  | nil =>
    cases bare
    rfl
  | cons column rest ih =>
    rw [bareColumnNames, mapM_cons] at bare
    obtain ⟨name, first, bare⟩ := Option.bind_eq_some_iff.mp bare
    obtain ⟨others, later, same⟩ := Option.bind_eq_some_iff.mp bare
    cases same
    cases column with
    | column here =>
      cases first
      rw [map_cons, ← ih later]
    | _ => cases first

theorem TableSchema.project_names (schema : TableSchema) (bindings : Bindings)
    (row : Int × Record) (number : Nat) (names : List String) :
    schema.project bindings row number (names.map .column) =
      names.map fun name => schema.columnValue name row := by
  induction names with
  | nil => rfl
  | cons name rest ih => exact congrArg _ ih

variable {table : Table} {index : Index} {indexed : String} {select : Select}
  {bindings : Bindings} {keyOf : Int × Record → List Value}

theorem columnIndex_lowercase (schema : TableSchema) {first second : String}
    (same : lowercase first = lowercase second) :
    schema.columnIndex first = schema.columnIndex second := by
  unfold lowercase at same
  simp [columnIndex, equalsIgnoreCase, same]

section Reading

variable (resolved : table.Resolved) (filled : table.Fills index keyOf)
  (found : table.findLeadingIndex indexed = some index)
include resolved filled found

theorem Table.Resolved.readMatched {row : Int × Record} (inside : row ∈ table.rows.entries)
    {name : String} (known : (table.schema.columnIndex name).isSome) :
    table.schema.readMatched indexed (keyOf row) row name = table.schema.columnValue name row := by
  obtain ⟨pos, here⟩ := Option.isSome_iff_exists.mp known
  obtain ⟨mem, column, leads, named⟩ := findLeadingIndex_inv found
  rw [TableSchema.readMatched, columnValue, here]
  dsimp only
  split
  swap
  · rfl
  rename_i indexes
  rw [Bool.and_eq_true, bne_iff_ne] at indexes
  have same : lowercase name = lowercase indexed := by
    simpa [equalsIgnoreCase, lowercase] using indexes.1
  -- The compared column is the leading one of the index, at this place in the table.
  have lead := resolved.lead filled inside mem leads
  rw [columnValue_lowercase table.schema (named.trans same.symm), columnValue, here] at lead
  have position : column.position = pos := by
    have first := resolved.keys index mem column (mem_of_head? leads)
    rw [columnIndex_lowercase table.schema (named.trans same.symm), here] at first
    exact (Option.some.inj first).symm
  rw [position, asRead] at lead
  refine Eq.trans ?_ lead
  split
  · rename_i real
    rw [if_pos ⟨indexes.2, real⟩]
  · rename_i other
    rw [if_neg fun both => other both.2]

theorem Table.Resolved.matchedValues (named : table.schema.NamesColumns select) (number : Nat)
    {row : Int × Record} (inside : row ∈ table.rows.entries) :
    table.schema.matchedValues bindings select indexed number (keyOf row) row =
      table.schema.project bindings row number select.columns := by
  unfold TableSchema.matchedValues
  cases bare : bareColumnNames select.columns with
  | none => rfl
  | some names =>
    have columns := bareColumnNames_map bare
    rw [columns, project_names]
    apply map_congr_left
    intro name mem
    apply resolved.readMatched filled found inside
    exact named name (by rw [columns]; exact mem_map_of_mem mem)

theorem Table.Resolved.emitMatched (named : table.schema.NamesColumns select) (number : Nat)
    {rows : List (Int × Record)} (inside : ∀ row ∈ rows, row ∈ table.rows.entries) :
    table.emitMatched bindings select indexed number (rows.map keyOf) =
      .ok (rows.map (table.answer bindings select number)) := by
  induction rows with
  | nil => rfl
  | cons row rest ih =>
    have here := inside row (.head _)
    rw [map_cons, Table.emitMatched, filled.fetch here,
      ih fun other mem => inside other (.tail _ mem)]
    change Except.ok ([(some (Value.integer row.1), _)] ++ _) = _
    rw [resolved.matchedValues filled found named number here]
    rfl

theorem Table.Resolved.emitParts (named : table.schema.NamesColumns select)
    {parts : List (Nat × List (Int × Record))}
    (inside : ∀ part ∈ parts, ∀ row ∈ part.2, row ∈ table.rows.entries) :
    table.emitParts bindings select indexed (parts.map fun part => (part.1, part.2.map keyOf)) =
      .ok (parts.flatMap fun part => part.2.map (table.answer bindings select part.1)) := by
  induction parts with
  | nil => rfl
  | cons part rest ih =>
    rw [map_cons, Table.emitParts, resolved.emitMatched filled found named part.1
      (inside part (.head _)), ih fun other mem => inside other (.tail _ mem)]
    rfl

theorem Table.Resolved.matchedRows_ok_iff {results : List (Option Value × List Value)}
    {parts : List (Nat × List (Int × Record))}
    (inside : ∀ part ∈ parts, ∀ row ∈ part.2, row ∈ table.rows.entries) :
    table.matchedRows bindings select indexed
        (parts.map fun part => (part.1, part.2.map keyOf)) = .ok results ↔
      table.schema.NamesColumns select ∧
        results = parts.flatMap fun part => part.2.map (table.answer bindings select part.1) := by
  constructor
  · intro done
    obtain ⟨⟨⟩, columns, done⟩ := bind_ok done
    have named : table.schema.NamesColumns select := (resolveColumns_ok_iff _ _).mp columns
    rw [resolved.emitParts filled found named inside] at done
    exact ⟨named, (Except.ok.inj done).symm⟩
  · rintro ⟨named, rfl⟩
    rw [Table.matchedRows, (resolveColumns_ok_iff _ _).mpr named]
    exact resolved.emitParts filled found named inside

end Reading

end Matched

section InList

def dropRepeatedLiterals : List Literal → List Atom → List Atom
  | _, [] => []
  | seen, .literal constant :: rest =>
    if constant ∈ seen then dropRepeatedLiterals seen rest
    else .literal constant :: dropRepeatedLiterals (constant :: seen) rest
  | seen, operand :: rest => operand :: dropRepeatedLiterals seen rest

def Table.inListPlan (table : Table) (select : Select) : Option (Index × String × List Atom) :=
  if select.distinct then none
  else match select.whereClause with
    | some (.inList expr list) =>
      if list.isEmpty then none
      else do
        let name ← expr.whereCol
        if list.all Atom.isSupportedOperand then
          let index ← table.findLeadingIndex name
          if list.all (Atom.matchesColumnAffinity (table.schema.declaredAffinity name)) then
            some (index, name, dropRepeatedLiterals [] list)
          else none
        else none
    | _ => none

def Table.inListSeek (table : Table) (search : IndexSearch) (bindings : Bindings)
    (select : Select) : Option (Except QueryError (List (Option Value × List Value))) :=
  (table.inListPlan select).map fun (index, name, operands) =>
    table.matchedRows bindings select name
      ((operandReads bindings select.columns 0 operands).map fun (value, number) =>
        (number, (search.seekEq index.entries value index.schema.leadingCollation).take 1))

variable {table : Table} {bindings : Bindings} {index : Index} {select : Select}
  {keyOf : Int × Record → List Value}

/-- Soundness of an IN-list seek: the result columns are the table's, a row that the
clause is true of meets an operand, no row meets two, of the rows that meet an
operand the clause is true of the one whose entry stands first, and of no other, and the
copy of the result list behind the operand shows that row as the scan does. -/
structure Table.InListSound (table : Table) (bindings : Bindings) (select : Select) (clause : Expr)
    (index : Index) (keyOf : Int × Record → List Value) (reads : List (Value × Nat)) : Prop where
  named : table.schema.NamesColumns select
  met : ∀ row ∈ table.rows.entries, table.satisfies bindings clause row = true →
    ∃ read ∈ reads, meets index.schema.leadingCollation read.1 (keyOf row) = true
  once : ∀ row ∈ table.rows.entries, reads.countP (fun read =>
    meets index.schema.leadingCollation read.1 (keyOf row)) ≤ 1
  first : ∀ read ∈ reads, ∀ row ∈ table.rows.entries,
    meets index.schema.leadingCollation read.1 (keyOf row) = true →
    (table.satisfies bindings clause row = true ↔
      index.entries.find? (meets index.schema.leadingCollation read.1) = some (keyOf row))
  shown : ∀ read ∈ reads, ∀ row ∈ table.rows.entries,
    meets index.schema.leadingCollation read.1 (keyOf row) = true →
    table.satisfies bindings clause row = true →
    table.schema.project bindings row read.2 select.columns =
      table.schema.project bindings row (select.scanNumber bindings) select.columns

variable {clause : Expr} {reads : List (Value × Nat)}

theorem Table.inListPlan_inv {name : String} {operands : List Atom}
    (taken : table.inListPlan select = some (index, name, operands)) :
    table.findLeadingIndex name = some index := by
  unfold inListPlan at taken
  split at taken
  · cases taken
  split at taken
  swap
  · cases taken
  split at taken
  · cases taken
  obtain ⟨column, -, taken⟩ := Option.bind_eq_some_iff.mp taken
  split at taken
  · obtain ⟨chosen, found, taken⟩ := Option.bind_eq_some_iff.mp taken
    split at taken
    · cases taken
      exact found
    · cases taken
  · cases taken

theorem Table.Fills.inj (filled : table.Fills index keyOf) {left right : Int × Record}
    (leftIn : left ∈ table.rows.entries) (rightIn : right ∈ table.rows.entries)
    (same : keyOf left = keyOf right) : left = right := by
  apply (filled.namesRow_iff leftIn rightIn).mp
  rw [same]
  exact (filled.namesRow_iff rightIn rightIn).mpr rfl

theorem Table.firsts_rows (search : IndexSearch) (ascends : index.Ascends)
    (filled : table.Fills index keyOf)
    {ordered : List (Int × Record)} (perm : ordered.Perm table.rows.entries)
    (entries : index.entries = ordered.map keyOf)
    (long : ∀ key ∈ index.entries, 1 < key.length) {value : Value}
    (places : index.Places index.schema.leadingCollation value) :
    (search.seekEq index.entries value index.schema.leadingCollation).take 1 =
      (ordered.filter fun row => index.entries.find? (meets index.schema.leadingCollation value) ==
        some (keyOf row)).map keyOf := by
  have first : (search.seekEq index.entries value index.schema.leadingCollation).take 1 =
      (index.entries.filter (meets index.schema.leadingCollation value)).take 1 := by
    have sought := ascends.seekEq search long places
    change _ = if index.entries.filter (meets index.schema.leadingCollation value) = [] then []
      else index.entries.filter (meets index.schema.leadingCollation value) ++ _ at sought
    rw [sought]
    cases index.entries.filter (meets index.schema.leadingCollation value) with
    | nil | cons => rfl
  rw [first, entries, filter_map, ← map_take, take_one_filter, find?_map]
  swap
  · exact perm.nodup_iff.mpr table.rows_nodup
  congr 1
  apply filter_congr
  intro row mem
  rw [Bool.eq_iff_iff, decide_eq_true_iff, beq_iff_eq, Option.map_eq_some_iff]
  constructor
  · exact fun hit => ⟨row, hit, rfl⟩
  rintro ⟨other, hit, same⟩
  have otherIn := perm.mem_iff.mp (mem_of_find?_eq_some hit)
  exact filled.inj otherIn (perm.mem_iff.mp mem) same ▸ hit

theorem Index.meets_alike {one other : Value}
    (placesOne : index.Places index.schema.leadingCollation one)
    (placesOther : index.Places index.schema.leadingCollation other) {key : List Value}
    (mem : key ∈ index.entries) (meetsOne : meets index.schema.leadingCollation one key = true)
    (meetsOther : meets index.schema.leadingCollation other key = true) :
    ∀ key ∈ index.entries, meets index.schema.leadingCollation one key =
      meets index.schema.leadingCollation other key := by
  rw [meets, beq_iff_eq, placesOne.eq_iff mem] at meetsOne
  rw [meets, beq_iff_eq, placesOther.eq_iff mem] at meetsOther
  intro another inside
  rw [Bool.eq_iff_iff, meets, meets, beq_iff_eq, beq_iff_eq, placesOne.eq_iff inside,
    placesOther.eq_iff inside, ← meetsOne, ← meetsOther]

theorem find?_congr {Item : Type} {one other : Item → Bool} {items : List Item}
    (same : ∀ item ∈ items, one item = other item) : items.find? one = items.find? other := by
  rw [← head?_filter, ← head?_filter, filter_congr same]

/-- The rows that the operands find are met once each exactly when the first three conditions
of soundness on them hold. -/
theorem Table.firsts_metOnce_iff (filled : table.Fills index keyOf)
    (places : ∀ read ∈ reads, index.Places index.schema.leadingCollation read.1) :
    MetOnce table.rows.entries reads (fun read row =>
        index.entries.find? (meets index.schema.leadingCollation read.1) == some (keyOf row))
        (table.satisfies bindings clause) ↔
      (∀ row ∈ table.rows.entries, table.satisfies bindings clause row = true →
        ∃ read ∈ reads, meets index.schema.leadingCollation read.1 (keyOf row) = true) ∧
      (∀ row ∈ table.rows.entries, reads.countP (fun read =>
        meets index.schema.leadingCollation read.1 (keyOf row)) ≤ 1) ∧
      ∀ read ∈ reads, ∀ row ∈ table.rows.entries,
        meets index.schema.leadingCollation read.1 (keyOf row) = true →
        (table.satisfies bindings clause row = true ↔
          index.entries.find? (meets index.schema.leadingCollation read.1) =
            some (keyOf row)) := by
  have alike : ∀ {one other : Value × Nat}, one ∈ reads → other ∈ reads →
      ∀ {row : Int × Record}, row ∈ table.rows.entries →
      meets index.schema.leadingCollation one.1 (keyOf row) = true →
      meets index.schema.leadingCollation other.1 (keyOf row) = true →
      index.entries.find? (meets index.schema.leadingCollation one.1) =
        index.entries.find? (meets index.schema.leadingCollation other.1) := by
    intro one other oneIn otherIn row mem meetsOne meetsOther
    exact find?_congr (Index.meets_alike (places one oneIn) (places other otherIn)
      (filled.mem mem) meetsOne meetsOther)
  rw [metOnce_iff]
  simp only [beq_iff_eq]
  constructor
  · rintro ⟨once, agrees⟩
    refine ⟨?_, ?_, ?_⟩
    · intro row mem holds
      obtain ⟨read, inside, found⟩ := (agrees row mem).mp holds
      exact ⟨read, inside, find?_some found⟩
    · intro row mem
      -- Operands that the row meets all find one row, which none but one of them may find.
      rcases Nat.eq_zero_or_pos (reads.countP fun read =>
        meets index.schema.leadingCollation read.1 (keyOf row)) with none | some
      · omega
      obtain ⟨read, inside, hit⟩ := countP_pos_iff.mp some
      obtain ⟨first, found⟩ := Option.isSome_iff_exists.mp
        (find?_isSome.mpr ⟨_, filled.mem mem, hit⟩)
      obtain ⟨origin, originIn, rfl⟩ := mem_map.mp
        (filled.entries.mem_iff.mp (mem_of_find?_eq_some found))
      refine le_trans (countP_mono_left ?_) (once origin originIn)
      intro other otherIn meetsOther
      rw [beq_iff_eq, ← alike inside otherIn mem hit meetsOther]
      exact found
    · intro read inside row mem hit
      constructor
      · intro holds
        obtain ⟨other, otherIn, found⟩ := (agrees row mem).mp holds
        rw [alike inside otherIn mem hit (find?_some found)]
        exact found
      · exact fun found => (agrees row mem).mpr ⟨read, inside, found⟩
  · rintro ⟨met, once, first⟩
    constructor
    · intro row mem
      refine le_trans (countP_mono_left ?_) (once row mem)
      intro read inside found
      exact find?_some (beq_iff_eq.mp found)
    · intro row mem
      constructor
      · intro holds
        obtain ⟨read, inside, hit⟩ := met row mem holds
        exact ⟨read, inside, (first read inside row mem hit).mp holds⟩
      · rintro ⟨read, inside, found⟩
        exact (first read inside row mem (find?_some found)).mpr found

end InList

/-- Where an IN-list seek is chosen, it returns what a full scan does exactly when it
is sound. -/
theorem in_list_seek_exact_iff (table : Table) (resolved : table.Resolved)
    (search : IndexSearch) (bindings : Bindings) (select : Select)
    (clause : Expr) (index : Index) (name : String) (operands : List Atom)
    (keyOf : Int × Record → List Value) (filled : table.Fills index keyOf)
    (filtered : select.whereClause = some clause)
    (taken : table.inListPlan select = some (index, name, operands)) (ascends : index.Ascends)
    (places : ∀ read ∈ operandReads bindings select.columns 0 operands,
      index.Places index.schema.leadingCollation read.1) :
    (∃ results, table.inListSeek search bindings select = some (.ok results) ∧
        results.Perm (table.scanAnswers bindings select)) ↔
      table.InListSound bindings select clause index keyOf
        (operandReads bindings select.columns 0 operands) := by
  have found := inListPlan_inv taken
  obtain ⟨member, column, leads, -⟩ := findLeadingIndex_inv found
  obtain ⟨ordered, perm, entries⟩ := filled.ordered
  have long := filled.long (ne_nil_of_mem (mem_of_head? leads))
  rw [inListSeek, taken, scanAnswers, fullScan, filtered]
  simp only [Option.map_some, Option.some.injEq]
  generalize operandReads bindings select.columns 0 operands = reads at places ⊢
  -- `take 1`: of the entries that meet a listed value only the first is followed to its row.
  let firsts := fun read : Value × Nat => ordered.filter fun row =>
    index.entries.find? (meets index.schema.leadingCollation read.1) == some (keyOf row)
  have inside : ∀ read ∈ reads, ∀ row ∈ firsts read, row ∈ table.rows.entries :=
    fun read _ row met => perm.mem_iff.mp (mem_filter.mp met).1
  have wanted : ∀ row ∈ table.rows.entries.filter (table.satisfies bindings clause),
      row ∈ table.rows.entries := fun row met => (mem_filter.mp met).1
  have parts : (reads.map fun read => (read.2,
      (search.seekEq index.entries read.1 index.schema.leadingCollation).take 1)) =
      (reads.map fun read => (read.2, firsts read)).map fun part =>
        (part.1, part.2.map keyOf) := by
    rw [map_map]
    apply map_congr_left
    intro read listed
    simp only [Function.comp_apply, Prod.mk.injEq, true_and]
    exact firsts_rows search ascends filled perm entries long (places read listed)
  have ran : ∀ results, table.matchedRows bindings select name (reads.map fun read => (read.2,
      (search.seekEq index.entries read.1 index.schema.leadingCollation).take 1)) = .ok results ↔
      table.schema.NamesColumns select ∧ results = reads.flatMap fun read =>
        (firsts read).map (table.answer bindings select read.2) := by
    intro results
    rw [parts, resolved.matchedRows_ok_iff filled found, flatMap_map]
    intro part listed
    obtain ⟨read, readIn, rfl⟩ := mem_map.mp listed
    exact inside read readIn
  have gathered : (reads.flatMap firsts).Perm _ ↔ _ :=
    (gathered_ordered_perm_iff table.rows_nodup perm reads (fun read row =>
      index.entries.find? (meets index.schema.leadingCollation read.1) == some (keyOf row))
      (table.satisfies bindings clause)).trans (firsts_metOnce_iff filled places)
  simp only [ran]
  constructor
  · rintro ⟨results, ⟨named, rfl⟩, same⟩
    obtain ⟨same, shown⟩ := (answers_perm_iff inside wanted).mp same
    obtain ⟨met, once, first⟩ := gathered.mp same
    refine ⟨named, met, once, first, fun read listed row mem hit holds => ?_⟩
    apply shown read listed row
    exact mem_filter.mpr ⟨perm.mem_iff.mpr mem,
      beq_iff_eq.mpr ((first read listed row mem hit).mp holds)⟩
  · intro sound
    have same := gathered.mpr ⟨sound.met, sound.once, sound.first⟩
    refine ⟨_, ⟨sound.named, rfl⟩, (answers_perm_iff inside wanted).mpr ⟨same, ?_⟩⟩
    intro read listed row met
    have holds := (mem_filter.mp (same.mem_iff.mp (mem_flatMap.mpr ⟨read, listed, met⟩))).2
    have hit := find?_some (beq_iff_eq.mp (mem_filter.mp met).2)
    exact sound.shown read listed row (inside read listed row met) hit holds

def inNumbers (list : List Int) : Expr :=
  .inList (.atom (.column "a")) (list.map fun number => .literal (.integer number))

/-- Two rows of one INTEGER column `a` with one value, and an index. -/
def indexedTwins : Table where
  schema := { name := "t", columns := [{ name := "a", declaredType := "INTEGER".toList }] }
  rows := ⟨[(1, [.integer 5]), (2, [.integer 5])], by decide⟩
  indexes := [⟨indexOnA, [[.integer 5, .integer 1], [.integer 5, .integer 2]]⟩]
  sequence := none

/-- `a IN (6, 5)` out of the index. -/
theorem listed_numbers_sought : ∃ results,
    indexedNumbers.inListSeek .onePage noBindings ⟨[.star], some (inNumbers [6, 5]), false⟩ =
      some (.ok results) ∧
    results.Perm (indexedNumbers.scanAnswers noBindings
      ⟨[.star], some (inNumbers [6, 5]), false⟩) := by
  apply (in_list_seek_exact_iff indexedNumbers indexedNumbers_resolved
    .onePage noBindings ⟨[.star], some (inNumbers [6, 5]), false⟩ _ numberIndex "a"
    [.literal (.integer 6), .literal (.integer 5)] _ indexedNumbers_fills rfl rfl
    numberIndex_ascends _).mpr
  · constructor
    · simp [NamesColumns]
    · decide +kernel
    · decide
    · decide +kernel
    · intro read _ row _ _ _
      rfl
  · intro read member
    rcases mem_pair.mp member with rfl | rfl
    all_goals exact numberIndex_places _

/-- `a IN (5)` is true of both rows, and the seek returns the first. -/
theorem second_twin_is_not_sought :
    indexedTwins.inListSeek .onePage noBindings ⟨[.star], some (inNumbers [5]), false⟩ =
        some (.ok [(some (.integer 1), [.integer 5])]) ∧
      indexedTwins.scanAnswers noBindings ⟨[.star], some (inNumbers [5]), false⟩ =
        [(some (.integer 1), [.integer 5]), (some (.integer 2), [.integer 5])] :=
  ⟨rfl, by decide +kernel⟩

end SqliteRs
