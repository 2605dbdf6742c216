import SqliteRs.IndexSeek
import SqliteRs.JoinedSelect
import SqliteRs.OuterJoins

/-!
Point lookups in the inner loop of a join, and in scalar and EXISTS subqueries. A single
equality between a column of the inner table and something that is known before the loop
starts is replaced by a seek of the rowid or of a UNIQUE index. The equality itself is not
tested again, so the seek has to find exactly the rows that it is true of. In a join the
probe goes to the seek whatever it is; the subqueries test it for NULL first. A transient
index gathers the rowids of the inner table under the encoded value of the joined column.
There the condition is tested again, so rows can only be lost: those whose column equals
the probe in SQL but is encoded in another way.
-/

namespace SqliteRs

open List Option Table

abbrev JoinCondition := ExprTree SimpleOperator Empty

section Choice

def topLevelEqualityOperands : JoinCondition → Option (JoinCondition × JoinCondition)
  | .node (.compare .eq) [lhs, rhs] => some (lhs, rhs)
  | _ => none

def columnBelongsToBinding (binding : TableBinding) (table : Option String) (name : String) : Bool :=
  table.all binding.matchesQualifier && (binding.schema.columnIndex name).isSome

/-- A literal, a parameter, or a column of a table that already stands on a row. -/
def exprIsSafeJoinProbe (prior : List TableBinding) : JoinCondition → Bool
  | .literal _ | .param _ => true
  | .column _ table name => prior.any fun binding => columnBelongsToBinding binding table name
  | _ => false

def ownColumn (binding : TableBinding) : JoinCondition → Option String
  | .column _ table name => if columnBelongsToBinding binding table name then some name else none
  | _ => none

def probeSides (binding : TableBinding) (prior : List TableBinding) (condition : JoinCondition) :
    Option (String × JoinCondition) := do
  let (lhs, rhs) ← topLevelEqualityOperands condition
  let sides ← match ownColumn binding lhs with
    | some name => some (name, rhs)
    | none => (ownColumn binding rhs).map (·, lhs)
  if exprIsSafeJoinProbe prior sides.2 then some sides else none

inductive JoinAccess where
  | rowid (operand : JoinCondition)
  | uniqueIndex (index : Index) (operand : JoinCondition)

def JoinAccess.operand : JoinAccess → JoinCondition
  | .rowid operand | .uniqueIndex _ operand => operand

def Table.uniqueIndexOn (table : Table) (name : String) : Option Index :=
  table.indexes.find? fun index => index.schema.unique && index.schema.columns.length == 1 &&
    index.schema.leading.any fun column => equalsIgnoreCase column.name name

def chooseJoinAccess (table : Table) (affordable : IndexSchema → Bool) (binding : TableBinding)
    (prior : List TableBinding) (condition : JoinCondition) : Option JoinAccess := do
  let (name, operand) ← probeSides binding prior condition
  if binding.schema.isRowidReferenceName name then some (.rowid operand)
  else
    let index ← table.uniqueIndexOn name
    if affordable index.schema then some (.uniqueIndex index operand) else none

end Choice

/-- Where a lookup stands. A join level has the other tables of its FROM clause before and
after its own, some of them already on a row. A subquery has the tables of the query
around it. -/
inductive ProbeSite where
  | level (aliasName : Option String) (name : String) (before after prior : List TableBinding)
      (scope : Slots TableRow)
  | subquery (outer : List TableBinding) (scope : Slots TableRow)

namespace ProbeSite

section Code

variable (table : Table) (site : ProbeSite) (param : Nat → Value)

def binding : TableBinding := match site with
  | .level aliasName name _ _ _ _ => ⟨aliasName, name, table.schema⟩
  | .subquery _ _ => ⟨none, table.schema.name, table.schema⟩

def prior : List TableBinding := match site with
  | .level _ _ _ _ prior _ => prior
  | .subquery outer _ => outer

def probeNames : Environment ComparedValue := match site with
  | .level _ _ before after _ scope =>
    scopeEnvironment (before ++ site.binding table :: after) (simpleLanguage param) scope
  | .subquery outer scope => scopeEnvironment outer (simpleLanguage param) scope

/-- Names as a test of one row resolves them. A subquery's own table hides those around it. -/
def rowNames (row : TableRow) : Environment ComparedValue := match site with
  | .level _ _ before after _ scope =>
    scopeEnvironment (before ++ site.binding table :: after) (simpleLanguage param)
      (Function.update scope before.length (some row))
  | .subquery outer scope => fun qualifier name =>
    if (resolveOwnBindingIndex [site.binding table] qualifier name).isSome then
      scopeEnvironment [site.binding table] (simpleLanguage param) (fun _ => some row)
        qualifier name
    else scopeEnvironment outer (simpleLanguage param) scope qualifier name

def testsNull : Bool := match site with
  | .level _ _ _ _ _ _ => false
  | .subquery _ _ => true

variable (number : Nat)

def probe (access : JoinAccess) : Value :=
  (access.operand.value (simpleLanguage param) (site.probeNames table param) number).value

def lookup (search : IndexSearch) (access : JoinAccess) : Except QueryError (List TableRow) :=
  let value := site.probe table param number access
  if site.testsNull ∧ value = .null then .ok []
  else match access with
    | .rowid _ => table.seekRowid value
    | .uniqueIndex index _ => table.fetchAll
        ((search.seekEq index.entries value index.schema.leadingCollation).take 1)

def isTrueOf (condition : JoinCondition) (row : TableRow) : Bool :=
  condition.isTrue (simpleLanguage param) (site.rowNames table param row) number

def scan (condition : JoinCondition) : List TableRow :=
  table.rows.entries.filter (site.isTrueOf table param number condition)

/-- The seek alone finds a row: by its rowid, or by the first entry of the index whose key
equals the probe as it stands. -/
def finds (access : JoinAccess) (row : TableRow) : Bool :=
  let value := site.probe table param number access
  match access with
  | .rowid _ => value == .integer row.1
  | .uniqueIndex index _ =>
    (index.entries.find? (meets index.schema.leadingCollation value)).any (namesRow row)

/-- A lookup is sound when a rowid is sought by an integer, and the condition is true of
exactly the rows that the seek finds. A probe that is tested for NULL first finds none. -/
structure Sound (condition : JoinCondition) (access : JoinAccess) : Prop where
  integer : ∀ operand, access = .rowid operand →
    (∃ rowid, site.probe table param number access = .integer rowid) ∨
      (site.testsNull = true ∧ site.probe table param number access = .null)
  agrees : ∀ row ∈ table.rows.entries,
    site.isTrueOf table param number condition row =
      (!(site.testsNull && site.probe table param number access == .null) &&
        site.finds table param number access row)

end Code

section Exactness

variable {table : Table} {site : ProbeSite} {param : Nat → Value} {number : Nat}
  {condition : JoinCondition} {access : JoinAccess}

variable {affordable : IndexSchema → Bool} {operand : JoinCondition} {search : IndexSearch}
  {rows : List TableRow}

theorem chooseJoinAccess_index {binding : TableBinding} {prior : List TableBinding} {index : Index}
    (taken : chooseJoinAccess table affordable binding prior condition =
      some (.uniqueIndex index operand)) : index.schema.columns ≠ [] := by
  rcases bind_eq_some_iff.mp taken with ⟨⟨name, other⟩, _, rest⟩
  dsimp only at rest
  split at rest
  · cases rest
  rcases bind_eq_some_iff.mp rest with ⟨found, located, kept⟩
  split at kept
  swap
  · cases kept
  cases kept
  intro empty
  have single := List.find?_some located
  simp [empty] at single

theorem found_names_row {index : Index} {keyOf : TableRow → List Value}
    (filled : table.Fills index keyOf) (test : List Value → Bool) {row : TableRow}
    (inside : row ∈ table.rows.entries) :
    (index.entries.find? test == some (keyOf row)) =
      (index.entries.find? test).any (namesRow row) := by
  cases found : index.entries.find? test with
  | none => rfl
  | some key =>
    obtain ⟨origin, originIn, rfl⟩ := mem_map.mp
      (filled.entries.mem_iff.mp (mem_of_find?_eq_some found))
    rw [Bool.eq_iff_iff, beq_iff_eq, Option.some.injEq, Option.any_some,
      filled.namesRow_iff originIn inside]
    constructor
    · exact filled.inj originIn inside
    · rintro rfl
      rfl

theorem lookup_rows (search : IndexSearch)
    (asked : ¬ (site.testsNull = true ∧ site.probe table param number access = .null))
    (integer : ∀ operand, access = .rowid operand →
      ∃ rowid, site.probe table param number access = .integer rowid)
    (searchable : ∀ index operand, access = .uniqueIndex index operand →
      index.schema.columns ≠ [] ∧ (∃ keyOf, table.Fills index keyOf) ∧ index.Ascends ∧
        index.Places index.schema.leadingCollation (site.probe table param number access)) :
    ∃ ordered : List TableRow, ordered.Perm table.rows.entries ∧
      site.lookup table param number search access =
        .ok (ordered.filter (site.finds table param number access)) := by
  unfold lookup
  rw [if_neg asked]
  cases access with
  | rowid operand =>
    rcases integer operand rfl with ⟨rowid, same⟩
    refine ⟨table.rows.entries, .refl _, ?_⟩
    rw [same, seekRowid_integer]
    unfold Table.named finds
    rw [same]
  | uniqueIndex index operand =>
    rcases searchable index operand rfl with ⟨leading, ⟨keyOf, filled⟩, ascends, places⟩
    rcases filled.ordered with ⟨ordered, perm, entries⟩
    refine ⟨ordered, perm, ?_⟩
    dsimp only
    rw [firsts_rows search ascends filled perm entries (filled.long leading) places,
      filled.fetchAll fun row inside => perm.mem_iff.mp (mem_filter.mp inside).1]
    congr 1
    apply filter_congr
    intro row inside
    exact found_names_row filled _ (perm.mem_iff.mp inside)

theorem sound_skipped_iff
    (skipped : site.testsNull = true ∧ site.probe table param number access = .null) :
    site.Sound table param number condition access ↔
      ∀ row ∈ table.rows.entries, site.isTrueOf table param number condition row = false := by
  have mute : (!(site.testsNull && site.probe table param number access == .null)) = false := by
    simp [skipped]
  constructor
  · intro sound row mem
    rw [sound.agrees row mem, mute, Bool.false_and]
  intro untrue
  constructor
  · intro operand _
    exact .inr skipped
  · intro row mem
    rw [untrue row mem, mute, Bool.false_and]

theorem sound_asked_iff
    (asked : ¬ (site.testsNull = true ∧ site.probe table param number access = .null)) :
    site.Sound table param number condition access ↔ (∀ operand, access = .rowid operand →
        ∃ rowid, site.probe table param number access = .integer rowid) ∧
      ∀ row ∈ table.rows.entries, site.finds table param number access row =
        site.isTrueOf table param number condition row := by
  have runs : (!(site.testsNull && site.probe table param number access == .null)) = true := by
    cases tested : site.testsNull with
    | false => rfl
    | true => simpa [tested] using asked
  constructor
  · intro sound
    constructor
    · intro operand isRowid
      exact (sound.integer operand isRowid).resolve_right asked
    · intro row mem
      rw [sound.agrees row mem, runs, Bool.true_and]
  · rintro ⟨integer, agrees⟩
    constructor
    · exact fun operand isRowid => .inl (integer operand isRowid)
    · intro row mem
      rw [runs, Bool.true_and, agrees row mem]

theorem seekRowid_fails {value : Value} (other : ∀ rowid, value ≠ .integer rowid) :
    table.seekRowid value = .error .rowidNotInteger := by
  cases value with
  | integer rowid => exact absurd rfl (other rowid)
  | _ => rfl

theorem lookup_integer
    (asked : ¬ (site.testsNull = true ∧ site.probe table param number access = .null))
    (ran : site.lookup table param number search access = .ok rows) (operand : JoinCondition)
    (isRowid : access = .rowid operand) :
    ∃ rowid, site.probe table param number access = .integer rowid := by
  by_contra other
  have fails : site.lookup table param number search access = .error .rowidNotInteger := by
    subst isRowid
    exact (if_neg asked).trans (seekRowid_fails (not_exists.mp other))
  rw [fails] at ran
  cases ran

section

variable
    (taken : chooseJoinAccess table affordable (site.binding table) site.prior condition = some access)
    (searchable : ∀ index operand, access = .uniqueIndex index operand →
      (∃ keyOf, table.Fills index keyOf) ∧ index.Ascends ∧
        index.Places index.schema.leadingCollation (site.probe table param number access))
include taken searchable

theorem searched_index
    (index : Index) (operand : JoinCondition) (same : access = .uniqueIndex index operand) :
    index.schema.columns ≠ [] ∧ (∃ keyOf, table.Fills index keyOf) ∧ index.Ascends ∧
      index.Places index.schema.leadingCollation (site.probe table param number access) :=
  ⟨chooseJoinAccess_index (same ▸ taken), searchable index operand same⟩

theorem Sound.lookup (search : IndexSearch)
    (sound : site.Sound table param number condition access) :
    ∃ rows, site.lookup table param number search access = .ok rows ∧
      rows.Perm (site.scan table param number condition) := by
  by_cases skipped : site.testsNull = true ∧ site.probe table param number access = .null
  · have untrue := (sound_skipped_iff skipped).mp sound
    have nothing : site.scan table param number condition = [] :=
      filter_eq_nil_iff.mpr fun row mem => Bool.eq_false_iff.mp (untrue row mem)
    exact ⟨[], if_pos skipped, .of_eq nothing.symm⟩
  · rcases (sound_asked_iff skipped).mp sound with ⟨integer, agrees⟩
    rcases lookup_rows search skipped integer (searched_index taken searchable) with
      ⟨ordered, perm, found⟩
    refine ⟨_, found, (filters_perm_iff perm _ _).mpr ?_⟩
    intro row mem
    exact agrees row (perm.mem_iff.mp mem)

end

theorem lookup_short (ran : site.lookup table param number search access = .ok rows) :
    rows.length ≤ 1 := by
  unfold lookup at ran
  dsimp only at ran
  split at ran
  · cases ran
    exact Nat.zero_le _
  cases access with
  | rowid operand =>
    dsimp only at ran
    unfold Table.seekRowid at ran
    split at ran
    · cases ran
      exact length_toList_le
    · cases ran
  | uniqueIndex index operand =>
    dsimp only at ran
    generalize search.seekEq _ _ _ = keys at ran
    rcases keys with _ | ⟨key, rest⟩
    · cases ran
      exact Nat.zero_le _
    rw [take_succ_cons, Table.fetchAll, Table.fetch] at ran
    cases named : entryRowid key with
    | error error =>
      rw [named] at ran
      cases ran
    | ok rowid =>
      rw [named] at ran
      cases ran
      rw [append_nil]
      exact length_toList_le

end Exactness

section Example

/-- The column `id` of this table is its rowid. -/
def keyedTable (rows : OrderedMap Int Record) : Table where
  schema := { name := "b", rowidAlias := some 0,
              columns := [{ name := "id", declaredType := "INTEGER".toList }] }
  rows := rows
  indexes := []
  sequence := none

/-- `a JOIN b ON b.id = a.x`, at the inner loop, with `a` on a row of the given value. -/
def besideRow (value : Value) : ProbeSite :=
  .level none "b" [JoinedSelect.oneColumn "a" "x"] [] [JoinedSelect.oneColumn "a" "x"]
    fun table => if table = 0 then some (1, [value]) else none

def idEqualsX : JoinCondition :=
  JoinedSelect.columnEquals "b" "id" (.column none (some "a") "x")

def oneRow : OrderedMap Int Record := ⟨[(1, [.null])], by decide⟩

/-- A UNIQUE index on the column `y`. -/
def indexOnY : Index :=
  ⟨{ name := "i", columns := [{ name := "y", position := 0, collation := .binary }], unique := true },
    [[.integer 5, .integer 1], [.integer 6, .integer 2]]⟩

def uniqueTable : Table where
  schema := { name := "b", columns := [{ name := "y", declaredType := "INTEGER".toList }] }
  rows := twoNumbers.rows
  indexes := [indexOnY]
  sequence := none

def yEqualsX : JoinCondition :=
  JoinedSelect.columnEquals "b" "y" (.column none (some "a") "x")

end Example

end ProbeSite

end SqliteRs

namespace SqliteRs

open List

section MultiMap

variable {Key : Type} [DecidableEq Key]

/-- `AutoIndexInsert`: a further rowid under a key. -/
def autoIndexInsert (entries : Key → List Int) (key : Key) (rowid : Int) : Key → List Int :=
  fun other => if other = key then entries other ++ [rowid] else entries other

def buildAutoIndex (keyOf : TableRow → Key) (rows : List TableRow) : Key → List Int :=
  rows.foldl (fun entries row => autoIndexInsert entries (keyOf row) row.1) fun _ => []

variable (keyOf : TableRow → Key) (rows : List TableRow)

theorem foldl_autoIndexInsert (entries : Key → List Int) (key : Key) :
    rows.foldl (fun entries row => autoIndexInsert entries (keyOf row) row.1) entries key =
      entries key ++ (rows.filter fun row => key = keyOf row).map Prod.fst := by
  induction rows generalizing entries with
  | nil => simp
  | cons row rest ih =>
    rw [foldl_cons, ih]
    by_cases same : key = keyOf row
    all_goals simp [autoIndexInsert, same]

theorem buildAutoIndex_eq (key : Key) :
    buildAutoIndex keyOf rows key = (rows.filter fun row => key = keyOf row).map Prod.fst :=
  foldl_autoIndexInsert keyOf rows (fun _ => []) key

end MultiMap

/-- A value as the keys of ephemeral indexes have it: folded for its collation. The records of
two values differ where the values do (`encodeRecordInto_inj`), so that 1 and 1.0 have two
keys. -/
def encodedKey (collation : Collation) : Value → Value
  | .text chars => .text (collation.fold chars)
  | value => value

structure AutoIndexProbe where
  operand : JoinCondition
  keyColumn : Nat

def chooseAutoIndexProbe (worthwhile : Bool) (binding : TableBinding) (prior : List TableBinding)
    (condition : JoinCondition) : Option AutoIndexProbe :=
  if worthwhile then do
    let (name, operand) ← probeSides binding prior condition
    let keyColumn ← binding.schema.columnIndex name
    some ⟨operand, keyColumn⟩
  else none

/-- A join level with an automatic index: its table, its name in the FROM clause, the other
tables of it, and the parameter count at which the level is compiled. -/
structure AutoIndexLevel where
  table : Table
  aliasName : Option String := none
  name : String
  before : List TableBinding
  after : List TableBinding
  prior : List TableBinding
  param : Nat → Value
  number : Nat := 0

namespace AutoIndexLevel

section Code

variable (level : AutoIndexLevel) (probe : AutoIndexProbe) (condition : JoinCondition)

def site (scope : Slots TableRow) : ProbeSite :=
  .level level.aliasName level.name level.before level.after level.prior scope

def binding : TableBinding := ⟨level.aliasName, level.name, level.table.schema⟩

def keyCollation : Collation :=
  ((level.table.schema.columns[probe.keyColumn]?).map Column.collation).getD .binary

def keyOf (row : TableRow) : Value :=
  encodedKey (level.keyCollation probe)
    (level.table.schema.readColumn row.1 row.2 probe.keyColumn)

def probeKey (scope : Slots TableRow) : Value :=
  encodedKey (level.keyCollation probe)
    (probe.operand.value (simpleLanguage level.param)
      ((level.site scope).probeNames level.table level.param) level.number).value

def isTrueAt (number : Nat) (scope : Slots TableRow) (row : TableRow) : Bool :=
  (level.site scope).isTrueOf level.table level.param number condition row

def testedAt : Nat := probe.operand.after (simpleLanguage level.param) level.number

def rows (scope : Slots TableRow) : List TableRow :=
  ((buildAutoIndex (level.keyOf probe) level.table.rows.entries (level.probeKey probe scope)).flatMap
    fun rowid => ((level.table.rows.get rowid).map fun record => (rowid, record)).toList).filter
      (level.isTrueAt condition (level.testedAt probe) scope)

def joined (scopes : List (Slots TableRow)) : List (Slots TableRow × TableRow) :=
  scopes.flatMap fun scope => (level.rows probe condition scope).map (scope, ·)

def nestedLoop (scopes : List (Slots TableRow)) : List (Slots TableRow × TableRow) :=
  scopes.flatMap fun scope =>
    (level.table.rows.entries.filter (level.isTrueAt condition level.number scope)).map (scope, ·)

end Code

section Exactness

variable {level : AutoIndexLevel} {probe : AutoIndexProbe} {condition : JoinCondition}

theorem fetched_rows (rows : List TableRow) (inside : ∀ row ∈ rows, row ∈ level.table.rows.entries) :
    ((rows.map Prod.fst).flatMap fun rowid =>
      ((level.table.rows.get rowid).map fun record => (rowid, record)).toList) = rows := by
  induction rows with
  | nil => rfl
  | cons row rest ih =>
    have found := (level.table.mem_entries_iff row).mp (inside row (.head _))
    rw [map_cons, flatMap_cons, found, ih fun other mem => inside other (.tail _ mem)]
    rfl

theorem rows_eq (scope : Slots TableRow) :
    level.rows probe condition scope = level.table.rows.entries.filter fun row =>
      decide (level.probeKey probe scope = level.keyOf probe row) &&
        level.isTrueAt condition (level.testedAt probe) scope row := by
  unfold rows
  rw [buildAutoIndex_eq, fetched_rows _ fun row mem => (mem_filter.mp mem).1, filter_filter]
  apply filter_congr
  intro row _
  exact Bool.and_comm _ _

variable (level) in
def allPairs (scopes : List (Slots TableRow)) : List (Slots TableRow × TableRow) :=
  scopes.flatMap fun scope => level.table.rows.entries.map (scope, ·)

theorem pairs_filter (scopes : List (Slots TableRow)) (keep : Slots TableRow → TableRow → Bool) :
    (scopes.flatMap fun scope => (level.table.rows.entries.filter (keep scope)).map (scope, ·)) =
      (level.allPairs scopes).filter fun pair => keep pair.1 pair.2 := by
  unfold allPairs
  rw [filter_flatMap]
  apply flatMap_congr
  intro scope _
  rw [filter_map]
  rfl

theorem forall_allPairs {scopes : List (Slots TableRow)} {holds : Slots TableRow → TableRow → Prop} :
    (∀ pair ∈ level.allPairs scopes, holds pair.1 pair.2) ↔
      ∀ scope ∈ scopes, ∀ row ∈ level.table.rows.entries, holds scope row := by
  unfold allPairs
  simp only [mem_flatMap, mem_map]
  constructor
  · intro all scope mem row inside
    exact all (scope, row) ⟨scope, mem, row, inside, rfl⟩
  · rintro all pair ⟨scope, mem, row, inside, rfl⟩
    exact all scope mem row inside

/-- A join through an automatic index gives the pairs of the nested loop exactly when on
every pair the condition is only true with equal keys, and the test behind the probe then
answers as the condition does. -/
theorem joined_exact_iff (level : AutoIndexLevel) (probe : AutoIndexProbe)
    (condition : JoinCondition) (scopes : List (Slots TableRow)) :
    (level.joined probe condition scopes).Perm (level.nestedLoop condition scopes) ↔
      ∀ scope ∈ scopes, ∀ row ∈ level.table.rows.entries,
        (level.isTrueAt condition level.number scope row = true →
          level.probeKey probe scope = level.keyOf probe row) ∧
        (level.probeKey probe scope = level.keyOf probe row →
          level.isTrueAt condition (level.testedAt probe) scope row =
            level.isTrueAt condition level.number scope row) := by
  unfold joined nestedLoop
  simp only [rows_eq]
  rw [pairs_filter, pairs_filter, filters_perm_iff (.refl _), ← forall_allPairs]
  apply forall₂_congr
  rintro ⟨scope, row⟩ _
  by_cases same : level.probeKey probe scope = level.keyOf probe row
  · rw [decide_eq_true same]
    constructor
    · exact fun agrees => ⟨fun _ => same, fun _ => agrees⟩
    · exact fun exact => exact.2 same
  rw [decide_eq_false same]
  constructor
  · intro untrue
    constructor
    · intro isTrue
      cases untrue.trans isTrue
    · exact fun equal => absurd equal same
  · rintro ⟨keyed, _⟩
    exact (Bool.eq_false_iff.mpr fun isTrue => same (keyed isTrue)).symm

end Exactness

section Example

/-- `a JOIN b ON a.x = b.y` at the loop over `b`, which has one row with the real 1.0. -/
def besideReal : AutoIndexLevel where
  table :=
    { schema := { name := "b", columns := [{ name := "y", declaredType := [] }] }
      rows := ⟨[(1, [.real (.finite 1)])], by decide⟩
      indexes := []
      sequence := none }
  name := "b"
  before := [JoinedSelect.oneColumn "a" "x"]
  after := []
  prior := [JoinedSelect.oneColumn "a" "x"]
  param := fun _ => .null

def xEqualsY : JoinCondition := JoinedSelect.columnEquals "a" "x" (.column none (some "b") "y")

def probeByX : AutoIndexProbe := ⟨.column none (some "a") "x", 0⟩

def rowOfA (value : Value) : Slots TableRow := fun table =>
  if table = 0 then some (1, [value]) else none

/-- The integer 1 equals 1.0, but is encoded in another way: the pair is lost. -/
theorem integer_misses_equal_real :
    chooseAutoIndexProbe true besideReal.binding besideReal.prior xEqualsY = some probeByX ∧
      ¬ (besideReal.joined probeByX xEqualsY [rowOfA (.integer 1)]).Perm
        (besideReal.nestedLoop xEqualsY [rowOfA (.integer 1)]) := by
  constructor
  · rfl
  intro same
  have lost : (besideReal.joined probeByX xEqualsY [rowOfA (.integer 1)]).length = 0 := by
    decide +kernel
  have wanted : (besideReal.nestedLoop xEqualsY [rowOfA (.integer 1)]).length = 1 := by
    decide +kernel
  have lengths := same.length_eq
  omega

end Example

end AutoIndexLevel

end SqliteRs
