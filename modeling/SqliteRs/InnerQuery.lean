import SqliteRs.IndexAggregate
import SqliteRs.JoinProbe

/-!
Subqueries in expressions. EXISTS and scalar subqueries compile their inner SELECT on
their own, as a scan of its table under its WHERE clause or as a point lookup; a scalar
subquery with an aggregate reads a count or a sum out of an index, where it can, or uses the
grouping of the top level. No other clause is read. Beside the code stands what the inner
SELECT returns when it is run alone, and the theorem says for which subqueries the two agree.
-/

namespace SqliteRs

open List

/-- The groups of a SELECT. An aggregate without GROUP BY makes one group of all rows, also
of none; groups of keys are never empty. -/
inductive Grouping where
  | plain
  | whole
  | keyed (aggregate : Bool) (groups : List TableRow → List (List TableRow))
      (nonempty : ∀ rows, groups rows = [] ↔ rows = [])

def Grouping.hasAggregate : Grouping → Bool
  | .plain => false
  | .whole => true
  | .keyed aggregate _ _ => aggregate

/-- Conditions beyond the operators that point lookups read are tests of a row. -/
inductive InnerWhere where
  | absent
  | test (passes : TableRow → Bool)
  | simple (condition : JoinCondition)

/-- A result list that is one aggregate call, of the kinds that an index can answer alone. -/
inductive SoleAggregate where
  | countStar
  | sum (function : SumFunction) (name : String)

/-- An inner SELECT at one row of the query around it. `path` is the order in which it reads
its rows when it is run alone, `unique` leaves the first of rows that are equal under the
collations of the columns, and an arm of a compound is `(true, rows)` after UNION ALL. -/
structure InnerSelect where
  hasFrom : Bool
  table : Table
  outer : List TableBinding
  scope : Slots TableRow
  param : Nat → Value
  lossy : Bytes → List Char
  number : Nat
  affordable : IndexSchema → Bool
  search : IndexSearch
  path : List TableRow → List TableRow
  path_perm : ∀ rows, (path rows).Perm rows
  whereClause : InnerWhere
  columns : TableRow → Record
  grouping : Grouping
  sole : Option SoleAggregate
  having : Option (List TableRow → Bool)
  groupColumns : List TableRow → Record
  distinct : Bool
  unique : List Record → List Record
  unique_first : ∀ rows, (unique rows).head? = rows.head?
  arms : List (Bool × List Record)
  orderBy : Option { sort : List Record → List Record // ∀ rows, (sort rows).Perm rows }
  limit : Option (Option Nat × Nat)

inductive SubqueryError where
  | noFrom
  | orderOrLimit
  | query (error : QueryError)
deriving DecidableEq

namespace InnerSelect

def firstOf (rows : List Record) : Value := (rows.headD []).headD .null

section Code

variable (select : InnerSelect)

def site : ProbeSite := .subquery select.outer select.scope

def passes (row : TableRow) : Bool := match select.whereClause with
  | .absent => true
  | .test passes => passes row
  | .simple condition =>
    select.site.isTrueOf select.table select.param select.number condition row

def kept : List TableRow :=
  (if select.hasFrom then select.table.rows.entries else [(0, [])]).filter select.passes

def seekAccess : Option (JoinCondition × JoinAccess) := match select.whereClause with
  | .simple condition =>
    (chooseJoinAccess select.table select.affordable (select.site.binding select.table)
      select.site.prior condition).map fun access => (condition, access)
  | _ => none

def visited : Except QueryError (List TableRow) := match select.seekAccess with
  | some (_, access) =>
    select.site.lookup select.table select.param select.number select.search access
  | none => .ok select.kept

def compileExists (negated : Bool) : Except SubqueryError Bool :=
  if select.hasFrom then match select.visited with
    | .ok rows => .ok (!rows.isEmpty != negated)
    | .error error => .error (.query error)
  else .error .noFrom

/-- The groups that the grouped scan of a scalar subquery flushes. It is told that the group
is implicit, so that it flushes one also when there is no row. -/
def flushed : List (List TableRow) := match select.grouping with
  | .keyed _ groups _ => if select.kept = [] then [[]] else groups select.kept
  | _ => [select.kept]

def passesHaving (group : List TableRow) : Bool := select.having.all fun test => test group

/-- `column = operand`, under whatever table the column is named. -/
def countProbe (table : Table) (condition : JoinCondition) : Option (Index × JoinCondition) := do
  let (lhs, rhs) ← topLevelEqualityOperands condition
  let (name, operand) ← match lhs, rhs with
    | .column _ _ name, other | other, .column _ _ name => some (name, other)
    | _, _ => none
  let index ← table.findLeadingIndex name
  match operand with
    | .literal (.integer _) | .param .anonymous | .param (.numbered _) => some (index, operand)
    | _ => none

/-- What an index answers alone: a count, without a look at GROUP BY, or a sum. -/
def indexOnly : Option (Except QueryError Value) :=
  if select.having.isSome then none
  else match select.sole, select.whereClause, select.grouping with
    | some .countStar, .absent, _ => some (.ok (.integer select.table.rows.entries.length))
    | some .countStar, .simple condition, _ =>
      (countProbe select.table condition).map fun (index, operand) =>
        let value := (operand.value (simpleLanguage select.param)
          (select.site.probeNames select.table select.param) select.number).value
        .ok (.integer
          (select.search.probe index.entries index.schema.leadingCollation value).length)
    | some (.sum function name), .absent, .whole =>
      select.table.indexOnlySum ⟨select.param, select.lossy⟩ function name
    | _, _, _ => none

def compileScalarSubquery : Except SubqueryError Value :=
  if select.orderBy.isSome ∨ select.limit.isSome then .error .orderOrLimit
  else if select.hasFrom = false then match select.whereClause, select.grouping.hasAggregate with
    | .absent, false => .ok (firstOf [select.columns (0, [])])
    | _, _ => .error .noFrom
  else if select.grouping.hasAggregate then match select.indexOnly with
    | some (.ok value) => .ok value
    | some (.error error) => .error (.query error)
    | none =>
      -- Every flushed group is copied over the value of the one before.
      .ok ((select.flushed.filter select.passesHaving).foldl
        (fun _ group => firstOf [select.groupColumns group]) .null)
  else match select.visited with
    | .ok rows => .ok (firstOf (rows.map select.columns))
    | .error error => .error (.query error)

end Code

section Alone

variable (select : InnerSelect)

def grouped : List Record := match select.grouping with
  | .plain => (select.path select.kept).map select.columns
  | .whole => ([select.kept].filter select.passesHaving).map select.groupColumns
  | .keyed _ groups _ => ((groups select.kept).filter select.passesHaving).map select.groupColumns

def core : List Record :=
  if select.distinct then select.unique select.grouped else select.grouped

def armRows : List Record := select.arms.flatMap Prod.snd

/-- The rows before ORDER BY and LIMIT. One UNION leaves no row twice. -/
def standing : List Record :=
  let rows := select.core ++ select.armRows
  if select.arms.any fun arm => !arm.1 then select.unique rows else rows

def ordered : List Record := match select.orderBy with
  | none => select.standing
  | some order => order.1 select.standing

def alone : List Record := match select.limit with
  | none => select.ordered
  | some (none, offset) => select.ordered.drop offset
  | some (some limit, offset) => (select.ordered.drop offset).take limit

end Alone

section Rows

variable {select : InnerSelect}

/-- A point lookup that is taken finds the rows that its condition is true of, as a lookup of a
join level does when it is sound. -/
def LookupSound (select : InnerSelect) : Prop :=
  ∀ condition access, select.seekAccess = some (condition, access) →
    select.hasFrom = true ∧
    (∀ index operand, access = .uniqueIndex index operand →
      (∃ keyOf, select.table.Fills index keyOf) ∧ index.Ascends ∧
        index.Places index.schema.leadingCollation
          (select.site.probe select.table select.param select.number access)) ∧
    select.site.Sound select.table select.param select.number condition access

theorem visited_kept (lookups : select.LookupSound) : select.visited = .ok select.kept := by
  unfold visited
  cases sought : select.seekAccess with
  | none => rfl
  | some found =>
    rcases found with ⟨cond, access⟩
    rcases lookups cond access sought with ⟨hasFrom, searchable, sound⟩
    unfold seekAccess at sought
    split at sought
    swap
    · cases sought
    rename_i other clause
    rcases Option.map_eq_some_iff.mp sought with ⟨_, taken, same⟩
    cases same
    rcases sound.lookup taken searchable select.search with ⟨rows, ran, perm⟩
    have scanned : select.kept = select.site.scan select.table select.param select.number cond := by
      unfold kept ProbeSite.scan
      rw [if_pos hasFrom]
      apply filter_congr
      intro row _
      rw [passes, clause]
    rw [scanned]
    -- A lookup gives at most one row, so that the order is the same too.
    rcases rows with _ | ⟨row, _ | ⟨next, rest⟩⟩
    · rw [perm.symm.eq_nil]
      exact ran
    · rw [← singleton_perm.mp perm]
      exact ran
    · exact absurd (ProbeSite.lookup_short ran) (by simp)

theorem unique_nil_iff {rows : List Record} : select.unique rows = [] ↔ rows = [] := by
  rw [← head?_eq_none_iff, select.unique_first, head?_eq_none_iff]

theorem firstOf_unique (rows : List Record) : firstOf (select.unique rows) = firstOf rows := by
  simp only [firstOf, headD_eq_head?_getD, select.unique_first]

theorem core_nil_iff : select.core = [] ↔ select.grouped = [] := by
  unfold core
  split
  · exact unique_nil_iff
  · rfl

theorem firstOf_core : firstOf select.core = firstOf select.grouped := by
  unfold core
  split
  · exact firstOf_unique _
  · rfl

theorem standing_nil_iff : select.standing = [] ↔ select.core = [] ∧ select.armRows = [] := by
  unfold standing
  split <;> simp [unique_nil_iff]

def Leaves (select : InnerSelect) : Prop := match select.limit with
  | none => True
  | some (limit, offset) => limit ≠ some 0 ∧ offset < select.standing.length

theorem alone_nil_iff : select.alone ≠ [] ↔ select.standing ≠ [] ∧ select.Leaves := by
  have perm : select.ordered.Perm select.standing := by
    unfold ordered
    split
    · exact .refl _
    · rename_i order _
      exact order.2 _
  unfold alone Leaves
  rw [← length_pos_iff, ← length_pos_iff, ← perm.length_eq]
  rcases select.limit with _ | ⟨_ | limit, off⟩
  · simp
  · simp only [length_drop, ne_eq, reduceCtorEq, not_false_eq_true, true_and]
    omega
  · simp only [length_take, length_drop, ne_eq, Option.some.injEq]
    omega

def GroupStands (select : InnerSelect) : Prop := match select.grouping with
  | .plain => True
  | .whole => select.passesHaving select.kept = true
  | .keyed _ groups _ => ∃ group ∈ groups select.kept, select.passesHaving group = true

theorem path_nil_iff : select.path select.kept = [] ↔ select.kept = [] := by
  rw [← length_eq_zero_iff, (select.path_perm _).length_eq, length_eq_zero_iff]

theorem grouped_nil_iff : select.grouped = [] ↔
    if select.kept = [] then select.grouping = .whole → select.passesHaving [] = false
    else ¬ select.GroupStands := by
  unfold grouped GroupStands
  cases select.grouping with
  | plain =>
    simp only [map_eq_nil_iff, path_nil_iff]
    by_cases empty : select.kept = [] <;> simp
  | whole => by_cases empty : select.kept = [] <;> simp [empty]
  | keyed aggregate groups nonempty =>
    by_cases empty : select.kept = []
    · simp [empty, (nonempty []).mpr rfl]
    · simp [empty]

/-- When EXISTS says what the inner SELECT run alone does. Where WHERE is true of no row, no
aggregate and no arm makes one that LIMIT leaves; where it is true of some row, LIMIT leaves a
row, and some group passes HAVING or an arm has a row. -/
def ExistsAgrees (select : InnerSelect) : Prop :=
  if select.kept = [] then
    select.Leaves → (select.grouping = .whole → select.passesHaving [] = false) ∧ select.armRows = []
  else select.Leaves ∧ (select.GroupStands ∨ select.armRows ≠ [])

theorem exists_agrees_iff : (select.kept ≠ [] ↔ select.alone ≠ []) ↔ select.ExistsAgrees := by
  rw [alone_nil_iff, ne_eq, ne_eq, standing_nil_iff, core_nil_iff, grouped_nil_iff, ExistsAgrees]
  by_cases empty : select.kept = []
  · simp only [empty, if_true]
    tauto
  · simp only [empty, if_false]
    tauto

/-- The first value that the inner SELECT returns alone: of a group, a row or an arm. -/
def firstAlone (select : InnerSelect) : Value :=
  if select.grouped = [] then firstOf select.armRows else firstOf select.grouped

/-- When a scalar subquery has the value of the first row that the inner SELECT returns alone.
A count or a sum out of an index is that value. Without groups, rows read alone begin with the
same value, or there are none and no arm begins with another value than NULL. With GROUP BY,
the last group that passes HAVING has the value of the first one, or the first row of the scan
has it where there is no aggregate. -/
def ScalarAgrees (select : InnerSelect) : Prop := match select.grouping, select.indexOnly with
  | .plain, _ =>
    if select.kept = [] then firstOf select.armRows = .null
    else firstOf ((select.path select.kept).map select.columns) =
      firstOf (select.kept.map select.columns)
  | .keyed false groups _, _ =>
    let passing := (groups select.kept).filter select.passesHaving
    (if passing = [] then firstOf select.armRows
      else firstOf (passing.map select.groupColumns)) = firstOf (select.kept.map select.columns)
  | _, some answer => answer = .ok select.firstAlone
  | .whole, none => select.passesHaving select.kept = true ∨ firstOf select.armRows = .null
  | .keyed true groups _, none =>
    let passing := (groups select.kept).filter select.passesHaving
    (if passing = [] then firstOf select.armRows
      else firstOf (passing.map select.groupColumns)) =
      if select.kept = [] then
        if select.passesHaving [] then firstOf [select.groupColumns []] else .null
      else firstOf ((passing.getLast?.map select.groupColumns).toList)

theorem firstOf_alone (unordered : select.orderBy = none) (unlimited : select.limit = none) :
    firstOf select.alone = select.firstAlone := by
  have stands : firstOf select.alone = firstOf (select.core ++ select.armRows) := by
    unfold alone ordered standing
    rw [unlimited, unordered]
    dsimp only
    split
    · exact firstOf_unique _
    · rfl
  rw [stands, firstAlone, ← firstOf_core, ← if_congr core_nil_iff rfl rfl]
  cases select.core <;> rfl

/-- The value of a scalar subquery that reads no index alone. -/
def scanned (select : InnerSelect) : Value :=
  if select.grouping.hasAggregate then
    firstOf (((select.flushed.filter select.passesHaving).getLast?.map select.groupColumns).toList)
  else firstOf (select.kept.map select.columns)

theorem compileScalarSubquery_eq (lookups : select.LookupSound)
    (unordered : select.orderBy = none) (unlimited : select.limit = none)
    (fromLess : select.hasFrom = false →
      select.whereClause = .absent ∧ select.grouping.hasAggregate = false) :
    select.compileScalarSubquery = match select.grouping.hasAggregate, select.indexOnly with
      | true, some answer => answer.mapError .query
      | _, _ => .ok select.scanned := by
  have overwrites : ∀ (groups : List (List TableRow)) (start : Value),
      groups.foldl (fun _ group => firstOf [select.groupColumns group]) start =
        (groups.getLast?.map fun group => firstOf [select.groupColumns group]).getD start := by
    intro groups start
    rcases eq_nil_or_concat groups with rfl | ⟨before, last, rfl⟩
    · rfl
    · simp
  unfold compileScalarSubquery scanned
  rw [if_neg (by simp [unordered, unlimited])]
  by_cases noFrom : select.hasFrom = false
  · rcases fromLess noFrom with ⟨absent, plain⟩
    have one : select.kept = [(0, [])] := by simp [kept, noFrom, passes, absent]
    simp [noFrom, absent, plain, one]
  rw [if_neg noFrom, visited_kept lookups]
  cases aggregate : select.grouping.hasAggregate with
  | false => rfl
  | true =>
    rcases select.indexOnly with _ | (error | value)
    · simp only [if_true, overwrites]
      cases (select.flushed.filter select.passesHaving).getLast? <;> rfl
    · rfl
    · rfl

theorem scalar_agrees_iff :
    (match select.grouping.hasAggregate, select.indexOnly with
      | true, some answer => answer.mapError SubqueryError.query
      | _, _ => .ok select.scanned) = .ok select.firstAlone ↔ select.ScalarAgrees := by
  have read : ∀ (answer : Except QueryError Value) (wanted : Value),
      answer.mapError SubqueryError.query = .ok wanted ↔ answer = .ok wanted := by
    rintro (error | value) wanted <;> simp [Except.mapError]
  unfold ScalarAgrees scanned firstAlone grouped flushed
  cases select.grouping with
  | plain =>
    simp only [Grouping.hasAggregate, Bool.false_eq_true, if_false, map_eq_nil_iff, path_nil_iff,
      Except.ok.injEq]
    by_cases empty : select.kept = []
    · simp [empty, firstOf, eq_comm]
    · simp [empty, eq_comm]
  | whole =>
    rcases select.indexOnly with _ | answer
    · cases stands : select.passesHaving select.kept <;>
        simp [Grouping.hasAggregate, stands, firstOf, eq_comm]
    · exact read answer _
  | keyed aggregate groups nonempty =>
    cases aggregate with
    | false =>
      simp only [Grouping.hasAggregate, Bool.false_eq_true, if_false, Except.ok.injEq,
        map_eq_nil_iff]
      exact eq_comm
    | true =>
      rcases select.indexOnly with _ | answer
      · simp only [Grouping.hasAggregate, if_true, Except.ok.injEq, map_eq_nil_iff]
        rw [eq_comm]
        by_cases empty : select.kept = []
        · cases stands : select.passesHaving [] <;> simp [empty, stands, firstOf]
        · simp [empty]
      · exact read answer _

end Rows

section Example

/-- `SELECT id FROM b`, where `b` has one row. -/
def oneId : InnerSelect where
  hasFrom := true
  table := ProbeSite.keyedTable ProbeSite.oneRow
  outer := []
  scope := fun _ => none
  param := fun _ => .null
  lossy := fun _ => []
  number := 0
  affordable := fun _ => true
  search := .onePage
  path := id
  path_perm := fun _ => .refl _
  whereClause := .absent
  columns := fun row => [.integer row.1]
  grouping := .plain
  sole := none
  having := none
  groupColumns := fun rows => [.integer rows.length]
  distinct := false
  unique := List.eraseDups
  unique_first rows := by cases rows <;> simp [eraseDups_cons]
  arms := []
  orderBy := none
  limit := none

/-- `SELECT count(*) FROM t WHERE a = 6`, where the index on `a` is read alone. -/
def countOfSix : InnerSelect :=
  { oneId with
    table := indexedNumbers
    whereClause := .simple
      (JoinedSelect.columnEquals "t" "a" (.literal (.integer 6)))
    grouping := .whole
    sole := some .countStar }

end Example

end InnerSelect

end SqliteRs
