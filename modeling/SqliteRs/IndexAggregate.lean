import SqliteRs.IndexSeek

/-!
COUNT, SUM and AVG out of an index alone. A count under `column = operand` is the
number of entries that a probe meets; a sum folds the leading columns of all
entries as they are stored, in key order where a scan of the table goes by rowid.
-/

namespace SqliteRs

open List SqliteRs.Expr Table

section Counting

def comparedColumn (lhs rhs : Expr) : Option (String × Expr) :=
  match lhs.whereCol, rhs.whereCol with
  | some name, _ => some (name, rhs)
  | none, some name => some (name, lhs)
  | none, none => none

def Table.countPlan (table : Table) (clause : Expr) : Option (Index × String × Atom) := do
  let (lhs, rhs) ← clause.equalityOperands
  let (name, side) ← comparedColumn lhs rhs
  let operand ← side.seekOperand
  let index ← table.findLeadingIndex name
  return (index, name, operand)

/-- `SELECT count(*)` out of the table's leaf pages or an index, where it is chosen. -/
def Table.indexOnlyCount (table : Table) (search : IndexSearch) (bindings : Bindings) :
    Option Expr → Option Nat
  | none => some table.rows.entries.length
  | some clause => (table.countPlan clause).map fun (index, _, operand) =>
    (search.probe index.entries index.schema.leadingCollation (operand.read bindings 0).1).length

def Table.scanCount (table : Table) (bindings : Bindings) (clause : Option Expr) : Nat :=
  (table.fullScan bindings ⟨[], clause, false⟩).length

end Counting

section Summing

def numericArg (lossy : Bytes → List Char) : Value → Option Value
  | .null => none
  | .integer number => some (.integer number)
  | .real number => some (.real number)
  | .text chars => some (coerceTextToNumeric chars)
  | .blob bytes => some (coerceTextToNumeric (lossy bytes))

/-- The accumulator of SUM and AVG: whole until a real argument is met. -/
structure Totals where
  intTotal : Int := 0
  realTotal : Binary64 := .finite 0
  sawReal : Bool := false
  count : Nat := 0
deriving DecidableEq, Repr

def Totals.step (lossy : Bytes → List Char) (totals : Totals) (value : Value) : Totals :=
  match numericArg lossy value with
  | some (.integer number) =>
    if totals.sawReal then
      { totals with
        realTotal := totals.realTotal.add (.ofInt number)
        count := totals.count + 1 }
    else { totals with intTotal := totals.intTotal + number, count := totals.count + 1 }
  | some (.real number) =>
    if totals.sawReal then
      { totals with realTotal := totals.realTotal.add number, count := totals.count + 1 }
    else
      { intTotal := 0
        realTotal := (totals.realTotal.add (.ofInt totals.intTotal)).add number
        sawReal := true
        count := totals.count + 1 }
  | _ => totals

inductive SumFunction where
  | sum
  | avg
deriving DecidableEq, Repr

def Totals.finalize (totals : Totals) : SumFunction → Except QueryError Value
  | .sum =>
    if totals.count = 0 then .ok .null
    else if totals.sawReal then .ok (.real (totals.realTotal.add (.ofInt totals.intTotal)))
    else if -(2 ^ 63) ≤ totals.intTotal ∧ totals.intTotal < 2 ^ 63 then
      .ok (.integer totals.intTotal)
    else .error .integerOverflow
  | .avg =>
    if totals.count = 0 then .ok .null
    else if totals.sawReal then
      .ok (.real ((totals.realTotal.add (.ofInt totals.intTotal)).divideBy totals.count))
    else .ok (.real ((Binary64.ofInt totals.intTotal).divideBy totals.count))

def totalsOf (lossy : Bytes → List Char) (values : List Value) : Totals :=
  values.foldl (Totals.step lossy) {}

def sumValues (lossy : Bytes → List Char) (function : SumFunction) (values : List Value) :
    Except QueryError Value :=
  (totalsOf lossy values).finalize function

def Table.indexOnlySum (table : Table) (bindings : Bindings) (function : SumFunction)
    (name : String) : Option (Except QueryError Value) :=
  (table.findLeadingIndex name).map fun index =>
    sumValues bindings.lossy function (index.entries.map leadingValue)

def Table.scanSum (table : Table) (bindings : Bindings) (function : SumFunction) (name : String) :
    Except QueryError Value :=
  sumValues bindings.lossy function
    (table.rows.entries.map fun row => table.schema.columnValue name row)

end Summing

section Folds

variable {lossy : Bytes → List Char}

def isRealArg (lossy : Bytes → List Char) (value : Value) : Bool :=
  match numericArg lossy value with
  | some (.real _) => true
  | _ => false

def wholePart (lossy : Bytes → List Char) (value : Value) : Int :=
  match numericArg lossy value with
  | some (.integer number) => number
  | _ => 0

theorem coerceTextToNumeric_number (chars : List Char) :
    (∃ number, coerceTextToNumeric chars = .integer number) ∨
      ∃ number, coerceTextToNumeric chars = .real number := by
  unfold coerceTextToNumeric
  split
  · exact .inl ⟨_, rfl⟩
  · dsimp only
    split
    · split
      · exact .inr ⟨_, rfl⟩
      · exact .inl ⟨_, rfl⟩
    · split
      · exact .inl ⟨_, rfl⟩
      · split
        · exact .inr ⟨_, rfl⟩
        · exact .inl ⟨_, rfl⟩

/-- Every value but NULL is an argument, whole or real. -/
theorem numericArg_cases (lossy : Bytes → List Char) {value : Value} (known : value ≠ .null) :
    (∃ number, numericArg lossy value = some (.integer number)) ∨
      ∃ number, numericArg lossy value = some (.real number) := by
  cases value with
  | null => exact absurd rfl known
  | integer number => exact .inl ⟨number, rfl⟩
  | real number => exact .inr ⟨number, rfl⟩
  | text chars =>
    rcases coerceTextToNumeric_number chars with ⟨number, same⟩ | ⟨number, same⟩
    · exact .inl ⟨number, congrArg some same⟩
    · exact .inr ⟨number, congrArg some same⟩
  | blob bytes =>
    rcases coerceTextToNumeric_number (lossy bytes) with ⟨number, same⟩ | ⟨number, same⟩
    · exact .inl ⟨number, congrArg some same⟩
    · exact .inr ⟨number, congrArg some same⟩

theorem step_kind (lossy : Bytes → List Char) (totals : Totals) (value : Value) :
    (totals.step lossy value).sawReal = (totals.sawReal || isRealArg lossy value) ∧
      (totals.step lossy value).count = totals.count + if value = .null then 0 else 1 := by
  by_cases null : value = .null
  · subst null
    simp [Totals.step, numericArg, isRealArg]
  · rcases numericArg_cases lossy null with ⟨number, argument⟩ | ⟨number, argument⟩
    all_goals
      unfold Totals.step isRealArg
      rw [argument]
      dsimp only
      split <;> simp_all

theorem foldl_kind (lossy : Bytes → List Char) (values : List Value) (totals : Totals) :
    (values.foldl (Totals.step lossy) totals).sawReal =
        (totals.sawReal || values.any (isRealArg lossy)) ∧
      (values.foldl (Totals.step lossy) totals).count =
        totals.count + values.countP (· ≠ .null) := by
  induction values generalizing totals with
  | nil => simp
  | cons value rest ih =>
    obtain ⟨saw, count⟩ := ih (totals.step lossy value)
    obtain ⟨here, one⟩ := step_kind lossy totals value
    rw [foldl_cons, saw, count, here, one, any_cons, countP_cons, Bool.or_assoc]
    refine ⟨rfl, ?_⟩
    by_cases null : value = .null
    · simp [null]
    · simp only [null, if_false, ne_eq, not_false_iff, decide_true, if_true]
      omega

/-- Arguments that are all whole add up to their sum, in any order. -/
theorem foldl_whole {values : List Value} (whole : values.any (isRealArg lossy) = false)
    {totals : Totals} (exact : totals.sawReal = false) :
    (values.foldl (Totals.step lossy) totals).intTotal =
        totals.intTotal + (values.map (wholePart lossy)).sum ∧
      (values.foldl (Totals.step lossy) totals).realTotal = totals.realTotal := by
  induction values generalizing totals with
  | nil => simp
  | cons value rest ih =>
    rw [any_cons, Bool.or_eq_false_iff] at whole
    have stepped : (totals.step lossy value).intTotal =
          totals.intTotal + wholePart lossy value ∧
        (totals.step lossy value).realTotal = totals.realTotal := by
      by_cases null : value = .null
      · subst null
        simp [Totals.step, numericArg, wholePart]
      rcases numericArg_cases lossy null with ⟨number, argument⟩ | ⟨number, argument⟩
      · simp [Totals.step, wholePart, argument, exact]
      · simp [isRealArg, argument] at whole
    have saw : (totals.step lossy value).sawReal = false := by
      rw [(step_kind lossy totals value).1, exact, whole.1]
      rfl
    obtain ⟨total, real⟩ := ih whole.2 saw
    rw [foldl_cons, total, real, stepped.1, stepped.2, map_cons, sum_cons]
    exact ⟨by ring, rfl⟩

theorem sumValues_perm {values others : List Value} (perm : values.Perm others)
    (whole : others.any (isRealArg lossy) = false) (function : SumFunction) :
    sumValues lossy function values = sumValues lossy function others := by
  have first : values.any (isRealArg lossy) = false := by rw [perm.any_eq, whole]
  have same : totalsOf lossy values = totalsOf lossy others := by
    obtain ⟨saw, count⟩ := foldl_kind lossy values {}
    obtain ⟨sawOther, countOther⟩ := foldl_kind lossy others {}
    obtain ⟨total, real⟩ := @foldl_whole lossy _ first {} rfl
    obtain ⟨totalOther, realOther⟩ := @foldl_whole lossy _ whole {} rfl
    rw [totalsOf, totalsOf, Totals.mk.injEq, total, totalOther, real, realOther, saw, sawOther,
      count, countOther, (perm.map (wholePart lossy)).sum_eq, perm.countP_eq, first, whole]
    exact ⟨rfl, rfl, rfl, rfl⟩
  rw [sumValues, sumValues, same]

/-- The double that a sum or an average with a real argument comes to. -/
def Totals.outcome (totals : Totals) : SumFunction → Binary64
  | .sum => totals.realTotal.add (.ofInt totals.intTotal)
  | .avg =>
    if totals.sawReal then (totals.realTotal.add (.ofInt totals.intTotal)).divideBy totals.count
    else (Binary64.ofInt totals.intTotal).divideBy totals.count

theorem Totals.finalize_real {totals : Totals} {function : SumFunction} (some : totals.count ≠ 0)
    (real : function = .sum → totals.sawReal = true) :
    totals.finalize function = .ok (.real (totals.outcome function)) := by
  cases function with
  | sum => simp [finalize, outcome, some, real rfl]
  | avg =>
    simp only [finalize, outcome, some, if_false]
    split <;> rfl

theorem Totals.finalize_whole {totals : Totals} (some : totals.count ≠ 0)
    (whole : totals.sawReal = false) (number : Binary64) :
    totals.finalize .sum ≠ .ok (.real number) := by
  simp only [finalize, some, whole, if_false, Bool.false_eq_true]
  split <;> simp

end Folds

section Stored

variable {lossy : Bytes → List Char} {schema : TableSchema} {pos : Nat}

theorem isRealArg_forced {number : Value} (rank : valueRank number = 1) :
    isRealArg lossy (forceReal number) = true := by
  cases number with
  | integer | real => rfl
  | _ => cases rank

/-- A value that is not real as it is read is stored as it is read. -/
theorem asRead_whole {stored : Value} (whole : isRealArg lossy (schema.asRead pos stored) = false) :
    schema.asRead pos stored = stored := by
  unfold TableSchema.asRead at whole ⊢
  split at whole
  swap
  · rename_i other
    rw [if_neg other]
  rename_i real
  rw [if_pos real]
  cases stored with
  | text chars =>
    cases parsed : parseWellFormedNumber chars with
    | none => simp [applyAffinity, textToNumber, parsed, forceReal]
    | some number =>
      have forced := @isRealArg_forced lossy _ (parseWellFormedNumber_rank chars number parsed)
      simp [applyAffinity, textToNumber, parsed, forced] at whole
  | integer => cases whole
  | null | real | blob => rfl

end Stored

section Counted

variable {table : Table} {bindings : Bindings} {clause : Expr} {index : Index} {name : String}
  {operand : Atom} {keyOf : Int × Record → List Value}

/-- Soundness of a count out of an index: a NULL operand meets no entry, and as many rows hold
the operand's raw value without the clause being true of them as the clause is true of without
their holding it. -/
structure Table.CountSound (table : Table) (bindings : Bindings) (clause : Expr) (index : Index)
    (keyOf : Int × Record → List Value) (value : Value) : Prop where
  nulls : value = .null → ∀ row ∈ table.rows.entries, leadingValue (keyOf row) ≠ .null
  balanced : value ≠ .null →
    (table.rows.entries.countP fun row => meets index.schema.leadingCollation value (keyOf row) &&
        !table.satisfies bindings clause row) =
      table.rows.entries.countP fun row => table.satisfies bindings clause row &&
        !meets index.schema.leadingCollation value (keyOf row)

theorem whereCol_inv {expr : Expr} (col : expr.whereCol = some name) : expr = .atom (.column name) := by
  unfold whereCol at col
  split at col
  · cases col
    rfl
  · cases col

theorem comparedColumn_inv {lhs rhs side : Expr}
    (compared : comparedColumn lhs rhs = some (name, side)) :
    (lhs = .atom (.column name) ∧ side = rhs) ∨ (rhs = .atom (.column name) ∧ side = lhs) := by
  unfold comparedColumn at compared
  split at compared
  · rename_i col
    cases compared
    exact .inl ⟨whereCol_inv col, rfl⟩
  · rename_i _ col
    cases compared
    exact .inr ⟨whereCol_inv col, rfl⟩
  · cases compared

/-- Nothing is equal to NULL. -/
theorem Table.countPlan_inv (taken : table.countPlan clause = some (index, name, operand)) :
    table.findLeadingIndex name = some index ∧ ((operand.read bindings 0).1 = .null →
      ∀ row, table.satisfies bindings clause row = false) := by
  obtain ⟨⟨lhs, rhs⟩, equality, taken⟩ := Option.bind_eq_some_iff.mp taken
  obtain ⟨⟨col, side⟩, compared, taken⟩ := Option.bind_eq_some_iff.mp taken
  obtain ⟨atom, operandOf, taken⟩ := Option.bind_eq_some_iff.mp taken
  obtain ⟨chosen, found, taken⟩ := Option.bind_eq_some_iff.mp taken
  cases taken
  refine ⟨found, fun null row => ?_⟩
  obtain rfl : clause = .compare .eq lhs rhs := by
    unfold equalityOperands at equality
    split at equality <;> cases equality
    rfl
  obtain ⟨rfl, -, -, evaluated⟩ := seekOperand_eq table bindings operandOf
  have value : ∀ row, (operand.eval table.schema bindings row 0).1 = .null := by
    intro row
    rw [evaluated]
    exact null
  rcases comparedColumn_inv compared with ⟨rfl, rfl⟩ | ⟨rfl, rfl⟩
  all_goals simp [satisfies, Expr.isTrue, compareWith, compareJump, value]

theorem countP_eq_iff {Item : Type} (items : List Item) (one other : Item → Bool) :
    items.countP one = items.countP other ↔
      (items.countP fun item => one item && !other item) =
        items.countP fun item => other item && !one item := by
  have split : ∀ left right : Item → Bool, items.countP left =
      (items.countP fun item => left item && right item) +
        items.countP fun item => left item && !right item := by
    intro left right
    induction items with
    | nil => rfl
    | cons item rest ih =>
      simp only [countP_cons, ih]
      cases left item <;> cases right item <;> simp <;> omega
  have first := split one other
  have second := split other one
  simp only [Bool.and_comm (other _) (one _)] at second
  omega

theorem Table.count_exact_iff (filled : table.Fills index keyOf)
    (search : IndexSearch) (taken : table.countPlan clause = some (index, name, operand))
    (ascends : index.Ascends)
    (places : index.Places index.schema.leadingCollation (operand.read bindings 0).1) :
    table.indexOnlyCount search bindings (some clause) = some (table.scanCount bindings (some clause)) ↔
      table.CountSound bindings clause index keyOf (operand.read bindings 0).1 := by
  obtain ⟨found, unknown⟩ := @countPlan_inv _ bindings _ _ _ _ taken
  obtain ⟨mem, col, leads, -⟩ := findLeadingIndex_inv found
  obtain ⟨ordered, perm, entries⟩ := filled.ordered
  have long := filled.long (ne_nil_of_mem (mem_of_head? leads))
  have probed := ascends.probe search long places
  rw [indexOnlyCount, taken]
  simp only [Option.map_some, Option.some.injEq, scanCount, fullScan]
  generalize (operand.read bindings 0).1 = value at *
  have matching : (index.entries.filter (meets index.schema.leadingCollation value)).length =
      table.rows.entries.countP fun row =>
        meets index.schema.leadingCollation value (keyOf row) := by
    rw [entries, filter_map, length_map, ← countP_eq_length_filter]
    exact perm.countP_eq _
  rw [probed, ← countP_eq_length_filter]
  by_cases null : value = .null
  · -- Nothing equals NULL, so an entry with a NULL in front is one too many.
    have nothing : table.rows.entries.countP (table.satisfies bindings clause) = 0 :=
      countP_eq_zero.mpr fun row _ => by simp [unknown null row]
    rw [if_pos null, nothing, length_take, matching]
    constructor
    · intro none
      have empty : (table.rows.entries.countP fun row =>
          meets index.schema.leadingCollation value (keyOf row)) = 0 := by omega
      refine ⟨fun _ row inside isNull => ?_, fun known => absurd null known⟩
      apply countP_eq_zero.mp empty row inside
      rw [null]
      exact meets_null.mpr isNull
    · intro sound
      have empty : (table.rows.entries.countP fun row =>
          meets index.schema.leadingCollation value (keyOf row)) = 0 := by
        apply countP_eq_zero.mpr
        intro row inside hit
        rw [null] at hit
        exact sound.nulls null row inside (meets_null.mp hit)
      omega
  · rw [if_neg null, matching, countP_eq_iff]
    constructor
    · exact fun balanced => ⟨fun isNull => absurd isNull null, fun _ => balanced⟩
    · exact fun sound => sound.balanced null

end Counted

section Summed

variable {table : Table} {bindings : Bindings} {index : Index} {name : String}
  {keyOf : Int × Record → List Value}

/-- Soundness of a sum out of an index: where a row's argument is real, some entry holds a real
(SQLite may have written whole numbers as integers), and the additions in key order come to the
double that they come to in the order of the table. -/
structure Table.SumSound (table : Table) (bindings : Bindings) (function : SumFunction)
    (name : String) (index : Index) : Prop where
  kinds : function = .sum →
    (∃ row ∈ table.rows.entries,
      isRealArg bindings.lossy (table.schema.columnValue name row) = true) →
    ∃ key ∈ index.entries, isRealArg bindings.lossy (leadingValue key) = true
  rounded : (∃ row ∈ table.rows.entries,
      isRealArg bindings.lossy (table.schema.columnValue name row) = true) →
    (totalsOf bindings.lossy (index.entries.map leadingValue)).outcome function =
      (totalsOf bindings.lossy
        (table.rows.entries.map fun row => table.schema.columnValue name row)).outcome function

theorem Table.sum_exact_iff (resolved : table.Resolved) (filled : table.Fills index keyOf)
    (found : table.findLeadingIndex name = some index) (function : SumFunction) :
    table.indexOnlySum bindings function name = some (table.scanSum bindings function name) ↔
      table.SumSound bindings function name index := by
  obtain ⟨mem, column, leads, named⟩ := findLeadingIndex_inv found
  obtain ⟨ordered, perm, entries⟩ := filled.ordered
  have lead : ∀ row ∈ table.rows.entries,
      table.schema.asRead column.position (leadingValue (keyOf row)) =
        table.schema.columnValue name row := by
    intro row inside
    rw [resolved.lead filled inside mem leads, columnValue_lowercase table.schema named]
  rw [indexOnlySum, found, Option.map_some, Option.some.injEq, scanSum]
  have reals : (table.rows.entries.map fun row => table.schema.columnValue name row).any
      (isRealArg bindings.lossy) = true ↔ ∃ row ∈ table.rows.entries,
        isRealArg bindings.lossy (table.schema.columnValue name row) = true := by
    simp [any_map]
  have storedReals : (index.entries.map leadingValue).any (isRealArg bindings.lossy) = true ↔
      ∃ key ∈ index.entries, isRealArg bindings.lossy (leadingValue key) = true := by
    simp [any_map]
  by_cases real : ∃ row ∈ table.rows.entries,
      isRealArg bindings.lossy (table.schema.columnValue name row) = true
  swap
  · -- Without a real argument the entries hold what is read, and the order does not matter.
    have whole : ∀ row ∈ table.rows.entries,
        isRealArg bindings.lossy (table.schema.columnValue name row) = false := by
      simpa using real
    have stored : index.entries.map leadingValue =
        ordered.map fun row => table.schema.columnValue name row := by
      rw [entries, map_map]
      apply map_congr_left
      intro row inside
      have here := perm.mem_iff.mp inside
      have same := lead row here
      rw [asRead_whole (by rw [same]; exact whole row here)] at same
      exact same
    refine iff_of_true ?_ ⟨fun _ some => absurd some real, fun some => absurd some real⟩
    rw [stored]
    exact sumValues_perm (perm.map _) (Bool.eq_false_iff.mpr fun some => real (reals.mp some))
      function
  obtain ⟨saw, count⟩ := foldl_kind bindings.lossy
    (table.rows.entries.map fun row => table.schema.columnValue name row) {}
  obtain ⟨sawStored, countStored⟩ := foldl_kind bindings.lossy
    (index.entries.map leadingValue) {}
  have nonempty : (table.rows.entries.map fun row => table.schema.columnValue name row).countP
      (· ≠ .null) ≠ 0 := by
    obtain ⟨row, inside, isReal⟩ := real
    apply ne_of_gt
    apply countP_pos_iff.mpr
    refine ⟨_, mem_map_of_mem inside, decide_eq_true ?_⟩
    intro null
    rw [null] at isReal
    cases isReal
  have counts : (index.entries.map leadingValue).countP (· ≠ .null) =
      (table.rows.entries.map fun row => table.schema.columnValue name row).countP
        (· ≠ .null) := by
    rw [entries, map_map, countP_map, countP_map, ← perm.countP_eq]
    apply countP_congr
    intro row inside
    have here := perm.mem_iff.mp inside
    simp only [Function.comp_apply, decide_eq_true_eq, ← lead row here, ne_eq,
      TableSchema.asRead_null]
  have scanned : sumValues bindings.lossy function
      (table.rows.entries.map fun row => table.schema.columnValue name row) = .ok (.real
        ((totalsOf bindings.lossy (table.rows.entries.map fun row =>
          table.schema.columnValue name row)).outcome function)) := by
    apply Totals.finalize_real
    · rw [totalsOf, count]
      simpa using nonempty
    · intro _
      rw [totalsOf, saw, reals.mpr real]
      rfl
  have some : (totalsOf bindings.lossy (index.entries.map leadingValue)).count ≠ 0 := by
    rw [totalsOf, countStored, counts]
    simpa using nonempty
  by_cases kinds : function = .sum → ∃ key ∈ index.entries,
      isRealArg bindings.lossy (leadingValue key) = true
  · have summed : sumValues bindings.lossy function (index.entries.map leadingValue) = .ok (.real
        ((totalsOf bindings.lossy (index.entries.map leadingValue)).outcome function)) := by
      apply Totals.finalize_real some
      intro isSum
      rw [totalsOf, sawStored, storedReals.mpr (kinds isSum)]
      rfl
    rw [scanned, summed, Except.ok.injEq, Value.real.injEq]
    exact ⟨fun same => ⟨fun isSum _ => kinds isSum, fun _ => same⟩, fun sound => sound.rounded real⟩
  · rw [Classical.not_imp] at kinds
    obtain ⟨rfl, none⟩ := kinds
    refine iff_of_false ?_ fun sound => none (sound.kinds rfl real)
    rw [scanned]
    apply Totals.finalize_whole some
    rw [totalsOf, sawStored, Bool.eq_false_iff.mpr fun any => none (storedReals.mp any)]
    rfl

end Summed

end SqliteRs
