import SqliteRs.IndexProbe

/-!
The rowid seek. A WHERE clause that pins the rowid to literals or parameters is
replaced by one seek for each of them: a comparison with the rowid, a constant
that a chain of AND-ed equalities leads to it, or an OR chain of comparisons.
Nothing of the clause is tested after the seek, so further conjuncts are lost,
and an OR chain that names one row twice returns it twice. Each seek is followed
by a copy of the result list, whose parameters come before the next operand's.
-/

namespace SqliteRs

open List Table SqliteRs.Expr TableSchema

namespace Expr

def equalityOperands : Expr → Option (Expr × Expr)
  | .compare .eq lhs rhs => some (lhs, rhs)
  | _ => none

def whereCol : Expr → Option String
  | .atom (.column name) => some name
  | _ => none

def seekOperand : Expr → Option Atom
  | .atom (.literal (.integer value)) => some (.literal (.integer value))
  | .atom (.param .anonymous) => some (.param .anonymous)
  | .atom (.param (.numbered index)) => some (.param (.numbered index))
  | _ => none

def flattenAndConjuncts : Expr → List Expr
  | .and lhs rhs => lhs.flattenAndConjuncts ++ rhs.flattenAndConjuncts
  | expr => [expr]

def flattenOrDisjuncts : Expr → List Expr
  | .or lhs rhs => lhs.flattenOrDisjuncts ++ rhs.flattenOrDisjuncts
  | expr => [expr]

end Expr

section Propagation

abbrev Constants := List Char → Option Atom

def lowercase (name : String) : List Char := name.toList.map Char.toLower

def Constants.insert (constants : Constants) (name : List Char) (value : Atom) : Constants :=
  fun other => if other = name then some value else constants other

def noteConjunct (noted : Constants × List (List Char × List Char)) (conjunct : Expr) :
    Constants × List (List Char × List Char) :=
  match conjunct.equalityOperands with
  | none => noted
  | some (lhs, rhs) =>
    match lhs.whereCol, rhs.whereCol with
    | some name, none =>
      match rhs.seekOperand with
      | some value => (noted.1.insert (lowercase name) value, noted.2)
      | none => noted
    | none, some name =>
      match lhs.seekOperand with
      | some value => (noted.1.insert (lowercase name) value, noted.2)
      | none => noted
    | some first, some second => (noted.1, noted.2 ++ [(lowercase first, lowercase second)])
    | none, none => noted

/-- Copies one column's constant to another, over any the other has, and tells
whether it had none. -/
def Constants.copy (constants : Constants) (source target : List Char) : Constants × Bool :=
  match constants source with
  | some value => (constants.insert target value, (constants target).isNone)
  | none => (constants, false)

def propagatePass : List (List Char × List Char) → Constants → Constants × Bool
  | [], constants => (constants, false)
  | (first, second) :: rest, constants =>
    let (there, one) := constants.copy first second
    let (back, two) := there.copy second first
    let (last, more) := propagatePass rest back
    (last, one || two || more)

def propagateLinks (links : List (List Char × List Char)) : Nat → Constants → Constants
  | 0, constants => constants
  | passes + 1, constants =>
    let (next, changed) := propagatePass links constants
    if changed then propagateLinks links passes next else next

/-- A pass that finds something leaves a name less to find, and each link has two. -/
def propagateConstants (clause : Expr) : Constants :=
  let (direct, links) := clause.flattenAndConjuncts.foldl noteConjunct (fun _ => none, [])
  propagateLinks links (2 * links.length + 1) direct

end Propagation

namespace TableSchema

variable (schema : TableSchema)

def isRowidExpr (expr : Expr) : Bool := expr.whereCol.any schema.isRowidReferenceName

/-- The constant of the rowid under any of its names, in a fixed order. -/
def resolveRowidConstant (constants : Constants) : Option Atom :=
  constants (lowercase "rowid") <|> constants (lowercase "_rowid_") <|>
    constants (lowercase "oid") <|>
    (schema.rowidAlias.bind fun position => schema.columns[position]?).bind fun column =>
      constants (lowercase column.name)

end TableSchema

def equalityOperand (isColumn : Expr → Bool) (expr : Expr) : Option Atom :=
  match expr.equalityOperands with
  | none => none
  | some (lhs, rhs) =>
    if isColumn lhs then rhs.seekOperand
    else if isColumn rhs then lhs.seekOperand
    else none

def orChainOperands (clause : Expr) (isColumn : Expr → Bool) : Option (List Atom) :=
  let disjuncts := clause.flattenOrDisjuncts
  if disjuncts.length < 2 then none else disjuncts.mapM (equalityOperand isColumn)

namespace TableSchema

variable (schema : TableSchema)

def rowidSeekOperands (select : Select) : Option (List Atom) := do
  if select.distinct then none
  else
    let clause ← select.whereClause
    match equalityOperand schema.isRowidExpr clause with
    | some operand => some [operand]
    | none =>
      match schema.resolveRowidConstant (propagateConstants clause) with
      | some operand => some [operand]
      | none => orChainOperands clause schema.isRowidExpr

end TableSchema

def Atom.read (bindings : Bindings) (next : Nat) : Atom → Value × Nat
  | .literal constant => (constant.value, next)
  | .param kind => kind.read bindings next
  | _ => (.null, next)

def operandValues (bindings : Bindings) : Nat → List Atom → List Value
  | _, [] => []
  | next, operand :: rest =>
    (operand.read bindings next).1 :: operandValues bindings (operand.read bindings next).2 rest

/-- What the operands of a chain of seeks read, each with the number behind which the copy of
the result list that follows it is compiled. -/
def operandReads (bindings : Bindings) (columns : List ResultColumn) :
    Nat → List Atom → List (Value × Nat)
  | _, [] => []
  | next, operand :: rest => operand.read bindings next ::
      operandReads bindings columns
        (numberColumns bindings (operand.read bindings next).2 columns) rest

namespace Table

variable (table : Table)

def seekRowid : Value → Except QueryError (List (Int × Record))
  | .integer rowid => .ok ((table.rows.get rowid).map fun record => (rowid, record)).toList
  | _ => .error .rowidNotInteger

def seekRowids (bindings : Bindings) (select : Select) :
    List (Value × Nat) → Except QueryError (List (Option Value × List Value))
  | [] => .ok []
  | (value, number) :: rest => do
      let here ← table.seekRowid value
      let later ← seekRowids bindings select rest
      return here.map (table.answer bindings select number) ++ later

def rowidSeek (bindings : Bindings) (select : Select) :
    Option (Except QueryError (List (Option Value × List Value))) :=
  (table.schema.rowidSeekOperands select).map fun operands => do
    table.schema.resolveColumns select.columns
    table.seekRowids bindings select (operandReads bindings select.columns 0 operands)

end Table

section Settling

def unresolved (names : List (List Char)) (constants : Constants) : Nat :=
  (names.filter fun name => (constants name).isNone).length

variable {names : List (List Char)} {links : List (List Char × List Char)}

theorem copy_shrinks (consts : Constants) (src : List Char) {target : List Char}
    (mem : target ∈ names) : unresolved names (consts.copy src target).1 +
      (consts.copy src target).2.toNat ≤ unresolved names consts := by
  unfold Constants.copy
  split
  · rename_i value known
    have left : (names.filter fun name => (consts.insert target value name).isNone) =
        (names.filter fun name => (consts name).isNone).filter (· ≠ target) := by
      rw [filter_filter]
      apply filter_congr
      intro name _
      by_cases same : name = target <;> simp [Constants.insert, same]
    rw [unresolved, left]
    cases none : (consts target).isNone with
    | false => exact length_filter_le _ _
    | true =>
      exact length_filter_lt_length_iff_exists.mpr ⟨target, mem_filter.mpr ⟨mem, none⟩, by simp⟩
  · exact le_refl _

/-- A pass that changes something leaves a name less to resolve. -/
theorem propagatePass_shrinks (consts : Constants)
    (listed : ∀ link ∈ links, link.1 ∈ names ∧ link.2 ∈ names) :
    unresolved names (propagatePass links consts).1 + (propagatePass links consts).2.toNat ≤
      unresolved names consts := by
  induction links generalizing consts with
  | nil => exact le_refl _
  | cons link rest ih =>
    have ends := listed link mem_cons_self
    have there := copy_shrinks consts link.1 ends.2
    have back := copy_shrinks (consts.copy link.1 link.2).1 link.2 ends.1
    have later := ih ((consts.copy link.1 link.2).1.copy link.2 link.1).1
      fun other mem => listed other (mem_cons_of_mem _ mem)
    have either (one two : Bool) : (one || two).toNat ≤ one.toNat + two.toNat := by
      cases one <;> cases two <;> decide
    simp only [propagatePass]
    generalize consts.copy link.1 link.2 = one at *
    generalize one.1.copy link.2 link.1 = two at *
    have first := either one.2 two.2
    have all := either (one.2 || two.2) (propagatePass rest two.1).2
    omega

theorem propagateLinks_settled (passes more : Nat)
    (listed : ∀ link ∈ links, link.1 ∈ names ∧ link.2 ∈ names) (consts : Constants)
    (enough : unresolved names consts < passes) :
    propagateLinks links (passes + more) consts = propagateLinks links passes consts := by
  induction passes generalizing consts with
  | zero => cases enough
  | succ passes ih =>
    rw [show passes + 1 + more = passes + more + 1 by omega]
    simp only [propagateLinks]
    split
    · rename_i changed
      have shrinks := propagatePass_shrinks consts listed
      rw [changed, Bool.toNat_true] at shrinks
      exact ih _ (by omega)
    · rfl

theorem propagateConstants_settled (more : Nat) (consts : Constants) :
    propagateLinks links (2 * links.length + 1 + more) consts =
      propagateLinks links (2 * links.length + 1) consts := by
  let ends := links.flatMap fun link => [link.1, link.2]
  have bound : unresolved ends consts ≤ ends.length := length_filter_le _ _
  have double : ends.length = 2 * links.length := by simp [ends, Nat.mul_comm]
  apply @propagateLinks_settled ends
  · exact fun link mem => ⟨mem_flatMap.mpr ⟨link, mem, by simp⟩, mem_flatMap.mpr ⟨link, mem, by simp⟩⟩
  omega

end Settling

/-- When the seeks stand for the whole query: the bare result columns are the table's, every
operand is an integer, no two name one row, the clause is true of the rows they name and of no
other, and the copy of the result list behind an operand shows its row as the scan does. -/
structure Table.RowidSeekSound (table : Table) (bindings : Bindings) (select : Select)
    (clause : Expr) (reads : List (Value × Nat)) : Prop where
  named : table.schema.NamesColumns select
  integers : ∀ read ∈ reads, ∃ rowid, read.1 = .integer rowid
  once : ∀ row ∈ table.rows.entries, reads.countP (fun read => read.1 == .integer row.1) ≤ 1
  agrees : ∀ row ∈ table.rows.entries,
    table.satisfies bindings clause row = true ↔ ∃ read ∈ reads, read.1 = .integer row.1
  shown : ∀ read ∈ reads, ∀ row ∈ table.rows.entries, read.1 = .integer row.1 →
    table.schema.project bindings row read.2 select.columns =
      table.schema.project bindings row (select.scanNumber bindings) select.columns

namespace Table

variable {table : Table} {binds : Bindings} {select : Select}
  {results : List (Option Value × List Value)}

def named (table : Table) (value : Value) : List (Int × Record) :=
  table.rows.entries.filter fun row => value == .integer row.1

theorem seekRowid_integer (rowid : Int) :
    table.seekRowid (.integer rowid) = .ok (table.named (.integer rowid)) := by
  rw [seekRowid, table.rows.get_toList]
  congr 1
  apply filter_congr
  intro row _
  rw [Bool.eq_iff_iff, decide_eq_true_iff, beq_iff_eq, Value.integer.injEq, eq_comm]

theorem seekRowids_ok_iff {reads : List (Value × Nat)} :
    table.seekRowids binds select reads = .ok results ↔
      (∀ read ∈ reads, ∃ rowid, read.1 = .integer rowid) ∧ results = reads.flatMap fun read =>
        (table.named read.1).map (table.answer binds select read.2) := by
  induction reads generalizing results with
  | nil => simp [seekRowids]
  | cons read rest ih =>
    obtain ⟨value, number⟩ := read
    cases value with
    | integer rowid =>
      rw [seekRowids, seekRowid_integer]
      constructor
      · intro done
        obtain ⟨here, first, done⟩ := bind_ok done
        obtain ⟨later, ran, same⟩ := bind_ok done
        obtain ⟨integers, rfl⟩ := ih.mp ran
        cases first
        rw [← Except.ok.inj same]
        exact ⟨forall_mem_cons.mpr ⟨⟨rowid, rfl⟩, integers⟩, rfl⟩
      · rintro ⟨integers, rfl⟩
        have ran := ih.mpr ⟨(forall_mem_cons.mp integers).2, rfl⟩
        rw [ran]
        rfl
    | _ =>
      apply iff_of_false
      · rintro ⟨⟩
      rintro ⟨integers, -⟩
      obtain ⟨rowid, same⟩ := integers _ (.head _)
      cases same

theorem rowidSeek_ok_iff {operands : List Atom}
    (taken : table.schema.rowidSeekOperands select = some operands) :
    table.rowidSeek binds select = some (.ok results) ↔ table.schema.NamesColumns select ∧
      table.seekRowids binds select (operandReads binds select.columns 0 operands) =
        .ok results := by
  rw [rowidSeek, taken, Option.map_some, Option.some.injEq, NamesColumns,
    ← resolveColumns_ok_iff]
  constructor
  · intro done
    obtain ⟨⟨⟩, named, done⟩ := bind_ok done
    exact ⟨named, done⟩
  · rintro ⟨named, done⟩
    rw [named]
    exact done

end Table

section Chains

variable {table : Table} {bindings : Bindings}

/-- The rowid's names stand for it: no other column takes one of them, and the
alias is an INTEGER column. -/
def TableSchema.RowidNamed (schema : TableSchema) : Prop :=
  ∀ name, schema.isRowidReferenceName name = true →
    schema.columnAffinity name = .integer ∧ ∀ row, schema.columnValue name row = .integer row.1

def numberAfter (bindings : Bindings) : Nat → List Atom → Nat
  | next, [] => next
  | next, operand :: rest => numberAfter bindings (operand.read bindings next).2 rest

theorem operandValues_append (next : Nat) (front back : List Atom) :
    operandValues bindings next (front ++ back) = operandValues bindings next front ++
        operandValues bindings (numberAfter bindings next front) back := by
  induction front generalizing next with
  | nil => rfl
  | cons operand rest ih => exact congrArg _ (ih _)

theorem numberAfter_append (next : Nat) (front back : List Atom) :
    numberAfter bindings next (front ++ back) =
      numberAfter bindings (numberAfter bindings next front) back := by
  induction front generalizing next with
  | nil => rfl
  | cons operand rest ih => exact ih _

/-- A result list without parameters leaves the numbers of the operands to follow each other. -/
theorem operandReads_plain (bindings : Bindings) {columns : List ResultColumn}
    (plain : ∀ column ∈ columns, column.params = []) (next : Nat) (operands : List Atom) :
    (operandReads bindings columns next operands).map Prod.fst =
      operandValues bindings next operands := by
  induction operands generalizing next with
  | nil => rfl
  | cons operand rest ih =>
    rw [operandReads, map_cons, numberColumns_plain bindings plain, ih]
    rfl

variable {expr : Expr} {operand : Atom} {operands : List Atom}

theorem seekOperand_eq (table : Table) (bindings : Bindings)
    (supported : expr.seekOperand = some operand) :
    expr = .atom operand ∧ operand.affinity table.schema = none ∧ operand.cost = 0 ∧
      ∀ row next, operand.eval table.schema bindings row next =
        ((operandValues bindings next [operand]).headD .null, numberAfter bindings next [operand]) := by
  unfold seekOperand at supported
  split at supported <;> cases supported <;> exact ⟨rfl, rfl, rfl, fun _ _ => rfl⟩

theorem compareJump_integer (coll : Collation) (left right : Int) :
    compareJump .eq .integer coll (.integer left) (.integer right) = some (decide (left = right)) := by
  simp only [compareJump, reduceCtorEq, or_self, if_false, Comparison.holds, Option.some.injEq]
  rw [Bool.eq_iff_iff, beq_iff_eq, decide_eq_true_iff]
  exact compare_eq_iff_eq

theorem equality_truth (named : table.schema.RowidNamed)
    (operandOf : equalityOperand table.schema.isRowidExpr expr = some operand) (next : Nat)
    {rowid : Int} (value : operandValues bindings next [operand] = [.integer rowid])
    (row : Int × Record) : (expr.eval table.schema bindings row next) =
        (ofTruth (some (decide (row.1 = rowid))), numberAfter bindings next [operand]) ∧
      expr.costClass = 1 := by
  have column : ∀ {side : Expr}, table.schema.isRowidExpr side = true →
      ∃ name, side = .atom (.column name) ∧ table.schema.isRowidReferenceName name = true := by
    intro side isRowid
    unfold isRowidExpr whereCol at isRowid
    split at isRowid
    · exact ⟨_, rfl, isRowid⟩
    · cases isRowid
  unfold equalityOperand at operandOf
  split at operandOf
  · cases operandOf
  rename_i lhs rhs equality
  obtain rfl : expr = .compare .eq lhs rhs := by
    unfold equalityOperands at equality
    split at equality <;> cases equality
    rfl
  split at operandOf
  rotate_left
  split at operandOf
  rotate_left
  · cases operandOf
  all_goals
    rename_i isRowid
    obtain ⟨rfl, noAffinity, free, evaluated⟩ := seekOperand_eq table bindings operandOf
    obtain ⟨name, rfl, reference⟩ := column isRowid
    obtain ⟨affinity, held⟩ := named name reference
    refine ⟨?_, by simp [costClass, free, show (Atom.column name).cost = 0 from rfl]⟩
    simp only [eval_compare, eval_atom, eval_column, evaluated, value,
      compareWith, affinity_atom, affinity_column, affinity, noAffinity,
      comparisonAffinity, held, headD_cons]
    rw [compareJump_integer]
  simp [eq_comm]

theorem eitherTrue_some (left right : Bool) :
    eitherTrue (some left) (some right) = some (left || right) := by
  cases left <;> cases right <;> rfl

/-- What a chain of comparisons with integers is worth on a row: whether it names
the row's rowid. -/
def ChainTruth (table : Table) (bindings : Bindings) (row : Int × Record) (clause : Expr)
    (operands : List Atom) (next : Nat) : Prop :=
  clause.eval table.schema bindings row next =
      (ofTruth (some (decide (Value.integer row.1 ∈ operandValues bindings next operands))),
        numberAfter bindings next operands) ∧
    clause.costClass = 1

theorem disjunct_truth (named : table.schema.RowidNamed) {next : Nat}
    (flat : expr.flattenOrDisjuncts = [expr])
    (chain : expr.flattenOrDisjuncts.mapM (equalityOperand table.schema.isRowidExpr) = some operands)
    (integers : ∀ value ∈ operandValues bindings next operands, ∃ rowid, value = .integer rowid)
    (row : Int × Record) : ChainTruth table bindings row expr operands next := by
  rw [flat, mapM_cons, mapM_nil] at chain
  obtain ⟨operand, operandOf, rest⟩ := Option.bind_eq_some_iff.mp chain
  cases rest
  obtain ⟨value, held⟩ : ∃ value, operandValues bindings next [operand] = [value] := by
    cases operand <;> exact ⟨_, rfl⟩
  obtain ⟨rowid, rfl⟩ := integers value (by rw [held]; exact .head _)
  rw [ChainTruth, held]
  simpa using equality_truth named operandOf next held row

theorem chain_truth (named : table.schema.RowidNamed) (clause : Expr) (operands : List Atom)
    (next : Nat)
    (chain : clause.flattenOrDisjuncts.mapM (equalityOperand table.schema.isRowidExpr) = some operands)
    (integers : ∀ value ∈ operandValues bindings next operands, ∃ rowid, value = .integer rowid)
    (row : Int × Record) : ChainTruth table bindings row clause operands next := by
  induction clause generalizing operands next with
  | or lhs rhs ihLeft ihRight =>
    rw [flattenOrDisjuncts, mapM_append] at chain
    obtain ⟨front, left, chain⟩ := Option.bind_eq_some_iff.mp chain
    obtain ⟨back, right, same⟩ := Option.bind_eq_some_iff.mp chain
    cases same
    rw [operandValues_append] at integers
    obtain ⟨here, hereCost⟩ := ihLeft front next left
      fun value mem => integers value (mem_append_left _ mem)
    obtain ⟨there, thereCost⟩ := ihRight back (numberAfter bindings next front) right
      fun value mem => integers value (mem_append_right _ mem)
    constructor
    · -- No comparison is cheaper than another, so the chain is compiled left to right.
      simp only [eval, hereCost, thereCost, here, there,
        truth_ofTruth, eitherTrue_some, numberAfter_append, operandValues_append]
      simp
    · simp [costClass, hereCost, thereCost]
  | atom | compare | and | between | inList | like =>
    exact disjunct_truth named rfl chain integers row

theorem Table.RowidSeekSound.of_chain {select : Select} (columns : table.schema.NamesColumns select)
    (plain : ∀ column ∈ select.columns, column.params = [])
    (named : table.schema.RowidNamed) {clause : Expr}
    (chain : clause.flattenOrDisjuncts.mapM (equalityOperand table.schema.isRowidExpr) = some operands)
    (integers : ∀ value ∈ operandValues bindings 0 operands, ∃ rowid, value = .integer rowid)
    (once : ∀ row ∈ table.rows.entries,
      (operandValues bindings 0 operands).count (.integer row.1) ≤ 1) :
    table.RowidSeekSound bindings select clause
      (operandReads bindings select.columns 0 operands) := by
  have reads := operandReads_plain bindings plain 0 operands
  rw [← reads] at integers once
  refine ⟨columns, fun read mem => integers _ (mem_map_of_mem mem), ?_, ?_, ?_⟩
  · intro row mem
    have counted := once row mem
    rwa [List.count, countP_map] at counted
  · intro row _
    rw [reads] at integers
    obtain ⟨truth, -⟩ := chain_truth named clause operands 0 chain integers row
    rw [← reads] at truth
    simp [satisfies, Expr.isTrue, truth]
  · exact fun read _ row _ _ => table.schema.project_plain bindings row plain _ _

end Chains

def twoNumbers : Table where
  schema := { name := "t", columns := [{ name := "a", declaredType := "INTEGER".toList }] }
  rows := ⟨[(1, [.integer 5]), (2, [.integer 6])], by decide⟩
  indexes := []
  sequence := none

def noBindings : Bindings := ⟨fun _ => .null, fun _ => []⟩

def equals (column : String) (number : Int) : Expr :=
  .compare .eq (.atom (.column column)) (.atom (.literal (.integer number)))

theorem twoNumbers_named : twoNumbers.schema.RowidNamed := by
  intro name reference
  have unknown : twoNumbers.schema.columnIndex name = none := by
    simp only [isRowidReferenceName, twoNumbers, Option.bind_none, Option.any_none,
      Bool.or_false, Bool.or_eq_true, equalsIgnoreCase, beq_iff_eq] at reference
    have other : ¬ ("a".toList.map Char.toLower == name.toList.map Char.toLower) = true := by
      rcases reference with (same | same) | same <;> rw [same] <;> decide
    simp [columnIndex, twoNumbers, equalsIgnoreCase] at other ⊢
    exact other
  exact ⟨by rw [columnAffinity, unknown], fun row => by rw [columnValue, unknown]⟩

/-- `SELECT ? FROM t WHERE rowid = ? OR rowid = ?`: the second seek reads the third parameter. -/
example : operandReads ⟨fun number => .integer number, fun _ => []⟩
    [.computed [.anonymous] fun values _ => values.headD .null] 0
      [.param .anonymous, .param .anonymous] = [(.integer 1, 1), (.integer 3, 3)] := rfl

end SqliteRs
