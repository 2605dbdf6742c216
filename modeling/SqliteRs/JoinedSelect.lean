import SqliteRs.QueryExpr
import SqliteRs.JoinOrder

/-!
`SELECT *` over a chain of inner joins, with its conditions as expressions: names,
operators with their operands, and subqueries. What an operator computes, and in which
order it compiles its operands, is the language's; an operator sees every operand as
something still to be compiled from a parameter count. The walk that collects the tables
of a condition never misses one, so every condition is tested where it can be read, and
the columns come in FROM order whatever the plan. What the plan can change is the
numbering of `?`: the conditions are compiled from the outermost loop in.
-/

namespace SqliteRs

open List Option

inductive ExprTree (Operator Query : Type) where
  | literal (value : Value)
  | param (kind : ParamKind)
  | column (catalog table : Option String) (name : String)
  | node (operator : Operator) (operands : List (ExprTree Operator Query))
  | subquery (query : Query) (operands : List (ExprTree Operator Query))

abbrev Environment (Operand : Type) := Option String → String → Operand

/-- An operand before it is compiled: the parameter count behind it, and what it is
worth when it is compiled at a count. -/
abbrev Compiling (Operand : Type) := (Nat → Nat) × (Nat → Operand)

structure Language (Operator Query Operand : Type) where
  literal : Value → Operand
  param : ParamKind → Nat → Operand
  column : Affinity → Collation → Value → Operand
  nodeAfter : Operator → List (Nat → Nat) → Nat → Nat
  node : Operator → List (Compiling Operand) → Nat → Operand
  queryAfter : Query → List (Nat → Nat) → Nat → Nat
  query : Query → Environment Operand → List (Compiling Operand) → Nat → Operand
  truth : Operand → Option Bool

def ParamKind.after : ParamKind → Nat → Nat
  | .anonymous, number => number + 1
  | .numbered index, number => max number index
  | .named _, number => number

variable {Operator Query Operand : Type}

namespace ExprTree

section Meaning

variable (language : Language Operator Query Operand)

mutual

def after : ExprTree Operator Query → Nat → Nat
  | .literal _, number => number
  | .param kind, number => kind.after number
  | .column _ _ _, number => number
  | .node operator operands, number => language.nodeAfter operator (afterAll operands) number
  | .subquery query operands, number => language.queryAfter query (afterAll operands) number

def afterAll : List (ExprTree Operator Query) → List (Nat → Nat)
  | [] => []
  | first :: rest => first.after :: afterAll rest

end

variable (environment : Environment Operand)

mutual

def value : ExprTree Operator Query → Nat → Operand
  | .literal value, _ => language.literal value
  | .param kind, number => language.param kind number
  | .column _ table name, _ => environment table name
  | .node operator operands, number => language.node operator (valueAll operands) number
  | .subquery query operands, number =>
    language.query query environment (valueAll operands) number

def valueAll : List (ExprTree Operator Query) → List (Compiling Operand)
  | [] => []
  | first :: rest => (first.after language, first.value) :: valueAll rest

end

def isTrue (condition : ExprTree Operator Query) (number : Nat) : Bool :=
  language.truth (condition.value language environment number) == some true

end Meaning

end ExprTree

structure TableBinding where
  aliasName : Option String
  name : String
  schema : TableSchema

def TableBinding.matchesQualifier (binding : TableBinding) (table : String) : Bool :=
  match binding.aliasName with
  | some aliasName => equalsIgnoreCase aliasName table
  | none => equalsIgnoreCase binding.name table

section Scope

variable (bindings : List TableBinding)

/-- The table that a name is read from: the first one of a qualifier's, if it has the
column, or the only one with a column of that name. -/
def resolveOwnBindingIndex (table : Option String) (name : String) : Option Nat :=
  match table with
  | some table =>
    (bindings.findIdx? fun binding => binding.matchesQualifier table).filter fun position =>
      (bindings[position]?).any fun binding => (binding.schema.columnIndex name).isSome
  | none =>
    match (List.range bindings.length).filter fun position =>
        (bindings[position]?).any fun binding => (binding.schema.columnIndex name).isSome with
    | [position] => some position
    | _ => none

abbrev TableRow := Int × Record

def TableSchema.cell (schema : TableSchema) (row : Option TableRow) (position : Nat) : Value :=
  row.elim .null fun row => schema.readColumn row.1 row.2 position

variable (language : Language Operator Query Operand) (scope : Nat → Option TableRow)

/-- Names as the scope of a join resolves them. One that it cannot resolve is refused when
the query is compiled. -/
def scopeEnvironment : Environment Operand := fun table name =>
  match resolveOwnBindingIndex bindings table name with
  | none => language.literal .null
  | some position =>
    match bindings[position]? with
    | none => language.literal .null
    | some binding =>
      let column := (binding.schema.columnIndex name).getD 0
      language.column ((binding.schema.affinities[column]?).getD .blob)
        (((binding.schema.columns[column]?).map Column.collation).getD .binary)
        (binding.schema.cell (scope position) column)

namespace ExprTree

mutual

def collectReferencedBindingIndices : ExprTree Operator Query → List Nat
  | .literal _ | .param _ => []
  | .column _ table name => (List.range bindings.length).filter fun position =>
    (bindings[position]?).any fun binding => match table with
      | some table => binding.matchesQualifier table
      | none => (binding.schema.columnIndex name).isSome
  | .node _ operands => collectAll operands
  | .subquery _ _ => List.range bindings.length

def collectAll : List (ExprTree Operator Query) → List Nat
  | [] => []
  | first :: rest => first.collectReferencedBindingIndices ++ collectAll rest

end

def referencedBindingIndices (expr : ExprTree Operator Query) : List Nat :=
  ((expr.collectReferencedBindingIndices bindings).insertionSort (· ≤ ·)).dedup

end ExprTree

end Scope

section Reading

variable {binds : List TableBinding} {lang : Language Operator Query Operand}
  {scope scope' : Nat → Option TableRow}

variable {table : Option String} {name : String} {pos : Nat}

theorem resolve_lt (found : resolveOwnBindingIndex binds table name = some pos) :
    pos < binds.length := by
  unfold resolveOwnBindingIndex at found
  cases table with
  | some table =>
    obtain ⟨first, _⟩ := filter_eq_some_iff.mp found
    exact (List.findIdx?_eq_some_iff_findIdx_eq.mp first).1
  | none =>
    dsimp only at found
    split at found
    · rename_i only
      cases found
      have mem : pos ∈ [pos] := mem_singleton_self _
      rw [← only] at mem
      exact mem_range.mp (mem_filter.mp mem).1
    · cases found

theorem resolve_collected {catalog : Option String}
    (found : resolveOwnBindingIndex binds table name = some pos) :
    pos ∈ (ExprTree.column catalog table name :
      ExprTree Operator Query).collectReferencedBindingIndices binds := by
  have bound := resolve_lt found
  simp only [ExprTree.collectReferencedBindingIndices, mem_filter, mem_range]
  refine ⟨bound, ?_⟩
  unfold resolveOwnBindingIndex at found
  cases table with
  | some table =>
    obtain ⟨first, _⟩ := filter_eq_some_iff.mp found
    have matched := (List.findIdx?_eq_some_iff_getElem.mp first).2.1
    simpa [List.getElem?_eq_getElem bound] using matched
  | none =>
    dsimp only at found
    split at found
    · rename_i only
      cases found
      have mem : pos ∈ [pos] := mem_singleton_self _
      rw [← only] at mem
      exact (mem_filter.mp mem).2
    · cases found

theorem scopeEnvironment_congr (same : ∀ pos, resolveOwnBindingIndex binds table name = some pos →
      scope pos = scope' pos) : scopeEnvironment binds lang scope table name =
      scopeEnvironment binds lang scope' table name := by
  unfold scopeEnvironment
  split
  · rfl
  · rename_i pos found
    rw [same pos found]

theorem scopeEnvironment_ext (same : ∀ pos < binds.length, scope pos = scope' pos) :
    scopeEnvironment binds lang scope = scopeEnvironment binds lang scope' := by
  funext table name
  exact scopeEnvironment_congr fun pos found => same pos (resolve_lt found)

mutual

theorem ExprTree.value_of_collected (expr : ExprTree Operator Query) (num : Nat)
    (same : ∀ pos ∈ expr.collectReferencedBindingIndices binds, scope pos = scope' pos) :
    expr.value lang (scopeEnvironment binds lang scope) num =
      expr.value lang (scopeEnvironment binds lang scope') num := by
  cases expr with
  | literal | param => simp only [value]
  | column catalog table name =>
    exact scopeEnvironment_congr fun pos found => same pos (resolve_collected found)
  | node operator operands =>
    simp only [value]
    rw [ExprTree.valueAll_of_collected operands fun pos mem => same pos (by
      simpa only [collectReferencedBindingIndices] using mem)]
  | subquery query operands =>
    have whole : scopeEnvironment binds lang scope = scopeEnvironment binds lang scope' :=
      scopeEnvironment_ext fun pos bound => same pos (by
        simpa only [collectReferencedBindingIndices, mem_range] using bound)
    rw [whole]

theorem ExprTree.valueAll_of_collected (operands : List (ExprTree Operator Query))
    (same : ∀ pos ∈ ExprTree.collectAll binds operands, scope pos = scope' pos) :
    ExprTree.valueAll lang (scopeEnvironment binds lang scope) operands =
      ExprTree.valueAll lang (scopeEnvironment binds lang scope') operands := by
  cases operands with
  | nil => simp only [ExprTree.valueAll]
  | cons first rest =>
    simp only [ExprTree.collectAll, mem_append] at same
    simp only [ExprTree.valueAll]
    congr 1
    · congr 1
      funext num
      exact first.value_of_collected num fun pos mem => same pos (.inl mem)
    · exact ExprTree.valueAll_of_collected rest fun pos mem =>
        same pos (.inr mem)

end

theorem ExprTree.mem_referenced {expr : ExprTree Operator Query} {pos : Nat} :
    pos ∈ expr.referencedBindingIndices binds ↔ pos ∈ expr.collectReferencedBindingIndices binds := by
  rw [ExprTree.referencedBindingIndices, mem_dedup, (perm_insertionSort _ _).mem_iff]

end Reading

section Comparisons

structure ComparedValue where
  value : Value
  affinity : Option Affinity := none
  collation : Option Collation := none
deriving DecidableEq, Repr

inductive SimpleOperator where
  | compare (op : Comparison)
  | isNull
deriving DecidableEq, Repr

def simpleNode : SimpleOperator → List (Compiling ComparedValue) → Nat → ComparedValue
  | .compare op, [lhs, rhs], number =>
    let left := lhs.2 number
    let right := rhs.2 (lhs.1 number)
    ⟨ofTruth (compareJump op (comparisonAffinity left.affinity right.affinity)
      ((left.collation <|> right.collation).getD .binary) left.value right.value), none, none⟩
  | .isNull, [operand], number =>
    ⟨.integer (if (operand.2 number).value = .null then 1 else 0), none, none⟩
  | _, _, _ => ⟨.null, none, none⟩

/-- Comparisons and tests for NULL, with given parameters; operands compile left to right. -/
def simpleLanguage (param : Nat → Value) : Language SimpleOperator Empty ComparedValue where
  literal value := ⟨value, none, none⟩
  param kind number := match kind with
    | .anonymous => ⟨param (number + 1), none, none⟩
    | .numbered index => ⟨param index, none, none⟩
    | .named _ => ⟨.null, none, none⟩
  column affinity collation value := ⟨value, some affinity, some collation⟩
  nodeAfter _ operands number := operands.foldl (fun number after => after number) number
  node := simpleNode
  queryAfter query := nomatch query
  query query := nomatch query
  truth operand := operand.value.truth

end Comparisons


variable {Operator Query Operand : Type}

def treeConditions (language : Language Operator Query Operand) (bindings : List TableBinding) :
    Conditions (ExprTree Operator Query) TableRow where
  after := ExprTree.after language
  holds condition number scope :=
    condition.isTrue language (scopeEnvironment bindings language scope) number
  references := ExprTree.referencedBindingIndices bindings
  sound condition number scope scope' same := by
    unfold ExprTree.isTrue
    rw [condition.value_of_collected number fun position member =>
      same position (ExprTree.mem_referenced.mpr member)]

/-- The columns of `SELECT *` by name and value, in FROM order, without those that a
NATURAL or USING join drops from a table. -/
def starRow (bindings : List TableBinding) (dedupStar : Nat → List String)
    (scope : Slots TableRow) : List (String × Value) :=
  bindings.zipIdx.flatMap fun (binding, position) =>
    binding.schema.columns.zipIdx.filterMap fun (column, index) =>
      if (dedupStar position).any fun name => equalsIgnoreCase name column.name then none
      else some (column.name, binding.schema.cell (scope position) index)

def starNames (bindings : List TableBinding) (dedupStar : Nat → List String) : List String :=
  (starRow bindings dedupStar fun _ => none).map Prod.fst

/-- A `SELECT *` over a chain of joins. Its complete rows are those of all tables. -/
structure JoinedSelect (Operator Query Operand : Type) where
  language : Language Operator Query Operand
  bindings : List TableBinding
  tables : Nat → List TableRow
  joins : List (JoinClause (ExprTree Operator Query))
  whereClause : Option (ExprTree Operator Query) := none
  firstNumber : Nat := 0

namespace JoinedSelect

variable (select : JoinedSelect Operator Query Operand)

def passesWhere (number : Nat) (scope : Slots TableRow) : Bool :=
  select.whereClause.all fun condition => condition.isTrue select.language
    (scopeEnvironment select.bindings select.language scope) number

def query : JoinedQuery (ExprTree Operator Query) TableRow (Slots TableRow) where
  conditions := treeConditions select.language select.bindings
  tables := select.tables
  joins := select.joins
  firstNumber := select.firstNumber
  leafAfter number := select.whereClause.elim number fun condition =>
    condition.after select.language number
  emit number scope := if select.passesWhere number scope then [scope] else []

/-- Whether a combination of rows passes every ON condition and WHERE, with the numbers
that the plan for these estimates gives their parameters. -/
def accepts (costs : List Nat) (scope : Slots TableRow) : Bool :=
  ((select.query.tests costs).1.all fun check =>
    check.passes (scopeTest select.query.conditions) scope) &&
  select.passesWhere (select.query.tests costs).2 scope

def allCombinations : List (Slots TableRow) :=
  combinations select.tables (List.range select.query.count) fun _ => none

variable {select}

theorem rows_filter (inner : isReorderableInnerChain select.joins = true) {costs : List Nat}
    (sized : costs.length = select.query.count) : select.query.rows costs =
      (combinations select.tables (planJoinOrder costs) fun _ => none).filter
        (select.accepts costs) := by
  rw [← flatMap_ite_singleton, JoinedQuery.rows_inner inner sized]
  apply flatMap_congr
  intro scope _
  unfold accepts
  cases (select.query.tests costs).1.all fun check =>
      check.passes (scopeTest select.query.conditions) scope with
  | true | false => rfl

theorem plan_combinations {costs : List Nat} (sized : costs.length = select.query.count) :
    (combinations select.tables (planJoinOrder costs) fun _ => none).Perm select.allCombinations := by
  have shuffled := planJoinOrder_perm costs
  rw [sized] at shuffled
  exact combinations_perm shuffled _

theorem starRow_names (bindings : List TableBinding) (dedupStar : Nat → List String)
    (scope : Slots TableRow) :
    (starRow bindings dedupStar scope).map Prod.fst = starNames bindings dedupStar := by
  simp only [starRow, starNames, map_flatMap, map_filterMap]
  apply flatMap_congr
  rintro ⟨binding, pos⟩ _
  apply filterMap_congr
  rintro ⟨col, index⟩ _
  split <;> rfl

/-- Two plans of a chain of inner joins give the same rows exactly when the conditions,
with the numbers of either plan, accept the same combinations of rows. The columns are
those of FROM order in both. -/
theorem planned_rows_same_iff (inner : isReorderableInnerChain select.joins = true)
    {costs costs' : List Nat} (sized : costs.length = select.query.count)
    (sized' : costs'.length = select.query.count) (dedupStar : Nat → List String) :
    ((select.query.rows costs).Perm (select.query.rows costs') ↔
      ∀ scope ∈ select.allCombinations, select.accepts costs scope = select.accepts costs' scope) ∧
    ∀ row ∈ (select.query.rows costs).map (starRow select.bindings dedupStar),
      row.map Prod.fst = starNames select.bindings dedupStar := by
  constructor
  · have here := plan_combinations sized
    rw [rows_filter inner sized, rows_filter inner sized',
      filters_perm_iff (here.trans (plan_combinations sized').symm)]
    constructor
    · intro agree scope member
      exact agree scope (here.mem_iff.mpr member)
    · intro agree scope member
      exact agree scope (here.mem_iff.mp member)
  · intro row member
    obtain ⟨scope, _, rfl⟩ := List.mem_map.mp member
    exact starRow_names _ _ scope

def oneColumn (table column : String) : TableBinding :=
  ⟨none, table, { name := table, columns := [{ name := column, declaredType := [] }] }⟩

def columnEquals (table name : String) (operand : ExprTree SimpleOperator Empty) :
    ExprTree SimpleOperator Empty :=
  .node (.compare .eq) [.column none (some table) name, operand]

/-- `SELECT * FROM a JOIN b ON a.x = ? JOIN c ON c.y = ?` run with 1 and 2, where the
only row of `a` has 1 and the only row of `c` has 2. -/
def twoParameters : JoinedSelect SimpleOperator Empty ComparedValue where
  language := simpleLanguage fun number => .integer number
  bindings := [oneColumn "a" "x", oneColumn "b" "z", oneColumn "c" "y"]
  tables table := [[(1, [.integer 1])], [(1, [.integer 0])], [(1, [.integer 2])]].getD table []
  joins := [⟨.inner, some (columnEquals "a" "x" (.param .anonymous))⟩,
    ⟨.inner, some (columnEquals "c" "y" (.param .anonymous))⟩]

/-- Smaller estimates for `a` leave the numbers as they are. -/
theorem smaller_first_table_same_rows :
    (twoParameters.query.rows [1, 10, 10]).Perm (twoParameters.query.rows [10, 10, 10]) :=
  (planned_rows_same_iff (by decide) (by decide) (by decide) fun _ => []).1.mpr (by decide +kernel)

/-- With `c` estimated smallest, its condition is compiled first and takes the first
parameter: the row that FROM order finds is lost. -/
theorem smaller_last_table_swaps_parameters :
    ¬ (twoParameters.query.rows [10, 10, 1]).Perm (twoParameters.query.rows [10, 10, 10]) := by
  intro same
  have lengths := same.length_eq
  have found : (twoParameters.query.rows [10, 10, 10]).length = 1 := by decide +kernel
  have lost : (twoParameters.query.rows [10, 10, 1]).length = 0 := by decide +kernel
  omega

end JoinedSelect

end SqliteRs
