import SqliteRs.RowStore
import SqliteRs.TextPattern

/-!
WHERE clauses and what they are worth on a row. The shapes that the choice of an
access path tells apart are constructors; everything else is an opaque value.
`?` is numbered while the clause is compiled, so an evaluation carries the last
number given, in the order of compilation: AND and OR compile their cheaper
operand first, LIKE its pattern, and BETWEEN its subject twice. A result list is
numbered where it is compiled, which on some paths is more than once.
-/

namespace SqliteRs

inductive QueryError where
  | rowidNotInteger
  | malformedEntry
  | unknownColumn (name : String)
  | integerOverflow
deriving DecidableEq, Repr

/-- A bind parameter. `?` takes the number behind the greatest one given so far;
a named parameter is never bound and reads as NULL. -/
inductive ParamKind where
  | anonymous
  | numbered (index : Nat)
  | named (name : String)
deriving DecidableEq, Repr

inductive Literal where
  | integer (value : Int)
  | float (value : Binary64)
  | str (chars : List Char)
  | blob (bytes : Bytes)
  | null
  | boolean (value : Bool)
deriving DecidableEq, Repr

def Literal.value : Literal → Value
  | .integer value => .integer value
  | .float value => .real value
  | .str chars => .text chars
  | .blob bytes => .blob bytes
  | .null => .null
  | .boolean value => .integer (if value then 1 else 0)

/-- What a statement is run with: the bound values, and the library's reading of
bytes as text. -/
structure Bindings where
  param : Nat → Value
  lossy : Bytes → List Char

/-- An expression that no access path looks into, with what a comparison asks of it. -/
structure Opaque where
  cost : Nat
  params : List ParamKind
  affinity : Option Affinity
  collate : Option Collation
  collation : Option Collation
  eval : List Value → Int × Record → Value

inductive Atom where
  | literal (literal : Literal)
  | param (kind : ParamKind)
  | column (name : String)
  | other (expr : Opaque)

inductive Comparison where
  | eq
  | ne
  | lt
  | le
  | gt
  | ge
deriving DecidableEq, Repr

inductive Expr where
  | atom (atom : Atom)
  | compare (op : Comparison) (lhs rhs : Expr)
  | and (lhs rhs : Expr)
  | or (lhs rhs : Expr)
  | between (expr lo hi : Expr)
  | inList (expr : Expr) (list : List Atom)
  | like (glob : Bool) (expr pattern : Expr)

section Numbers

def isAsciiWhitespace (char : Char) : Bool :=
  char == ' ' || char == '\t' || char == '\n' || char == '\x0C' || char == '\r'

/-- The part of a numeral from its point on, if there is a digit beside the point. -/
def fractionPart (whole : List Char) : List Char → List Char × List Char
  | '.' :: rest =>
    if whole.isEmpty && (rest.takeWhile Char.isDigit).isEmpty then ([], '.' :: rest)
    else ('.' :: rest.takeWhile Char.isDigit, rest.dropWhile Char.isDigit)
  | rest => ([], rest)

def exponentPart : List Char → List Char
  | mark :: rest =>
    if mark = 'e' ∨ mark = 'E' then
      let (sign, digits) := match rest with
        | '+' :: digits => (['+'], digits)
        | '-' :: digits => (['-'], digits)
        | digits => ([], digits)
      let power := digits.takeWhile Char.isDigit
      if power.isEmpty then [] else mark :: sign ++ power
    else []
  | [] => []

/-- The longest numeral at the start of a text and whether it is float-shaped. -/
def scanNumberPrefix (chars : List Char) : Option (List Char × Bool) :=
  let trimmed := chars.dropWhile isAsciiWhitespace
  let (sign, unsigned) := match trimmed with
    | '+' :: rest => (['+'], rest)
    | '-' :: rest => (['-'], rest)
    | rest => ([], rest)
  let whole := unsigned.takeWhile Char.isDigit
  let (fraction, rest) := fractionPart whole (unsigned.dropWhile Char.isDigit)
  if whole.isEmpty && fraction.isEmpty then none
  else
    let exponent := exponentPart rest
    some (sign ++ whole ++ fraction ++ exponent, !fraction.isEmpty || !exponent.isEmpty)

def coerceTextToNumeric (chars : List Char) : Value :=
  match scanNumberPrefix chars with
  | none => .integer 0
  | some (numeral, isFloat) =>
    let real := match Binary64.parse numeral with
      | some number => .real number
      | none => .integer 0
    if isFloat then real
    else match parseInteger numeral with
      | some number => .integer number
      | none => real

def isZero : Value → Bool
  | .integer number => number == 0
  | .real number => number.partialCmp (.finite 0) == some .eq
  | _ => false

def isFalsy : Value → Bool
  | .text chars => isZero (coerceTextToNumeric chars)
  | value => isZero value

def Value.truth : Value → Option Bool
  | .null => none
  | value => some (!isFalsy value)

def ofTruth : Option Bool → Value
  | none => .null
  | some answer => .integer (if answer then 1 else 0)

def bothTrue : Option Bool → Option Bool → Option Bool
  | some false, _ | _, some false => some false
  | some true, some true => some true
  | _, _ => none

def eitherTrue : Option Bool → Option Bool → Option Bool
  | some true, _ | _, some true => some true
  | some false, some false => some false
  | _, _ => none

@[simp] theorem truth_ofTruth (answer : Option Bool) : (ofTruth answer).truth = answer := by
  rcases answer with _ | answer
  · rfl
  · cases answer <;> rfl

end Numbers

section Comparing

def Comparison.holds : Comparison → Ordering → Bool
  | .eq, order => order == .eq
  | .ne, order => order != .eq
  | .lt, order => order == .lt
  | .le, order => order != .gt
  | .gt, order => order == .gt
  | .ge, order => order != .lt

def Affinity.isNumeric : Affinity → Bool
  | .numeric | .integer | .real => true
  | _ => false

def comparisonAffinity : Option Affinity → Option Affinity → Affinity
  | some left, some right => if left.isNumeric || right.isNumeric then .numeric else .blob
  | some affinity, none | none, some affinity => affinity
  | none, none => .blob

/-- A comparison instruction on two registers; NULL on either side makes it unknown. -/
def compareJump (op : Comparison) (affinity : Affinity) (collation : Collation)
    (left right : Value) : Option Bool :=
  if left = .null ∨ right = .null then none
  else some (op.holds
    ((applyAffinity affinity left).compare (applyAffinity affinity right) collation))

end Comparing

namespace TableSchema

variable (schema : TableSchema)

def columnIndex (name : String) : Option Nat :=
  schema.columns.findIdx? fun column => equalsIgnoreCase column.name name

/-- A column by name. The names of the rowid stand for it where no column takes
them; any other name is refused before a row is read. -/
def columnValue (name : String) (row : Int × Record) : Value :=
  match schema.columnIndex name with
  | some position => schema.readColumn row.1 row.2 position
  | none => .integer row.1

def columnAffinity (name : String) : Affinity :=
  match schema.columnIndex name with
  | some position => (schema.affinities[position]?).getD .blob
  | none => .integer

def columnCollation (name : String) : Collation :=
  match schema.columnIndex name with
  | some position => ((schema.columns[position]?).map Column.collation).getD .binary
  | none => .binary

end TableSchema

def ParamKind.read (bindings : Bindings) (next : Nat) : ParamKind → Value × Nat
  | .anonymous => (bindings.param (next + 1), next + 1)
  | .numbered index => (bindings.param index, max next index)
  | .named _ => (.null, next)

def readParams (bindings : Bindings) : Nat → List ParamKind → List Value × Nat
  | next, [] => ([], next)
  | next, kind :: rest =>
    let (value, after) := kind.read bindings next
    let (values, last) := readParams bindings after rest
    (value :: values, last)

namespace Atom

variable (schema : TableSchema)

def affinity : Atom → Option Affinity
  | .column name => some (schema.columnAffinity name)
  | .other expr => expr.affinity
  | _ => none

def collate : Atom → Option Collation
  | .other expr => expr.collate
  | _ => none

def collation : Atom → Option Collation
  | .column name => some (schema.columnCollation name)
  | .other expr => expr.collation
  | _ => none

def cost : Atom → Nat
  | .other expr => expr.cost
  | _ => 0

def eval (bindings : Bindings) (row : Int × Record) (next : Nat) : Atom → Value × Nat
  | .literal constant => (constant.value, next)
  | .param kind => kind.read bindings next
  | .column name => (schema.columnValue name row, next)
  | .other expr =>
    let (values, last) := readParams bindings next expr.params
    (expr.eval values row, last)

/-- The last number given once an atom is compiled behind a given number. -/
def numbered (bindings : Bindings) (next : Nat) : Atom → Nat
  | .param kind => (kind.read bindings next).2
  | .other expr => (readParams bindings next expr.params).2
  | _ => next

end Atom

namespace Expr

def costClass : Expr → Nat
  | .atom leaf => leaf.cost
  | .compare _ lhs rhs => max (max lhs.costClass rhs.costClass) 1
  | .and lhs rhs | .or lhs rhs => max lhs.costClass rhs.costClass
  | .between _ _ _ | .inList _ _ | .like _ _ _ => 1

section Meaning

variable (schema : TableSchema)

def affinity : Expr → Option Affinity
  | .atom leaf => leaf.affinity schema
  | _ => none

def collate : Expr → Option Collation
  | .atom leaf => leaf.collate
  | _ => none

def collation : Expr → Option Collation
  | .atom leaf => leaf.collation schema
  | _ => none

/-- The collation of a comparison: an operator's on either side, then a column's. -/
def sharedCollation (lhs rhs : Expr) : Collation :=
  (lhs.collate <|> rhs.collate <|> lhs.collation schema <|> rhs.collation schema).getD .binary

def compareWith (op : Comparison) (lhs rhs : Expr) (left right : Value) : Option Bool :=
  compareJump op (comparisonAffinity (lhs.affinity schema) (rhs.affinity schema))
    (sharedCollation schema lhs rhs) left right

/-- Whether a value is in a list: unknown when it meets no member but NULL. -/
def listTruth (expr : Expr) (value : Value) (members : List (Atom × Value)) : Option Bool :=
  if members.isEmpty then some false
  else if value = .null then none
  else if members.any fun (item, member) =>
      compareWith schema .eq expr (.atom item) value member == some true then some true
  else if members.any fun (_, member) => member == .null then none
  else some false

def likeTruth (bindings : Bindings) (glob : Bool) (text pattern : Value) : Option Bool :=
  if text = .null ∨ pattern = .null then none
  else if glob then
    some (globMatch (asText bindings.lossy text) (asText bindings.lossy pattern))
  else some (likeMatch (asText bindings.lossy text) (asText bindings.lossy pattern) none)

def evalList (bindings : Bindings) (row : Int × Record) : Nat → List Atom →
    List (Atom × Value) × Nat
  | next, [] => ([], next)
  | next, item :: rest =>
    let (value, after) := item.eval schema bindings row next
    let (values, last) := evalList bindings row after rest
    ((item, value) :: values, last)

def eval (bindings : Bindings) (row : Int × Record) : Expr → Nat → Value × Nat
  | .atom leaf, next => leaf.eval schema bindings row next
  | .compare op lhs rhs, next =>
    let (left, middle) := lhs.eval bindings row next
    let (right, last) := rhs.eval bindings row middle
    (ofTruth (compareWith schema op lhs rhs left right), last)
  | .and lhs rhs, next =>
    if rhs.costClass < lhs.costClass then
      let (right, middle) := rhs.eval bindings row next
      let (left, last) := lhs.eval bindings row middle
      (ofTruth (bothTrue left.truth right.truth), last)
    else
      let (left, middle) := lhs.eval bindings row next
      let (right, last) := rhs.eval bindings row middle
      (ofTruth (bothTrue left.truth right.truth), last)
  | .or lhs rhs, next =>
    if rhs.costClass < lhs.costClass then
      let (right, middle) := rhs.eval bindings row next
      let (left, last) := lhs.eval bindings row middle
      (ofTruth (eitherTrue left.truth right.truth), last)
    else
      let (left, middle) := lhs.eval bindings row next
      let (right, last) := rhs.eval bindings row middle
      (ofTruth (eitherTrue left.truth right.truth), last)
  | .between expr lo hi, next =>
    let (subject, first) := expr.eval bindings row next
    let (low, second) := lo.eval bindings row first
    let (again, third) := expr.eval bindings row second
    let (high, last) := hi.eval bindings row third
    (ofTruth (bothTrue (compareWith schema .ge expr lo subject low)
      (compareWith schema .le expr hi again high)), last)
  | .inList expr list, next =>
    let (value, middle) := expr.eval bindings row next
    let (members, last) := evalList schema bindings row middle list
    (ofTruth (listTruth schema expr value members), last)
  | .like glob expr pattern, next =>
    let (held, middle) := pattern.eval bindings row next
    let (text, last) := expr.eval bindings row middle
    (ofTruth (likeTruth bindings glob text held), last)

section Reading

variable (binds : Bindings) (row : Int × Record) (next : Nat)

@[simp] theorem eval_atom (leaf : Atom) :
    (Expr.atom leaf).eval schema binds row next = leaf.eval schema binds row next := rfl

@[simp] theorem eval_column (name : String) :
    (Atom.column name).eval schema binds row next = (schema.columnValue name row, next) := rfl

@[simp] theorem affinity_atom (leaf : Atom) :
    (Expr.atom leaf).affinity schema = leaf.affinity schema := rfl

@[simp] theorem affinity_column (name : String) :
    (Atom.column name).affinity schema = some (schema.columnAffinity name) := rfl

@[simp] theorem eval_compare (op : Comparison) (lhs rhs : Expr) :
    (Expr.compare op lhs rhs).eval schema binds row next =
      (ofTruth (compareWith schema op lhs rhs (lhs.eval schema binds row next).1
          (rhs.eval schema binds row (lhs.eval schema binds row next).2).1),
        (rhs.eval schema binds row (lhs.eval schema binds row next).2).2) := rfl

end Reading

def isTrue (bindings : Bindings) (expr : Expr) (row : Int × Record) : Bool :=
  (expr.eval schema bindings row 0).1.truth == some true

end Meaning

/-- The last number given once an expression is compiled behind a given number. -/
def numbered (bindings : Bindings) : Expr → Nat → Nat
  | .atom leaf, next => leaf.numbered bindings next
  | .compare _ lhs rhs, next => rhs.numbered bindings (lhs.numbered bindings next)
  | .and lhs rhs, next | .or lhs rhs, next =>
    if rhs.costClass < lhs.costClass then lhs.numbered bindings (rhs.numbered bindings next)
    else rhs.numbered bindings (lhs.numbered bindings next)
  | .between expr lo hi, next =>
    hi.numbered bindings (expr.numbered bindings (lo.numbered bindings (expr.numbered bindings next)))
  | .inList expr list, next => list.foldl (fun last leaf => leaf.numbered bindings last)
      (expr.numbered bindings next)
  | .like _ expr pattern, next => expr.numbered bindings (pattern.numbered bindings next)

end Expr

/-- One item of a result list. A computed one reads its parameters by the numbers that they
get where the list is compiled. -/
inductive ResultColumn where
  | star
  | tableStar (table : String)
  | column (name : String)
  | computed (params : List ParamKind) (eval : List Value → Int × Record → Value)

structure Select where
  columns : List ResultColumn
  whereClause : Option Expr
  distinct : Bool := false

def ResultColumn.params : ResultColumn → List ParamKind
  | .computed params _ => params
  | _ => []

/-- The last number given once a result list is compiled behind a given number. -/
def numberColumns (bindings : Bindings) : Nat → List ResultColumn → Nat
  | next, [] => next
  | next, column :: rest =>
    numberColumns bindings (readParams bindings next column.params).2 rest

theorem numberColumns_plain (bindings : Bindings) {columns : List ResultColumn}
    (plain : ∀ column ∈ columns, column.params = []) (next : Nat) :
    numberColumns bindings next columns = next := by
  induction columns generalizing next with
  | nil => rfl
  | cons column rest ih =>
    obtain ⟨here, later⟩ := List.forall_mem_cons.mp plain
    rw [numberColumns, here]
    exact ih later next

/-- The number behind which a full scan compiles its result list. -/
def Select.scanNumber (select : Select) (bindings : Bindings) : Nat :=
  match select.whereClause with
  | none => 0
  | some clause => clause.numbered bindings 0

namespace TableSchema

variable (schema : TableSchema)

def readRow (row : Int × Record) : List Value :=
  schema.columns.map fun column => schema.columnValue column.name row

def resultValues (bindings : Bindings) (next : Nat) (row : Int × Record) :
    ResultColumn → List Value
  | .star | .tableStar _ => schema.readRow row
  | .column name => [schema.columnValue name row]
  | .computed params eval => [eval (readParams bindings next params).1 row]

def project (bindings : Bindings) (row : Int × Record) : Nat → List ResultColumn → List Value
  | _, [] => []
  | next, column :: rest => schema.resultValues bindings next row column ++
      project bindings row (readParams bindings next column.params).2 rest

theorem project_plain (bindings : Bindings) (row : Int × Record) {columns : List ResultColumn}
    (plain : ∀ column ∈ columns, column.params = []) (first second : Nat) :
    schema.project bindings row first columns = schema.project bindings row second columns := by
  induction columns generalizing first second with
  | nil => rfl
  | cons column rest ih =>
    obtain ⟨here, later⟩ := List.forall_mem_cons.mp plain
    have shown : schema.resultValues bindings first row column =
        schema.resultValues bindings second row column := by
      cases column with
      | computed params eval =>
        obtain rfl : params = [] := here
        rfl
      | _ => rfl
    rw [project, project, shown, here]
    exact congrArg _ (ih later _ _)

def resolveColumn (name : String) : Except QueryError (String × Nat) :=
  match schema.columnIndex name with
  | some position => .ok (name, position)
  | none => .error (.unknownColumn name)

/-- A bare name in a result list that no column has is refused when the list is compiled.
The names of the rowid are no exception. -/
def resolveColumns : List ResultColumn → Except QueryError Unit
  | [] => .ok ()
  | .column name :: rest => do
      let _ ← schema.resolveColumn name
      resolveColumns rest
  | _ :: rest => resolveColumns rest

def NamesColumns (select : Select) : Prop :=
  ∀ name, ResultColumn.column name ∈ select.columns → (schema.columnIndex name).isSome

theorem resolveColumns_ok_iff (columns : List ResultColumn) :
    schema.resolveColumns columns = .ok () ↔
      ∀ name, ResultColumn.column name ∈ columns → (schema.columnIndex name).isSome := by
  induction columns with
  | nil => simp [resolveColumns]
  | cons column rest ih =>
    cases column with
    | column name =>
      cases known : schema.columnIndex name with
      | none =>
        refine iff_of_false ?_ fun all => ?_
        · simp [resolveColumns, resolveColumn, known, bind, Except.bind]
        · have found := all name (.head _)
          rw [known] at found
          cases found
      | some position =>
        simp only [resolveColumns, resolveColumn, known, bind, Except.bind, ih, List.mem_cons,
          ResultColumn.column.injEq]
        constructor
        · rintro later other (rfl | inside)
          · simp [known]
          · exact later other inside
        · exact fun all other inside => all other (.inr inside)
    | _ => simpa [resolveColumns] using ih

end TableSchema

namespace Table

variable (table : Table) (bindings : Bindings)

def satisfies (clause : Expr) (row : Int × Record) : Bool := clause.isTrue table.schema bindings row

def fullScan (select : Select) : List (Int × Record) :=
  match select.whereClause with
  | none => table.rows.entries
  | some clause => table.rows.entries.filter (table.satisfies bindings clause)

/-- A result row with the rowid of the row it comes from, by the number behind which the result
list was compiled. -/
def answer (select : Select) (number : Nat) (row : Int × Record) : Option Value × List Value :=
  (some (.integer row.1), table.schema.project bindings row number select.columns)

/-- The answers of a full scan. The names of the rowid stand for it here, as in SQL. -/
def scanAnswers (select : Select) : List (Option Value × List Value) :=
  (table.fullScan bindings select).map
    (table.answer bindings select (select.scanNumber bindings))

end Table

end SqliteRs
