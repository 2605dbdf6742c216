import SqliteRs.OrderedMap
import SqliteRs.SqlValue

/-!
Tables and their indexes as the row-writing instructions see them: rows in
rowid order, each with its decoded record, and index entries in key order, each
the indexed values followed by the rowid. Instructions that touch an index
search it with the key order and nothing else.
-/

namespace SqliteRs

/-- A constraint expression: the columns it reads and its truth, none for NULL. -/
structure Check where
  columns : List Nat
  eval : List Value → Option Bool

/-- What compiling one value expression leaves: a run of fresh registers, one
of which holds the value. A NULL literal is told apart before it is compiled. -/
inductive Source where
  | nullLiteral
  | compiled (before : List Value) (value : Value) (after : List Value)

namespace Source

def before : Source → List Value
  | .nullLiteral => []
  | .compiled front _ _ => front

def value : Source → Value
  | .nullLiteral => .null
  | .compiled _ held _ => held

def after : Source → List Value
  | .nullLiteral => []
  | .compiled _ _ back => back

def registers (source : Source) : List Value := source.before ++ source.value :: source.after

def plain (held : Value) : Source := .compiled [] held []

end Source

structure Column where
  name : String
  declaredType : List Char
  collation : Collation := .binary
  notNull : Bool := false
  default : Option Source := none
  checks : List Check := []

def Column.affinity (column : Column) : Affinity := affinityOf column.declaredType

structure IndexedColumn where
  name : String
  position : Nat
  collation : Collation := .binary

structure IndexSchema where
  name : String
  unique : Bool
  columns : List IndexedColumn

structure TableSchema where
  name : String
  columns : List Column
  rowidAlias : Option Nat := none
  autoincrement : Bool := false
  tableChecks : List Check := []

structure Index where
  schema : IndexSchema
  entries : List (List Value)

abbrev Record := List Value

def equalsIgnoreCase (left right : String) : Bool :=
  left.toList.map Char.toLower == right.toList.map Char.toLower

def TableSchema.isRowidReferenceName (schema : TableSchema) (name : String) : Bool :=
  equalsIgnoreCase name "rowid" || equalsIgnoreCase name "_rowid_" || equalsIgnoreCase name "oid" ||
    (schema.rowidAlias.bind fun position => schema.columns[position]?).any fun column =>
      equalsIgnoreCase column.name name

structure Table where
  schema : TableSchema
  rows : OrderedMap Int Record
  indexes : List Index
  sequence : Option Int

inductive Failure where
  | halt (code : Nat) (message : String)
  | duplicateRowid
  | rowidNotFound
  | duplicateKey
  | keyNotFound
  | rowidNotInteger

/-- A row ends early when it is skipped, with what was done to the table so
far kept, or when the statement fails. -/
inductive Stop where
  | skipped (table : Table)
  | failed (failure : Failure)

/-- What a record holds for a value once it is written and decoded: NaN is NULL. -/
def storedValue : Value → Value
  | .real .nan => .null
  | value => value

/-- A record by the values it decodes to, each converted for its column first. -/
def makeRecord : List Affinity → List Value → Record
  | _, [] => []
  | [], value :: rest => storedValue value :: makeRecord [] rest
  | affinity :: affinities, value :: rest =>
    storedValue (applyAffinity affinity value) :: makeRecord affinities rest

def TableSchema.affinities (schema : TableSchema) : List Affinity :=
  schema.columns.map Column.affinity

/-- A column of a record, with REAL columns converted on every read. -/
def TableSchema.readRecord (schema : TableSchema) (record : Record) (position : Nat) : Value :=
  let value := record.getD position .null
  if schema.affinities[position]? = some .real then applyAffinity .real value else value

/-- A column as a query reads it: the rowid stands in for its alias. -/
def TableSchema.readColumn (schema : TableSchema) (rowid : Int) (record : Record)
    (position : Nat) : Value :=
  if schema.rowidAlias = some position then .integer rowid else schema.readRecord record position

namespace Index

def seek (entries : List (List Value)) (probe : List Value) : Option (List Value) :=
  entries.find? fun key => compareKeys key probe != .lt

def conflict (entries : List (List Value)) (probe : List Value) : Option (List Value) :=
  (seek entries probe).filter fun key =>
    decide (probe.length ≤ key.length)
      && (key.zip probe).all fun pair => pair.1.compare pair.2 .binary == .eq

def place (key held : List Value) : List (List Value) → List (List Value)
  | [] => [held]
  | entry :: rest =>
    if compareKeys key entry = .lt then held :: entry :: rest
    else entry :: place key held rest

def insertEntry (entries : List (List Value)) (key : List Value) :
    Except Failure (List (List Value)) :=
  if entries.any fun entry => compareKeys key entry == .eq then .error .duplicateKey
  else .ok (place key (key.map storedValue) entries)

def deleteEntry (entries : List (List Value)) (key : List Value) :
    Except Failure (List (List Value)) :=
  if entries.any fun entry => compareKeys key entry == .eq then
    .ok (entries.eraseP fun entry => compareKeys key entry == .eq)
  else .error .keyNotFound

def editAll (edit : List (List Value) → List Value → Except Failure (List (List Value)))
    (keyOf : IndexSchema → List Value) : List Index → Except Failure (List Index)
  | [] => .ok []
  | index :: rest => do
      let entries ← edit index.entries (keyOf index.schema)
      let others ← editAll edit keyOf rest
      return { index with entries } :: others

end Index

def TableSchema.rowKey (schema : TableSchema) (rowid : Int) (record : Record)
    (index : IndexSchema) : List Value :=
  index.columns.map (fun column => schema.readColumn rowid record column.position) ++
    [.integer rowid]

/-- The key of a row about to be written, from the registers of its values. -/
def TableSchema.registerKey (schema : TableSchema) (rowid : Value) (values : List Value)
    (index : IndexSchema) : List Value :=
  index.columns.map (fun column =>
    if schema.rowidAlias = some column.position then rowid
    else values.getD column.position .null) ++ [rowid]

/-- The key that filling a new index takes from a decoded record. -/
def populateKey (rowid : Int) (record : Record) (index : IndexSchema) : List Value :=
  index.columns.map (fun column => record.getD column.position .null) ++ [.integer rowid]

end SqliteRs
