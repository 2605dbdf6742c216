import SqliteRs.JoinedSelect
import SqliteRs.OuterJoins
import SqliteRs.SortOrder

/-!
A FULL JOIN of two tables runs in two passes. The first is a LEFT JOIN that notes the
rowid of every right row it matches in an ephemeral index; the second gives the right
rows whose rowid was not noted. WHERE and the keys of ORDER BY are compiled anew at each
of the three places where a row leaves the loops, so a `?` in them takes another number
at each place. The index holds a limited number of rowids.
-/

namespace SqliteRs

open List

section EphemeralIndex

variable {Key : Type} [DecidableEq Key]

def maxEphemeralRows : Nat := 1000000

/-- `IdxInsert` into an ephemeral index, by the set of its keys. A new key is refused
when the index is full. -/
def idxInsert (keys : List Key) (key : Key) : Option (List Key) :=
  if key ∉ keys ∧ maxEphemeralRows ≤ keys.length then none else some (keys.insert key)

def insertKeys (start keys : List Key) : List Key :=
  keys.foldl (fun held key => held.insert key) start

variable {start : List Key}

theorem mem_insertKeys {keys : List Key} {key : Key} :
    key ∈ insertKeys start keys ↔ key ∈ start ∨ key ∈ keys := by
  unfold insertKeys
  induction keys generalizing start with
  | nil => simp
  | cons first rest ih =>
    rw [foldl_cons, ih, mem_insert_iff, mem_cons]
    tauto

theorem nodup_insertKeys (nodup : start.Nodup) (keys : List Key) : (insertKeys start keys).Nodup := by
  induction keys generalizing start with
  | nil => exact nodup
  | cons first rest ih => exact ih nodup.insert

theorem length_le_insertKeys (start keys : List Key) :
    start.length ≤ (insertKeys start keys).length := by
  induction keys generalizing start with
  | nil => exact le_rfl
  | cons first rest ih => exact length_le_length_insert.trans (ih _)

theorem foldlM_idxInsert (fits : start.length ≤ maxEphemeralRows)
    (keys : List Key) :
    keys.foldlM idxInsert start =
      if (insertKeys start keys).length ≤ maxEphemeralRows then some (insertKeys start keys)
      else none := by
  induction keys generalizing start with
  | nil => exact (if_pos fits).symm
  | cons first rest ih =>
    have unrolled : insertKeys start (first :: rest) = insertKeys (start.insert first) rest := rfl
    rw [foldlM_cons, unrolled]
    unfold idxInsert
    split
    · rename_i full
      have longer : maxEphemeralRows < (start.insert first).length := by
        rw [length_insert_of_not_mem full.1]
        omega
      have beyond := length_le_insertKeys (start.insert first) rest
      rw [if_neg (by omega)]
      rfl
    · rename_i room
      apply ih
      by_cases held : first ∈ start
      · rwa [length_insert_of_mem held]
      rw [length_insert_of_not_mem held]
      have free : ¬ maxEphemeralRows ≤ start.length := fun full => room ⟨held, full⟩
      omega

end EphemeralIndex

/-- Where the key of an ORDER BY term comes from: a column of the joined row, or an
expression that is compiled wherever a row is buffered. -/
inductive JoinOrderTarget (Operator Query : Type) where
  | offset (table column : Nat)
  | expr (expression : ExprTree Operator Query)

structure JoinOrderPlan (Operator Query : Type) where
  target : JoinOrderTarget Operator Query
  key : SortKeyColumn := {}

/-- A query over a FULL JOIN, with result columns that hold no `?`. With ORDER BY they are
columns of the tables, listed in `columns`. -/
structure FullJoin (Operator Query Operand : Type) where
  language : Language Operator Query Operand
  read : Operand → Value
  bindings : List TableBinding
  left : List TableRow
  right : List TableRow
  distinctRowids : (right.map Prod.fst).Nodup
  constraint : Option (ExprTree Operator Query)
  whereClause : Option (ExprTree Operator Query) := none
  columns : List (Nat × Nat) := []
  orderBy : List (JoinOrderPlan Operator Query) := []
  firstNumber : Nat := 0

def sideBySide (left right : Option TableRow) : Slots TableRow
  | 0 => left
  | 1 => right
  | _ => none

/-- What the loops hold between two rows: the noted rowids, and the rows given so far
with their key values. -/
structure FullJoinPass where
  matchedRowids : List Int := []
  buffer : List (Slots TableRow × List Value) := []

namespace FullJoin

variable {Operator Query Operand : Type} (join : FullJoin Operator Query Operand)

section Code

def names (scope : Slots TableRow) : Environment Operand :=
  scopeEnvironment join.bindings join.language scope

def meets (scope : Slots TableRow) : Bool :=
  join.constraint.all fun condition =>
    condition.isTrue join.language (join.names scope) join.firstNumber

def passesWhere (number : Nat) (scope : Slots TableRow) : Bool :=
  join.whereClause.all fun condition => condition.isTrue join.language (join.names scope) number

def whereAfter (number : Nat) : Nat :=
  join.whereClause.elim number fun condition => condition.after join.language number

def cell (scope : Slots TableRow) (table column : Nat) : Value :=
  (join.bindings[table]?).elim .null fun binding => binding.schema.cell (scope table) column

def keyValues (scope : Slots TableRow) :
    List (JoinOrderPlan Operator Query) → Nat → List Value
  | [], _ => []
  | plan :: rest, number => match plan.target with
    | .offset table column => join.cell scope table column :: keyValues scope rest number
    | .expr expression =>
      join.read (expression.value join.language (join.names scope) number) ::
        keyValues scope rest (expression.after join.language number)

def keysAfter : List (JoinOrderPlan Operator Query) → Nat → Nat
  | [], number => number
  | plan :: rest, number => match plan.target with
    | .offset _ _ => keysAfter rest number
    | .expr expression => keysAfter rest (expression.after join.language number)

def pointAfter (number : Nat) : Nat := join.keysAfter join.orderBy (join.whereAfter number)

def matchedAt : Nat :=
  join.constraint.elim join.firstNumber fun condition =>
    condition.after join.language join.firstNumber

def aloneAt : Nat := join.pointAfter join.matchedAt

def rightAt : Nat := join.pointAfter join.aloneAt

def emitRow (number : Nat) (scope : Slots TableRow) (pass : FullJoinPass) : FullJoinPass :=
  if join.passesWhere number scope then
    { pass with buffer := pass.buffer ++
        [(scope, join.keyValues scope join.orderBy (join.whereAfter number))] }
  else pass

def visitRight (row : TableRow) (state : Bool × FullJoinPass) (other : TableRow) :
    Option (Bool × FullJoinPass) :=
  let scope := sideBySide (some row) (some other)
  if join.meets scope then do
    -- The rowid is noted before WHERE is asked.
    let rowids ← idxInsert state.2.matchedRowids other.1
    some (true, join.emitRow join.matchedAt scope { state.2 with matchedRowids := rowids })
  else some state

def visitLeft (pass : FullJoinPass) (row : TableRow) : Option FullJoinPass := do
  let (matched, pass) ← join.right.foldlM (join.visitRight row) (false, pass)
  some (if matched then pass else join.emitRow join.aloneAt (sideBySide (some row) none) pass)

def secondPass (pass : FullJoinPass) : FullJoinPass :=
  join.right.foldl (fun pass other =>
    if other.1 ∈ pass.matchedRowids then pass
    else join.emitRow join.rightAt (sideBySide none (some other)) pass) pass

def run : Option (List (Slots TableRow)) := do
  let pass ← join.left.foldlM join.visitLeft {}
  let buffer := (join.secondPass pass).buffer
  let rows := if join.orderBy.isEmpty then buffer
    else sorterSort (join.orderBy.map JoinOrderPlan.key) buffer
  some (rows.map Prod.fst)

end Code

section Meaning

def matchesOf (row : TableRow) : List (Slots TableRow) :=
  (join.right.map fun other => sideBySide (some row) (some other)).filter join.meets

def pairs : List (Slots TableRow) := join.left.flatMap join.matchesOf

def leftAlone : List (Slots TableRow) :=
  (join.left.filter fun row => (join.matchesOf row).isEmpty).map fun row =>
    sideBySide (some row) none

def isMatched (other : TableRow) : Bool :=
  join.left.any fun row => join.meets (sideBySide (some row) (some other))

def matchedRight : List TableRow := join.right.filter join.isMatched

def rightAlone : List (Slots TableRow) :=
  (join.right.filter fun other => !join.isMatched other).map fun other =>
    sideBySide none (some other)

def joined : List (Slots TableRow) := join.pairs ++ join.leftAlone ++ join.rightAlone

/-- The SQL meaning. Parameters are numbered in the order of the text: those of WHERE
come behind those of ON. -/
def expected : List (Slots TableRow) := join.joined.filter (join.passesWhere join.matchedAt)

/-- The keys of a row in SQL: an integer alone names a result column by its place. -/
def sqlKeyValues (scope : Slots TableRow) : List (JoinOrderPlan Operator Query) → Nat → List Value
  | [], _ => []
  | plan :: rest, number => match plan.target with
    | .offset table column => join.cell scope table column :: sqlKeyValues scope rest number
    | .expr (.literal (.integer place)) =>
      ((join.columns[(place - 1).toNat]?).elim .null fun (table, column) =>
        join.cell scope table column) :: sqlKeyValues scope rest number
    | .expr expression =>
      join.read (expression.value join.language (join.names scope) number) ::
        sqlKeyValues scope rest (expression.after join.language number)

def InOrder (first second : Slots TableRow) : Prop :=
  InKeyOrder (join.orderBy.map JoinOrderPlan.key)
    (join.sqlKeyValues first join.orderBy (join.whereAfter join.matchedAt))
    (join.sqlKeyValues second join.orderBy (join.whereAfter join.matchedAt))

end Meaning

section Loops

def pointOf (scope : Slots TableRow) : Nat :=
  if (scope 1).isNone then join.aloneAt
  else if (scope 0).isNone then join.rightAt
  else join.matchedAt

def accepts (scope : Slots TableRow) : Bool := join.passesWhere (join.pointOf scope) scope

def withKeys (scope : Slots TableRow) : Slots TableRow × List Value :=
  (scope, join.keyValues scope join.orderBy (join.whereAfter (join.pointOf scope)))

def loopRows : List (Slots TableRow) :=
  (join.left.flatMap fun row =>
    orAlone (sideBySide (some row) none) (join.matchesOf row)) ++ join.rightAlone

def buffered (scopes : List (Slots TableRow)) : List (Slots TableRow × List Value) :=
  (scopes.filter join.accepts).map join.withKeys

variable {join}

theorem buffered_append (first second : List (Slots TableRow)) :
    join.buffered (first ++ second) = join.buffered first ++ join.buffered second := by
  unfold buffered
  rw [filter_append, map_append]

theorem emitRow_eq {num : Nat} {scope : Slots TableRow} (here : join.pointOf scope = num)
    (pass : FullJoinPass) :
    join.emitRow num scope pass =
      { pass with buffer := pass.buffer ++ join.buffered [scope] } := by
  subst here
  have same : join.passesWhere (join.pointOf scope) scope = join.accepts scope := rfl
  unfold emitRow buffered
  rw [same]
  cases kept : join.accepts scope with
  | true => simp [kept, withKeys]
  | false => simp [kept]

variable (join) in
def noted (others : List TableRow) (row : TableRow) : List Int :=
  (others.filter fun other => join.meets (sideBySide (some row) (some other))).map Prod.fst

variable {other row : TableRow} (state : Bool × FullJoinPass)

theorem visitRight_unmet (unmet : join.meets (sideBySide (some row) (some other)) = false) :
    join.visitRight row state other = some state := by
  simp [visitRight, unmet]

theorem visitRight_met (met : join.meets (sideBySide (some row) (some other)) = true) :
    join.visitRight row state other = (idxInsert state.2.matchedRowids other.1).map fun rowids =>
        (true, ⟨rowids, state.2.buffer ++ join.buffered [sideBySide (some row) (some other)]⟩) := by
  have point : join.pointOf (sideBySide (some row) (some other)) = join.matchedAt := rfl
  unfold visitRight
  simp only [met, emitRow_eq point]
  cases idxInsert state.2.matchedRowids other.1 <;> rfl

theorem foldlM_visitRight (row : TableRow) (others : List TableRow) (matched : Bool)
    (pass : FullJoinPass) : others.foldlM (join.visitRight row) (matched, pass) =
      ((join.noted others row).foldlM idxInsert pass.matchedRowids).map fun rowids =>
        (matched || others.any fun other => join.meets (sideBySide (some row) (some other)),
          ⟨rowids, pass.buffer ++ join.buffered
            ((others.map fun other => sideBySide (some row) (some other)).filter join.meets)⟩) := by
  induction others generalizing matched pass with
  | nil => simp [noted, buffered]
  | cons other rest ih =>
    rw [foldlM_cons]
    cases met : join.meets (sideBySide (some row) (some other)) with
    | false =>
      rw [visitRight_unmet _ met]
      simp [ih, noted, met]
    | true =>
      have split : join.noted (other :: rest) row = other.1 :: join.noted rest row := by
        simp [noted, met]
      rw [visitRight_met _ met, split, foldlM_cons]
      cases idxInsert pass.matchedRowids other.1 with
      | none => rfl
      | some rowids =>
        change rest.foldlM (join.visitRight row) (true, ⟨rowids, _⟩) =
          Option.map _ ((join.noted rest row).foldlM idxInsert rowids)
        rw [ih]
        simp [met, ← buffered_append]

theorem visitLeft_eq (pass : FullJoinPass) (row : TableRow) : join.visitLeft pass row =
      ((join.noted join.right row).foldlM idxInsert pass.matchedRowids).map fun rowids =>
        ⟨rowids, pass.buffer ++ join.buffered
          (orAlone (sideBySide (some row) none) (join.matchesOf row))⟩ := by
  have found : (join.right.any fun other => join.meets (sideBySide (some row) (some other))) =
      !(join.matchesOf row).isEmpty := by
    unfold matchesOf
    rw [Bool.eq_iff_iff]
    simp
  have point : join.pointOf (sideBySide (some row) none) = join.aloneAt := rfl
  unfold visitLeft orAlone
  rw [foldlM_visitRight, found]
  cases (join.noted join.right row).foldlM idxInsert pass.matchedRowids with
  | none => rfl
  | some rowids =>
    cases empty : (join.matchesOf row).isEmpty with
    | true =>
      have nothing : join.matchesOf row = [] := isEmpty_iff.mp empty
      unfold matchesOf at nothing
      simp [emitRow_eq point, nothing, buffered]
    | false => rfl

theorem foldlM_visitLeft (rows : List TableRow) (pass : FullJoinPass) :
    rows.foldlM join.visitLeft pass =
      ((rows.flatMap (join.noted join.right)).foldlM idxInsert pass.matchedRowids).map fun rowids =>
        ⟨rowids, pass.buffer ++ join.buffered
          (rows.flatMap fun row => orAlone (sideBySide (some row) none) (join.matchesOf row))⟩ := by
  induction rows generalizing pass with
  | nil => simp [buffered]
  | cons row rest ih =>
    rw [foldlM_cons, visitLeft_eq, flatMap_cons, flatMap_cons, foldlM_append, buffered_append]
    cases (join.noted join.right row).foldlM idxInsert pass.matchedRowids with
    | none => rfl
    | some rowids => simp [ih]

theorem secondPass_buffer (pass : FullJoinPass)
    (noted : ∀ other ∈ join.right, other.1 ∈ pass.matchedRowids ↔ join.isMatched other = true) :
    (join.secondPass pass).buffer = pass.buffer ++ join.buffered join.rightAlone := by
  unfold secondPass rightAlone
  generalize join.right = others at noted
  induction others generalizing pass with
  | nil => simp [buffered]
  | cons other rest ih =>
    have point : join.pointOf (sideBySide none (some other)) = join.rightAt := rfl
    rcases forall_mem_cons.mp noted with ⟨here, later⟩
    rw [foldl_cons]
    by_cases held : other.1 ∈ pass.matchedRowids
    · rw [if_pos held, ih pass later]
      simp [here.mp held]
    have free : join.isMatched other = false := by
      cases found : join.isMatched other with
      | true => exact absurd (here.mpr found) held
      | false => rfl
    rw [if_neg held, emitRow_eq point,
      ih ⟨pass.matchedRowids, pass.buffer ++ join.buffered [_]⟩ later, append_assoc,
      ← buffered_append]
    simp [free]

theorem mem_noted {rowid : Int} :
    rowid ∈ join.left.flatMap (join.noted join.right) ↔ rowid ∈ join.matchedRight.map Prod.fst := by
  simp only [noted, matchedRight, isMatched, mem_flatMap, mem_map, mem_filter, any_eq_true]
  constructor
  · rintro ⟨row, inside, other, ⟨listed, met⟩, same⟩
    exact ⟨other, ⟨listed, row, inside, met⟩, same⟩
  · rintro ⟨other, ⟨listed, row, inside, met⟩, same⟩
    exact ⟨row, inside, other, ⟨listed, met⟩, same⟩

theorem matchedRight_nodup : (join.matchedRight.map Prod.fst).Nodup :=
  join.distinctRowids.sublist (filter_sublist.map Prod.fst)

theorem insertKeys_noted : (insertKeys [] (join.left.flatMap (join.noted join.right))).Perm
      (join.matchedRight.map Prod.fst) := by
  apply (perm_ext_iff_of_nodup (nodup_insertKeys nodup_nil _) matchedRight_nodup).mpr
  intro rowid
  rw [mem_insertKeys, mem_noted]
  simp

theorem rowid_matched (listed : other ∈ join.right) :
    other.1 ∈ join.matchedRight.map Prod.fst ↔ join.isMatched other = true := by
  constructor
  · intro held
    rcases mem_map.mp held with ⟨same, inside, equal⟩
    rcases mem_filter.mp inside with ⟨mem, matched⟩
    have one : same = other := inj_on_of_nodup_map join.distinctRowids mem listed equal
    rwa [← one]
  · intro matched
    exact mem_map_of_mem (mem_filter.mpr ⟨listed, matched⟩)

variable (join) in
def ordered (buffer : List (Slots TableRow × List Value)) : List (Slots TableRow × List Value) :=
  if join.orderBy.isEmpty then buffer
  else sorterSort (join.orderBy.map JoinOrderPlan.key) buffer

theorem run_eq :
    join.run = if join.matchedRight.length ≤ maxEphemeralRows then
        some ((join.ordered (join.buffered join.loopRows)).map Prod.fst)
      else none := by
  have count : (insertKeys [] (join.left.flatMap (join.noted join.right))).length =
      join.matchedRight.length := by
    rw [insertKeys_noted.length_eq, length_map]
  unfold run
  rw [foldlM_visitLeft, foldlM_idxInsert (Nat.zero_le _), count]
  split
  swap
  · rfl
  have second := @secondPass_buffer _ _ _ join
    ⟨insertKeys [] (join.left.flatMap (join.noted join.right)), [] ++ join.buffered
      (join.left.flatMap fun row => orAlone (sideBySide (some row) none) (join.matchesOf row))⟩
    fun other listed => insertKeys_noted.mem_iff.trans (rowid_matched listed)
  rw [nil_append, ← buffered_append] at second
  change some _ = some _
  rw [nil_append, second]
  rfl

theorem loopRows_perm : join.loopRows.Perm join.joined := by
  have lefts : (join.left.flatMap fun row =>
      orAlone (sideBySide (some row) none) (join.matchesOf row)).Perm
        (join.pairs ++ join.leftAlone) := by
    unfold pairs leftAlone
    generalize join.left = rows
    induction rows with
    | nil => exact .nil
    | cons row rest ih =>
      rw [flatMap_cons, flatMap_cons, filter_cons]
      by_cases empty : (join.matchesOf row).isEmpty
      · have nothing : join.matchesOf row = [] := isEmpty_iff.mp empty
        rw [nothing]
        exact (ih.cons _).trans perm_middle.symm
      have whole : orAlone (sideBySide (some row) none) (join.matchesOf row) =
          join.matchesOf row := if_neg empty
      rw [if_neg empty, whole, append_assoc]
      exact ih.append_left _
  exact lefts.append_right _

end Loops

section Exactness

variable {join}

theorem ordered_perm (buffer : List (Slots TableRow × List Value)) :
    (join.ordered buffer).Perm buffer := by
  unfold ordered
  split
  · exact .refl _
  · exact sorterSort_perm _ _

variable (join) in
/-- Two rows, the first met earlier by the loops, come out in the order of SQL when they
are sorted by their keys as buffered. -/
def SortsAlike (first second : Slots TableRow) : Prop :=
  if InKeyOrder (join.orderBy.map JoinOrderPlan.key) (join.withKeys first).2
      (join.withKeys second).2
  then join.InOrder first second else join.InOrder second first

theorem ordered_pairwise_iff (scopes : List (Slots TableRow)) :
    ((join.ordered (join.buffered scopes)).map Prod.fst).Pairwise join.InOrder ↔
      (scopes.filter join.accepts).Pairwise join.SortsAlike := by
  rw [pairwise_map]
  unfold ordered
  cases plain : join.orderBy.isEmpty with
  | true =>
    have none : join.orderBy = [] := isEmpty_iff.mp plain
    have always : ∀ first second, join.InOrder first second := by
      intro first second
      unfold InOrder
      rw [none]
      rfl
    constructor
    · intro _
      apply pairwise_of_forall
      intro first second
      unfold SortsAlike
      split
      · exact always first second
      · exact always second first
    · intro _
      exact pairwise_of_forall fun first second => always first.1 second.1
  | false =>
    rw [if_neg (by simp), sorterSort_pairwise_iff]
    unfold buffered
    rw [pairwise_map]
    rfl

/-- A FULL JOIN gives the rows of SQL in the order of SQL exactly when the ephemeral index
can hold the matched right rows, WHERE answers on every joined row as it does with its
first numbers, and the buffered keys sort every two kept rows as SQL's do. -/
theorem rows_exact_iff :
    (∃ rows, join.run = some rows ∧ rows.Perm join.expected ∧ rows.Pairwise join.InOrder) ↔
      join.matchedRight.length ≤ maxEphemeralRows ∧
      (∀ scope ∈ join.joined, join.accepts scope = join.passesWhere join.matchedAt scope) ∧
      (join.loopRows.filter join.accepts).Pairwise join.SortsAlike := by
  have kept : ((join.ordered (join.buffered join.loopRows)).map Prod.fst).Perm
      (join.loopRows.filter join.accepts) := by
    apply ((ordered_perm _).map Prod.fst).trans
    unfold buffered
    rw [List.map_map]
    exact .of_eq (List.map_id _)
  have same : ((join.ordered (join.buffered join.loopRows)).map Prod.fst).Perm join.expected ↔
      ∀ scope ∈ join.joined, join.accepts scope = join.passesWhere join.matchedAt scope := by
    rw [kept.congr_left]
    unfold expected
    rw [filters_perm_iff loopRows_perm]
    exact forall_congr' fun scope => imp_congr_left loopRows_perm.mem_iff
  rw [run_eq]
  by_cases fits : join.matchedRight.length ≤ maxEphemeralRows
  · rw [if_pos fits]
    constructor
    · rintro ⟨rows, ran, equal, sorted⟩
      cases ran
      exact ⟨fits, same.mp equal, (ordered_pairwise_iff _).mp sorted⟩
    · rintro ⟨_, agree, alike⟩
      exact ⟨_, rfl, same.mpr agree, (ordered_pairwise_iff _).mpr alike⟩
  · rw [if_neg fits]
    constructor
    · rintro ⟨rows, ran, _⟩
      cases ran
    · rintro ⟨held, _⟩
      exact absurd held fits

end Exactness

section Example

/-- `a FULL JOIN b ON a.x = b.y WHERE a.x = ?` with 1 for the parameter, where the only row
of `a` has 1 and `b` has none. -/
def parameterInWhere : FullJoin SimpleOperator Empty ComparedValue where
  language := simpleLanguage fun number => if number = 1 then .integer 1 else .null
  read := ComparedValue.value
  bindings := [JoinedSelect.oneColumn "a" "x", JoinedSelect.oneColumn "b" "y"]
  left := [(1, [.integer 1])]
  right := []
  distinctRowids := List.nodup_nil
  constraint := some (JoinedSelect.columnEquals "a" "x" (.column none (some "b") "y"))
  whereClause := some (JoinedSelect.columnEquals "a" "x" (.param .anonymous))

/-- The row of `a` is compared with the second parameter, which is not bound, and lost. -/
theorem null_row_reads_second_parameter :
    ¬ ∃ rows, parameterInWhere.run = some rows ∧ rows.Perm parameterInWhere.expected ∧
      rows.Pairwise parameterInWhere.InOrder := by
  rintro ⟨rows, ran, same, _⟩
  have wanted : parameterInWhere.expected.length = 1 := by decide +kernel
  have given : parameterInWhere.run.map List.length = some 0 := by decide +kernel
  rw [ran, Option.map_some, Option.some.injEq, same.length_eq, wanted] at given
  cases given

end Example

end FullJoin

end SqliteRs
