import SqliteRs.IndexMirror
import SqliteRs.QueryExpr
import SqliteRs.SortedWalk
import SqliteRs.ValueOrder

/-!
Index cursors under a query. A search of an index b-tree lands in front of an
entry that is not less than the probe and behind one that is less; on entries in
key order that is one place. From there the instructions read leading columns,
rowids and table rows. What they meet is stated as filters of the table's rows.
-/

namespace SqliteRs

open List

/-- The searches of a file's index b-trees. Which place a search finds among
entries that are not in key order depends on how they lie in pages. -/
structure IndexSearch where
  seek : List (List Value) → List Value → List (List Value)
  lands : ∀ entries probe,
    LandsAt (fun key => compareKeys key probe == .lt) entries (seek entries probe)

section OnePage

def binarySearchPage (keys : List (List Value)) (target : List Value) : Nat → Nat → Nat → Nat
  | 0, lo, _ => lo
  | steps + 1, lo, hi =>
    if lo < hi then
      let mid := lo + (hi - lo) / 2
      if compareKeys (keys.getD mid []) target != .lt then
        binarySearchPage keys target steps lo mid
      else binarySearchPage keys target steps (mid + 1) hi
    else lo

theorem binarySearchPage_lands (keys : List (List Value)) (target : List Value)
    (steps lo hi : Nat) (enough : hi - lo ≤ steps) (window : lo ≤ hi) (inside : hi ≤ keys.length)
    (left : ∀ key, 0 < lo → keys[lo - 1]? = some key → compareKeys key target = .lt)
    (right : ∀ key, keys[hi]? = some key → compareKeys key target ≠ .lt) :
    ∃ place ≤ keys.length, binarySearchPage keys target steps lo hi = place ∧
      (∀ key, 0 < place → keys[place - 1]? = some key → compareKeys key target = .lt) ∧
      ∀ key, keys[place]? = some key → compareKeys key target ≠ .lt := by
  induction steps generalizing lo hi with
  | zero =>
    have closed : lo = hi := by omega
    subst closed
    exact ⟨lo, inside, rfl, left, right⟩
  | succ steps ih =>
    by_cases wide : lo < hi
    · have middle : lo + (hi - lo) / 2 < hi := by omega
      obtain ⟨key, here⟩ : ∃ key, keys[lo + (hi - lo) / 2]? = some key :=
        ⟨_, List.getElem?_eq_getElem (lt_of_lt_of_le middle inside)⟩
      by_cases reached : compareKeys key target = .lt
      · have taken : binarySearchPage keys target (steps + 1) lo hi =
            binarySearchPage keys target steps (lo + (hi - lo) / 2 + 1) hi := by
          simp [binarySearchPage, wide, here, reached]
        rw [taken]
        apply ih _ hi (by omega) (by omega) inside _ right
        intro other _ place
        rw [Nat.add_sub_cancel, here] at place
        rw [← Option.some.inj place]
        exact reached
      · have taken : binarySearchPage keys target (steps + 1) lo hi =
            binarySearchPage keys target steps lo (lo + (hi - lo) / 2) := by
          simp [binarySearchPage, wide, here, reached]
        rw [taken]
        apply ih lo _ (by omega) (by omega) (by omega) left
        intro other place
        rw [here] at place
        rw [← Option.some.inj place]
        exact reached
    · have closed : lo = hi := by omega
      subst closed
      refine ⟨lo, inside, ?_, left, right⟩
      simp [binarySearchPage]

def IndexSearch.onePage : IndexSearch where
  seek entries probe := entries.drop (binarySearchPage entries probe entries.length 0 entries.length)
  lands entries probe := by
    obtain ⟨place, inside, found, left, right⟩ := binarySearchPage_lands entries probe
      entries.length 0 entries.length (by omega) (by omega) le_rfl (by omega) (by simp)
    refine ⟨entries.take place, ?_, ?_, ?_⟩
    · rw [found, List.take_append_drop]
    · intro key last
      rw [List.getLast?_eq_getElem?, List.length_take, Nat.min_eq_left inside] at last
      rcases Nat.eq_zero_or_pos place with rfl | behind
      · simp at last
      · rw [List.getElem?_take_of_lt (by omega)] at last
        exact beq_iff_eq.mpr (left key behind last)
    · intro key head
      rw [found, List.head?_drop] at head
      simpa using right key head

end OnePage

section Entries

def leadingValue (key : List Value) : Value := key.headD .null

/-- The remaining entries from the first match on; none when the search meets no match. -/
def IndexSearch.seekEq (search : IndexSearch) (entries : List (List Value)) (value : Value)
    (collation : Collation) : List (List Value) :=
  match search.seek entries [value] with
  | [] => []
  | key :: rest =>
    if 1 < key.length ∧ (leadingValue key).compare value collation = .eq then key :: rest else []

def idxCompareGt (value : Value) (collation : Collation) (key : List Value) : Bool :=
  decide (1 < key.length) && (leadingValue key).compare value collation == .gt

def entryRowid (key : List Value) : Except QueryError Int :=
  match key.getLast? with
  | some (.integer rowid) => .ok rowid
  | _ => .error .malformedEntry

/-- The table row of an entry; an entry whose row is missing is passed over. -/
def Table.fetch (table : Table) (key : List Value) : Except QueryError (List (Int × Record)) := do
  let rowid ← entryRowid key
  return ((table.rows.get rowid).map fun record => (rowid, record)).toList

def Table.fetchAll (table : Table) : List (List Value) → Except QueryError (List (Int × Record))
  | [] => .ok []
  | key :: rest => do
      let here ← table.fetch key
      let later ← table.fetchAll rest
      return here ++ later

def Table.keyIn (table : Table) (index : IndexSchema) (row : Int × Record) : List Value :=
  table.schema.rowKey row.1 row.2 index

/-- An index with its entries in key order, each less than the ones behind it. The search
compares integers with reals by rounding them, so the leading columns must be values that
rounding does not bring together; integers among themselves always are. -/
structure Index.Ascends (index : Index) : Prop where
  sorted : index.entries.Pairwise fun left right => compareKeys left right = .lt
  ranked : ∀ key ∈ index.entries, ∀ other ∈ index.entries,
    (leadingValue key).Ranks (leadingValue other)

/-- A value that the search order and the match test place alike among an index's keys. -/
structure Index.Places (index : Index) (collation : Collation) (value : Value) : Prop where
  ranked : ∀ key ∈ index.entries, (leadingValue key).Ranks value
  agrees : ∀ key ∈ index.entries,
    (leadingValue key).compare value collation = (leadingValue key).compare value .binary

end Entries

section Order

variable {index : Index}

theorem place_null_le (value : Value) : Value.null.place ≤ value.place := by
  cases value with
  | null => exact le_rfl
  | _ => exact le_of_lt (Prod.Lex.toLex_lt_toLex.mpr (.inl (by simp)))

theorem Index.Ascends.leads (ascends : index.Ascends) : index.entries.Pairwise fun left right =>
      (leadingValue left).place ≤ (leadingValue right).place := by
  apply ascends.sorted.imp_of_mem
  intro left right leftIn rightIn less
  rcases left with _ | ⟨first, lefts⟩
  · rcases right with _ | ⟨second, rights⟩
    · cases less
    · exact place_null_le second
  rcases right with _ | ⟨second, rights⟩
  · cases less
  have rounded : compareValues first second = compare first.place second.place :=
    (ascends.ranked _ leftIn _ rightIn).rounded
  rw [compareKeys_cons, rounded] at less
  rcases Ordering.then_eq_lt.mp less with below | ⟨same, -⟩
  · exact le_of_lt ((place_agrees.lt _ _).mp below)
  · exact le_of_eq ((place_agrees.eq _ _).mp same)

theorem compareKeys_lead (key : List Value) (value : Value) (some : key ≠ [])
    (ranks : (leadingValue key).Ranks value) :
    (compareKeys key [value] == .lt) = decide ((leadingValue key).place < value.place) := by
  obtain ⟨first, rest, rfl⟩ := exists_cons_of_ne_nil some
  have rounded : compareValues first value = compare first.place value.place := ranks.rounded
  rw [compareKeys_cons, rounded, Bool.eq_iff_iff, beq_iff_eq, decide_eq_true_iff,
    Ordering.then_eq_lt, place_agrees.lt]
  constructor
  · rintro (below | ⟨-, behind⟩)
    · exact below
    · cases rest <;> cases behind
  · exact .inl

variable (search : IndexSearch) {coll : Collation} {value : Value}

theorem Index.Ascends.seek (ascends : index.Ascends) (some : ∀ key ∈ index.entries, key ≠ [])
    (ranked : ∀ key ∈ index.entries, (leadingValue key).Ranks value) :
    search.seek index.entries [value] =
      index.entries.filter fun key => decide (value.place ≤ (leadingValue key).place) := by
  have below : ∀ key ∈ index.entries,
      (compareKeys key [value] == .lt) = decide ((leadingValue key).place < value.place) :=
    fun key mem => compareKeys_lead key value (some key mem) (ranked key mem)
  have downward : Downward (fun key => compareKeys key [value] == .lt) index.entries := by
    apply ascends.leads.imp_of_mem
    intro left right leftIn rightIn ordered less
    simp only [below right rightIn, below left leftIn, decide_eq_true_iff] at less ⊢
    exact lt_of_le_of_lt ordered less
  rw [(search.lands index.entries [value]).filter downward]
  apply filter_congr
  intro key mem
  rw [below key mem, Bool.eq_iff_iff]
  simp

theorem Index.Places.eq_iff (places : index.Places coll value) {key : List Value}
    (mem : key ∈ index.entries) : (leadingValue key).compare value coll = .eq ↔
      (leadingValue key).place = value.place := by
  rw [places.agrees key mem]
  exact (places.ranked key mem).place_eq

theorem Index.Places.gt_iff (places : index.Places coll value) {key : List Value}
    (mem : key ∈ index.entries) : (leadingValue key).compare value coll = .gt ↔
      value.place < (leadingValue key).place := by
  rw [places.agrees key mem, (places.ranked key mem).exact, ← place_agrees.lt]
  exact Std.OrientedCmp.gt_iff_lt

theorem Index.Ascends.seekEq (ascends : index.Ascends) (long : ∀ key ∈ index.entries, 1 < key.length)
    (places : index.Places coll value) :
    search.seekEq index.entries value coll =
      if (index.entries.filter fun key =>
          (leadingValue key).compare value coll == .eq) = [] then []
      else (index.entries.filter fun key => (leadingValue key).compare value coll == .eq) ++
        index.entries.filter fun key => decide (value.place < (leadingValue key).place) := by
  have some : ∀ key ∈ index.entries, key ≠ [] := by
    rintro key mem rfl
    cases long [] mem
  -- What the search reaches is cut by whether an entry is at the value or above it.
  have reached := ascends.seek search some places.ranked
  have downward : Downward (fun key => decide ((leadingValue key).place ≤ value.place))
      (index.entries.filter fun key => decide (value.place ≤ (leadingValue key).place)) := by
    apply (ascends.leads.filter _).imp
    intro left right ordered below
    rw [decide_eq_true_iff] at below ⊢
    exact le_trans ordered below
  have cut := downward_split downward
  have matching : ((index.entries.filter fun key =>
      decide (value.place ≤ (leadingValue key).place)).filter fun key => decide ((leadingValue key).place ≤ value.place)) =
      index.entries.filter fun key => (leadingValue key).compare value coll == .eq := by
    rw [filter_filter]
    apply filter_congr
    intro key mem
    rw [Bool.eq_iff_iff, beq_iff_eq, places.eq_iff mem, Bool.and_eq_true,
      decide_eq_true_iff, decide_eq_true_iff, le_antisymm_iff]
  have above : ((index.entries.filter fun key => decide (value.place ≤ (leadingValue key).place)).filter
      fun key => !decide ((leadingValue key).place ≤ value.place)) =
      index.entries.filter fun key => decide (value.place < (leadingValue key).place) := by
    rw [filter_filter]
    apply filter_congr
    intro key _
    rw [Bool.eq_iff_iff]
    simp only [Bool.and_eq_true, Bool.not_eq_true', decide_eq_false_iff_not, decide_eq_true_iff, not_le]
    exact ⟨And.left, fun less => ⟨less, le_of_lt less⟩⟩
  rw [matching, above] at cut
  rw [IndexSearch.seekEq, reached, cut]
  cases first : index.entries.filter fun key => (leadingValue key).compare value coll == .eq with
  | nil =>
    cases behind : index.entries.filter fun key => decide (value.place < (leadingValue key).place) with
    | nil => rfl
    | cons key rest =>
      have mem : key ∈ key :: rest := .head _
      rw [← behind, mem_filter, decide_eq_true_iff] at mem
      have unequal : ¬ (leadingValue key).compare value coll = .eq := by
        rw [places.eq_iff mem.1]
        exact ne_of_gt mem.2
      simp [unequal]
  | cons key rest =>
    have mem : key ∈ key :: rest := .head _
    rw [← first, mem_filter, beq_iff_eq] at mem
    simp [long key mem.1, mem.2]

section Integers

def Value.isInteger : Value → Bool
  | .integer _ => true
  | _ => false

theorem Value.ranks_of_integers {left right : Value} (one : left.isInteger = true)
    (other : right.isInteger = true) : left.Ranks right := by
  cases left with
  | integer first =>
    cases right with
    | integer second => exact Value.ranks_integers first second
    | _ => cases other
  | _ => cases one

theorem Index.ascends_of_integers
    (sorted : index.entries.Pairwise fun left right => compareKeys left right = .lt)
    (whole : ∀ key ∈ index.entries, (leadingValue key).isInteger = true) : index.Ascends :=
  ⟨sorted, fun key keyIn other otherIn =>
    Value.ranks_of_integers (whole key keyIn) (whole other otherIn)⟩

theorem Index.places_of_integers
    (whole : ∀ key ∈ index.entries, (leadingValue key).isInteger = true)
    (probe : value.isInteger = true) : index.Places coll value := by
  refine ⟨fun key mem => Value.ranks_of_integers (whole key mem) probe, fun key mem => ?_⟩
  have here := whole key mem
  generalize leadingValue key = lead at here ⊢
  cases lead with
  | integer =>
    cases value with
    | integer => rfl
    | _ => cases probe
  | _ => cases here

end Integers

end Order

section Rows

variable {table : Table} {index : Index} {keyOf : Int × Record → List Value}

/-- A stored value as its column is read: a REAL column converts it. -/
def TableSchema.asRead (schema : TableSchema) (position : Nat) (stored : Value) : Value :=
  if schema.rowidAlias ≠ some position ∧ schema.affinities[position]? = some .real then
    applyAffinity .real stored
  else stored

/-- An entry that stands for a row: values that are read as the row's columns, then the rowid.
A REAL column may hold the integer that SQLite writes for a whole number. -/
def Table.StandsFor (table : Table) (index : IndexSchema) (key : List Value)
    (row : Int × Record) : Prop :=
  ∃ stored, key = stored ++ [.integer row.1] ∧ Forall₂ (fun column value =>
    table.schema.asRead column.position value =
      table.schema.readColumn row.1 row.2 column.position) index.columns stored

/-- An index with one entry for each row. -/
structure Table.Fills (table : Table) (index : Index) (keyOf : Int × Record → List Value) :
    Prop where
  entries : index.entries.Perm (table.rows.entries.map keyOf)
  keys : ∀ row ∈ table.rows.entries, table.StandsFor index.schema (keyOf row) row

/-- Whether an entry carries the rowid of a row. -/
def namesRow (row : Int × Record) (key : List Value) : Bool :=
  key.getLast? == some (.integer row.1)

theorem applyAffinity_real_twice (value : Value) :
    applyAffinity .real (applyAffinity .real value) = applyAffinity .real value := by
  have kept := textToNumber_idem value
  simp only [applyAffinity]
  cases converted : textToNumber value with
  | text chars =>
    rw [converted] at kept
    simp [forceReal, kept]
  | _ => rfl

theorem TableSchema.asRead_readColumn (schema : TableSchema) (rowid : Int) (record : Record)
    (pos : Nat) :
    schema.asRead pos (schema.readColumn rowid record pos) = schema.readColumn rowid record pos := by
  unfold asRead
  split
  · rename_i real
    simp only [readColumn, real.1, if_false, readRecord, real.2, if_true, applyAffinity_real_twice]
  · rfl

theorem TableSchema.asRead_null (schema : TableSchema) (pos : Nat) (stored : Value) :
    schema.asRead pos stored = .null ↔ stored = .null := by
  unfold asRead
  split
  swap
  · rfl
  cases stored with
  | text chars =>
    refine iff_of_false ?_ (by simp)
    cases parsed : parseWellFormedNumber chars with
    | none => simp [applyAffinity, textToNumber, parsed, forceReal]
    | some number =>
      have rank := parseWellFormedNumber_rank chars number parsed
      cases number with
      | null => cases rank
      | _ => simp [applyAffinity, textToNumber, parsed, forceReal]
  | _ => simp [applyAffinity, textToNumber, forceReal]

theorem Table.Mirrors.fills (mirrors : table.Mirrors) (mem : index ∈ table.indexes) :
    table.Fills index (table.keyIn index.schema) := by
  refine ⟨mirrors index mem, fun row _ => ⟨_, rfl, ?_⟩⟩
  rw [forall₂_map_right_iff, forall₂_same]
  exact fun column _ => table.schema.asRead_readColumn row.1 row.2 column.position

theorem Table.Fills.ordered (filled : table.Fills index keyOf) :
    ∃ ordered : List (Int × Record), ordered.Perm table.rows.entries ∧
      index.entries = ordered.map keyOf :=
  perm_map_preimage filled.entries

theorem Table.Fills.mem (filled : table.Fills index keyOf) {row : Int × Record}
    (inside : row ∈ table.rows.entries) : keyOf row ∈ index.entries :=
  filled.entries.mem_iff.mpr (mem_map_of_mem inside)

theorem Table.Fills.long (filled : table.Fills index keyOf)
    (leading : index.schema.columns ≠ []) : ∀ key ∈ index.entries, 1 < key.length := by
  intro key inside
  obtain ⟨row, rowIn, rfl⟩ := mem_map.mp (filled.entries.mem_iff.mp inside)
  obtain ⟨stored, same, held⟩ := filled.keys row rowIn
  have positive := length_pos_iff.mpr leading
  rw [same, length_append, ← held.length_eq, length_singleton]
  omega

section Entry

variable (filled : table.Fills index keyOf) {row : Int × Record}
  (inside : row ∈ table.rows.entries)
include filled inside

theorem Table.Fills.last : (keyOf row).getLast? = some (.integer row.1) := by
  obtain ⟨stored, same, -⟩ := filled.keys row inside
  rw [same, getLast?_concat]

theorem Table.Fills.rowid : entryRowid (keyOf row) = .ok row.1 := by
  rw [entryRowid, filled.last inside]

theorem Table.Fills.column {pos : Nat} {column : IndexedColumn}
    (here : index.schema.columns[pos]? = some column) :
    table.schema.asRead column.position ((keyOf row).getD pos .null) =
      table.schema.readColumn row.1 row.2 column.position := by
  obtain ⟨stored, same, held⟩ := filled.keys row inside
  obtain ⟨within, there⟩ := List.getElem?_eq_some_iff.mp here
  have place : pos < stored.length := held.length_eq ▸ within
  have value := held.get within place
  rw [same, getD_eq_getElem?_getD, getElem?_append_left place, getElem?_eq_getElem place]
  simpa [there] using value

theorem Table.Fills.fetch : table.fetch (keyOf row) = .ok [row] := by
  have found := (table.mem_entries_iff row).mp inside
  simp [Table.fetch, filled.rowid inside, found]

theorem Table.Fills.namesRow_iff {other : Int × Record} (otherIn : other ∈ table.rows.entries) :
    namesRow other (keyOf row) = true ↔ row = other := by
  rw [namesRow, filled.last inside, beq_iff_eq, Option.some.injEq, Value.integer.injEq]
  constructor
  · intro rowid
    have one := (table.mem_entries_iff row).mp inside
    have two := (table.mem_entries_iff other).mp otherIn
    rw [rowid, two] at one
    exact Prod.ext rowid (Option.some.inj one).symm
  · rintro rfl
    rfl

end Entry

theorem Table.Fills.fetchAll (filled : table.Fills index keyOf) {rows : List (Int × Record)}
    (inside : ∀ row ∈ rows, row ∈ table.rows.entries) :
    table.fetchAll (rows.map keyOf) = .ok rows := by
  induction rows with
  | nil => rfl
  | cons row rest ih =>
    rw [map_cons, Table.fetchAll, filled.fetch (inside row (.head _)),
      ih fun other mem => inside other (.tail _ mem)]
    rfl

theorem Table.rows_nodup : table.rows.entries.Nodup :=
  table.rows.ascending.imp fun less same => by rw [same] at less; exact lt_irrefl _ less

end Rows

section Answers

variable {table : Table} {Item : Type} {items : List Item} {wanted : List (Int × Record)}
  {rowsOf : Item → List (Int × Record)} {shownOf : Item → Int × Record → List Value}
  {shown : Int × Record → List Value}

def Table.answeredRow (table : Table) (answer : Option Value × List Value) : Int × Record :=
  match answer.1 with
  | some (.integer rowid) => (rowid, (table.rows.get rowid).getD [])
  | _ => (0, [])

theorem Table.answeredRow_map {rows : List (Int × Record)}
    (inside : ∀ row ∈ rows, row ∈ table.rows.entries) (shown : Int × Record → List Value) :
    (rows.map fun row => (some (.integer row.1), shown row)).map table.answeredRow = rows := by
  rw [map_map]
  conv_rhs => rw [← map_id rows]
  apply map_congr_left
  intro row mem
  have found := (table.mem_entries_iff row).mp (inside row mem)
  simp [answeredRow, found]

/-- Rows that are gathered in parts, each shown in its own way, are the wanted answers when
the rows are and each part shows its rows as wanted: an answer carries the rowid of its row. -/
theorem Table.answers_perm_iff
    (rowsIn : ∀ item ∈ items, ∀ row ∈ rowsOf item, row ∈ table.rows.entries)
    (wantedIn : ∀ row ∈ wanted, row ∈ table.rows.entries) :
    (items.flatMap fun item => (rowsOf item).map fun row =>
        (some (Value.integer row.1), shownOf item row)).Perm
      (wanted.map fun row => (some (.integer row.1), shown row)) ↔
      (items.flatMap rowsOf).Perm wanted ∧
        ∀ item ∈ items, ∀ row ∈ rowsOf item, shownOf item row = shown row := by
  constructor
  · intro perm
    constructor
    · have rows := perm.map table.answeredRow
      rw [table.answeredRow_map wantedIn, map_flatMap] at rows
      rwa [flatMap_congr fun item mem => table.answeredRow_map (rowsIn item mem) _] at rows
    · intro item mem row met
      have answered := perm.mem_iff.mp
        (mem_flatMap.mpr ⟨item, mem, mem_map_of_mem met⟩)
      obtain ⟨other, otherIn, same⟩ := mem_map.mp answered
      obtain ⟨rowid, values⟩ := Prod.mk.inj same
      have rowid : other.1 = row.1 := Value.integer.inj (Option.some.inj rowid)
      have found := (table.mem_entries_iff row).mp (rowsIn item mem row met)
      have there := (table.mem_entries_iff other).mp (wantedIn other otherIn)
      rw [rowid, found] at there
      rw [← values, Prod.ext rowid (Option.some.inj there).symm]
  · rintro ⟨perm, same⟩
    have alike : (items.flatMap fun item => (rowsOf item).map fun row =>
        (some (Value.integer row.1), shownOf item row)) =
        (items.flatMap rowsOf).map fun row => (some (.integer row.1), shown row) := by
      rw [map_flatMap]
      apply flatMap_congr
      intro item mem
      apply map_congr_left
      intro row met
      rw [same item mem row met]
    rw [alike]
    exact perm.map _

theorem Table.answers_map_iff {rows : List (Int × Record)} {shownOf : Int × Record → List Value}
    (rowsIn : ∀ row ∈ rows, row ∈ table.rows.entries)
    (wantedIn : ∀ row ∈ wanted, row ∈ table.rows.entries) :
    (rows.map fun row => (some (Value.integer row.1), shownOf row)).Perm
        (wanted.map fun row => (some (.integer row.1), shown row)) ↔
      rows.Perm wanted ∧ ∀ row ∈ rows, shownOf row = shown row := by
  have single := @answers_perm_iff table Unit [()] wanted (fun _ => rows) (fun _ => shownOf) shown
    (fun _ _ => rowsIn) wantedIn
  simpa using single

end Answers

end SqliteRs
