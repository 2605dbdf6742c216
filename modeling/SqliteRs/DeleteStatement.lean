import SqliteRs.CursorReading
import SqliteRs.IndexArea
import SqliteRs.RowLoops
import SqliteRs.RowStore

/-!
The DELETE statement. A condition that is one comparison of the rowid with an
integer or a parameter is answered by a seek; every other statement scans the
table and deletes the rows as it goes, so that subqueries of its condition over
the same table see it with the earlier rows already gone. The theorem says when
this is the statement's meaning: the rows left are those for which the condition
was not true at the start.
-/

namespace SqliteRs

open List LeafCell Pages

inductive StatementError where
  | btree (error : BtreeError)
  | expression
  | constraint
  | seekNotInteger
  | tooManySteps

/-- A side of a comparison, as far as the choice of an access path looks at it. -/
inductive Operand where
  | column (name : String)
  | integer (value : Int)
  | parameter (value : Value)
  | other

/-- A condition: the sides of its `=` when it is nothing but a comparison, and
whether it is true of a row while the table holds certain rows. -/
structure WhereClause (ρ : Type) where
  equality : Option (Operand × Operand) := none
  holds : List (Int × ρ) → Int × ρ → Except StatementError Bool

/-- The b-trees that a statement writes: the table, and each index with its key for a row. -/
structure TableAccess (ρ κ : Type) where
  root : Nat
  indexes : List (Nat × (Int × ρ → κ)) := []

structure DeleteStatement (ρ κ : Type) extends TableAccess ρ κ where
  seek : Option Value
  holds : List (Int × ρ) → Int × ρ → Except StatementError Bool

section Compile

namespace TableSchema

variable (schema : TableSchema)

def isRowidReference : Operand → Bool
  | .column name => schema.isRowidReferenceName name
  | _ => false

def rowidSeekOperand (lhs rhs : Operand) : Option Value :=
  let operand := if schema.isRowidReference lhs then some rhs
    else if schema.isRowidReference rhs then some lhs else none
  match operand with
  | some (.integer value) => some (.integer value)
  | some (.parameter value) => some value
  | _ => none

def compileDelete (clause : Option (WhereClause Record)) (root : Nat)
    (indexes : List (IndexSchema × Nat)) : DeleteStatement Record (List Value) where
  root := root
  indexes := indexes.map fun (index, page) =>
    (page, fun (rowid, record) => schema.rowKey rowid record index)
  seek := do
    let (lhs, rhs) ← (← clause).equality
    schema.rowidSeekOperand lhs rhs
  holds := match clause with
    | none => fun _ _ => .ok true
    | some clause => clause.holds

end TableSchema

end Compile

section Run

variable {ρ κ : Type} [DecidableEq ρ] (geom : Geometry) (compareKeys : κ → κ → Ordering)
  (torn : ρ)

namespace Pages

def collectRows (pages : Pages ρ κ) :
    Nat → Option (LeafCell ρ × TableCursor ρ) → Except StatementError (List (Int × ρ))
  | _, none => .ok []
  | 0, some _ => .error .tooManySteps
  | rounds + 1, some (cell, cursor) =>
    match pages.next cursor with
    | .error error => .error (.btree error)
    | .ok upcoming =>
      match pages.collectRows rounds upcoming with
      | .error error => .error error
      | .ok rows => .ok (pages.currentRow torn cell :: rows)

def scanRows (pages : Pages ρ κ) (rounds root : Nat) : Except StatementError (List (Int × ρ)) :=
  match pages.first root with
  | .error error => .error (.btree error)
  | .ok upcoming => pages.collectRows torn rounds upcoming

def deleteKeys (row : Int × ρ) :
    List (Nat × (Int × ρ → κ)) → Pages ρ κ → Except StatementError (Pages ρ κ)
  | [], pages => .ok pages
  | (root, key) :: rest, pages =>
    match pages.deleteEntry geom compareKeys root (key row) with
    | .error error => .error (.btree error)
    | .ok pages => deleteKeys row rest pages

def deleteCurrent (access : TableAccess ρ κ) (row : Int × ρ) (pages : Pages ρ κ) :
    Except StatementError (Pages ρ κ) :=
  match deleteKeys geom compareKeys row access.indexes pages with
  | .error error => .error error
  | .ok pages =>
    match pages.deleteRow geom access.root row.1 with
    | .error error => .error (.btree error)
    | .ok pages => .ok pages

end Pages

namespace DeleteStatement

variable (statement : DeleteStatement ρ κ)

def visit (rounds : Nat) (row : Int × ρ) (pages : Pages ρ κ) : Except StatementError (Pages ρ κ) :=
  match pages.scanRows torn rounds statement.root with
  | .error error => .error error
  | .ok rows =>
    match statement.holds rows row with
    | .error error => .error error
    | .ok true => pages.deleteCurrent geom compareKeys statement.toTableAccess row
    | .ok false => .ok pages

def scan (limit : Nat) : Nat → Option (LeafCell ρ × TableCursor ρ) → Pages ρ κ →
    Except StatementError (Pages ρ κ)
  | _, none, pages => .ok pages
  | 0, some _, _ => .error .tooManySteps
  | rounds + 1, some (cell, cursor), pages =>
    match statement.visit geom compareKeys torn limit (pages.currentRow torn cell) pages with
    | .error error => .error error
    | .ok pages =>
      match pages.next cursor with
      | .error error => .error (.btree error)
      | .ok upcoming => scan limit rounds upcoming pages

def run (limit : Nat) (pages : Pages ρ κ) : Except StatementError (Pages ρ κ) :=
  match statement.seek with
  | some (.integer rowid) =>
    match pages.seek statement.root rowid with
    | .error error => .error (.btree error)
    | .ok none => .ok pages
    | .ok (some cell) => pages.deleteCurrent geom compareKeys statement.toTableAccess
        (pages.currentRow torn cell)
  | some _ => .error .seekNotInteger
  | none =>
    match pages.first statement.root with
    | .error error => .error (.btree error)
    | .ok upcoming => statement.scan geom compareKeys torn limit limit upcoming pages

end DeleteStatement

end Run

section Rows

variable {ρ κ : Type} {geom : Geometry} {compareKeys : κ → κ → Ordering}
  {area : Nat → Prop} {pages next start : Pages ρ κ} {root : Nat} {used : List Nat}
  {cells : List (LeafCell ρ)}

def LeafCell.row (cell : LeafCell ρ) : Int × ρ := (cell.rowid, cell.payload)

namespace Pages

theorem Reads.intact {spans : List Span} (reads : pages.Reads spans used cells) :
    ∀ cell ∈ cells, pages.Intact cell := by
  induction reads with
  | nil => exact fun cell mem => nomatch mem
  | leaf _ intact _ _ ih =>
    intro cell mem
    rcases mem_append.mp mem with here | later
    · exact intact cell here
    · exact ih cell later
  | node _ _ _ ih => exact ih

theorem Closed.of_kept {inside : Nat → Prop} {held : LeafCell ρ → Prop}
    (closed : start.Closed inside held)
    (kept : ∀ page, inside page → KeptOrFreed start pages page) : pages.Closed inside held := by
  have content : ∀ page, inside page → ∀ content, content ≠ .trunk →
      pages.content page = content → start.content page = content := by
    intro page mem content other here
    rcases kept page mem with same | trunk
    · exact same.symm.trans here
    · exact absurd (here.symm.trans trunk) other
  constructor
  · intro page layout rightmost mem here
    exact closed.interior page layout rightmost mem (content page mem _ nofun here)
  · intro page layout mem here
    exact closed.leaf page layout mem (content page mem _ nofun here)

variable [DecidableEq ρ] {torn : ρ}

theorem Intact.currentRow {cell : LeafCell ρ} (intact : pages.Intact cell) :
    pages.currentRow torn cell = cell.row := by
  have whole : (cell.overflow.zipIdx.all fun held =>
      pages.holdsPart cell.payload held.1 held.2) = true := by
    rw [all_eq_true]
    rintro ⟨page, part⟩ mem
    have held := intact part page (mem_zipIdx_iff_getElem?.mp mem)
    simp [holdsPart, held]
  rw [Pages.currentRow, currentPayload, if_pos whole]
  rfl

theorem collectRows_reads (rounds : Nat)
    {upcoming : Option (LeafCell ρ × TableCursor ρ)} {rows : List (Int × ρ)}
    (intact : ∀ cell ∈ cells, pages.Intact cell) (pos : pages.CursorAt used cells upcoming)
    (done : pages.collectRows torn rounds upcoming = .ok rows) : rows = cells.map row := by
  induction rounds generalizing upcoming rows cells with
  | zero =>
    cases upcoming with
    | none =>
      cases done
      rw [pos]
      rfl
    | some found => cases done
  | succ rounds ih =>
    cases upcoming with
    | none =>
      cases done
      rw [pos]
      rfl
    | some found =>
      obtain ⟨later, rest, rfl, inside, reads⟩ := pos
      simp only [collectRows] at done
      split at done
      · cases done
      rename_i upcoming advanced
      split at done
      · cases done
      rename_i rows collected
      cases done
      have onward := reads.advance _ (fun page _ => .inl rfl) advanced
      have read := ih (fun cell mem => intact cell (.tail _ mem)) (onward.mono inside) collected
      rw [read, (intact _ (.head _)).currentRow]
      rfl

theorem HoldsTable.scanRows (table : pages.HoldsTable root used cells) {rounds : Nat}
    {rows : List (Int × ρ)} (done : pages.scanRows torn rounds root = .ok rows) :
    rows = cells.map row := by
  unfold Pages.scanRows at done
  split at done
  · cases done
  · rename_i upcoming found
    exact collectRows_reads rounds table.reads.intact (table.first found) done

end Pages

end Rows

section Exact

variable {ρ κ : Type} {geom : Geometry} {compareKeys : κ → κ → Ordering}
  {area : Nat → Prop} {pages next start : Pages ρ κ} {used : List Nat} {cells : List (LeafCell ρ)}

namespace Pages

theorem deleteKeys_confined {row : Int × ρ} {indexes : List (Nat × (Int × ρ → κ))}
    {pages : Pages ρ κ} (own : pages.IndexArea area) (roots : ∀ index ∈ indexes, area index.1)
    (done : deleteKeys geom compareKeys row indexes pages = .ok next) : Confined area pages next := by
  induction indexes generalizing pages with
  | nil =>
    cases done
    exact own.refl
  | cons index rest ih =>
    simp only [deleteKeys] at done
    split at done
    · cases done
    rename_i deleted
    have first := own.deleteEntry (roots index (.head _)) deleted
    exact first.trans (ih first.within (fun other mem => roots other (.tail _ mem)) done)

theorem HoldsTable.deleteCurrent {access : TableAccess ρ κ} {row : Int × ρ}
    (table : pages.HoldsTable access.root used cells) (own : pages.IndexArea area)
    (apart : ∀ page ∈ used, ¬ area page) (roots : ∀ index ∈ access.indexes, area index.1)
    (done : pages.deleteCurrent geom compareKeys access row = .ok next) :
    (∃ whole ⊆ used, next.HoldsTable access.root whole (withoutRow row.1 cells)) ∧
      next.IndexArea area ∧ ∀ {inside : Nat → Prop} {held : LeafCell ρ → Prop},
        pages.Closed inside held → (∀ page, inside page → ¬ area page) →
        (∀ cell, held cell → cell.rowid ≠ row.1) →
        ∀ page, inside page → KeptOrFreed pages next page := by
  unfold Pages.deleteCurrent at done
  split at done
  · cases done
  rename_i cleared indexed
  have confined := deleteKeys_confined own roots indexed
  split at done
  · cases done
  rename_i deleted
  cases done
  have kept : ∀ page, ¬ area page → KeptOrFreed pages cleared page :=
    fun page other => .inl (confined.outside page other)
  obtain ⟨⟨whole, fewer, smaller, _⟩, same⟩ := (table.congr fun page mem =>
    confined.outside page (apart page mem)).deleteRow deleted
  refine ⟨⟨whole, fewer, smaller⟩, ?_, fun closed outside absent page mem => ?_⟩
  · exact confined.within.congr fun page mem =>
      same page fun listed => apart page listed mem
  · have still := closed.of_kept fun page mem => kept page (outside page mem)
    exact (kept page (outside page mem)).trans (deleteRow_keeps still absent deleted mem)

end Pages

theorem withoutRow_middle {kept later : List (LeafCell ρ)} {cell : LeafCell ρ}
    (asc : (kept ++ cell :: later).Pairwise fun first second => first.rowid < second.rowid) :
    withoutRow cell.rowid (kept ++ cell :: later) = kept ++ later := by
  obtain ⟨_, pending, across⟩ := pairwise_append.mp asc
  have before : ∀ other ∈ kept, other.rowid < cell.rowid :=
    fun other mem => across other mem cell (.head _)
  have middle : kept ++ cell :: later = kept ++ [cell] ++ later := by simp
  rw [middle, withoutRow_between before (pairwise_cons.mp pending).1]
  simp [withoutRow]

namespace DeleteStatement

variable {statement : DeleteStatement ρ κ}

def isTrue (statement : DeleteStatement ρ κ) (rows : List (Int × ρ)) (row : Int × ρ) : Bool :=
  match statement.holds rows row with
  | .ok answer => answer
  | .error _ => false

theorem isTrue_of_ok {rows : List (Int × ρ)} {row : Int × ρ} {answer : Bool}
    (evaluated : statement.holds rows row = .ok answer) : statement.isTrue rows row = answer := by
  rw [isTrue, evaluated]

variable [DecidableEq ρ] {torn : ρ}

theorem visit_rows {fewer : List Nat} {stack : List (Frame ρ)} {kept later : List (LeafCell ρ)}
    {cell : LeafCell ρ} {limit : Nat} (roots : ∀ index ∈ statement.indexes, area index.1)
    (table : pages.HoldsTable statement.root used (kept ++ cell :: later))
    (apart : ∀ page ∈ used, ¬ area page) (own : pages.IndexArea area)
    (reads : start.StackReads stack fewer later) (outside : ∀ page ∈ fewer, ¬ area page)
    (stored : ∀ page ∈ fewer, KeptOrFreed start pages page)
    (done : statement.visit geom compareKeys torn limit (pages.currentRow torn cell) pages = .ok next) :
    ∃ left, deleteLive statement.isTrue (kept.map row) (cell.row :: later.map row) =
        deleteLive statement.isTrue (left.map row) (later.map row) ∧
      (∃ whole ⊆ used, next.HoldsTable statement.root whole (left ++ later)) ∧
      next.IndexArea area ∧ ∀ page ∈ fewer, KeptOrFreed start next page := by
  have intact := table.reads.intact cell (mem_append_right _ (.head _))
  rw [intact.currentRow] at done
  unfold visit at done
  split at done
  · cases done
  rename_i rows scanned
  have live : rows = kept.map row ++ cell.row :: later.map row := by
    rw [table.scanRows scanned, map_append]
    rfl
  rw [live] at done
  rw [deleteLive_cons]
  split at done
  · cases done
  · rename_i answer
    rw [isTrue_of_ok answer]
    obtain ⟨smaller, within, keeps⟩ := table.deleteCurrent own apart roots done
    rw [show cell.row.1 = cell.rowid from rfl, withoutRow_middle table.ascending] at smaller
    refine ⟨kept, if_pos rfl, smaller, within, fun page mem => ?_⟩
    have closed := reads.closed.of_kept stored
    have absent : ∀ other ∈ later, other.rowid ≠ cell.rowid := by
      intro other mem
      have pending := (pairwise_append.mp table.ascending).2.1
      exact ((pairwise_cons.mp pending).1 other mem).ne'
    exact (stored page mem).trans (keeps closed outside absent page mem)
  · rename_i answer
    rw [isTrue_of_ok answer]
    cases done
    refine ⟨kept ++ [cell], ?_, ⟨used, Subset.refl _, ?_⟩, own, stored⟩
    · rw [map_append]
      exact if_neg Bool.false_ne_true
    · rw [append_assoc]
      exact table

theorem scan_rows {orig rest : List Nat} {kept pending : List (LeafCell ρ)} {limit : Nat}
    (rounds : Nat) {upcoming : Option (LeafCell ρ × TableCursor ρ)} {pages : Pages ρ κ}
    (roots : ∀ index ∈ statement.indexes, area index.1) (apart : ∀ page ∈ orig, ¬ area page)
    (table : ∃ used ⊆ orig, pages.HoldsTable statement.root used (kept ++ pending))
    (own : pages.IndexArea area) (pos : start.CursorAt rest pending upcoming)
    (inside : rest ⊆ orig) (stored : ∀ page ∈ rest, KeptOrFreed start pages page)
    (done : statement.scan geom compareKeys torn limit rounds upcoming pages = .ok next) :
    ∃ whole final, next.HoldsTable statement.root whole final ∧ final.map row =
        deleteLive statement.isTrue (kept.map row) (pending.map row) := by
  obtain ⟨used, uses, held⟩ := table
  induction rounds generalizing upcoming pages kept pending rest used
  all_goals cases upcoming
  case zero.none | succ.none =>
    cases done
    cases (pos : pending = [])
    rw [append_nil] at held
    exact ⟨used, kept, held, rfl⟩
  case zero.some => cases done
  case succ.some rounds ih found =>
    obtain ⟨later, fewer, rfl, least, reads⟩ := pos
    simp only [scan] at done
    split at done
    · cases done
    rename_i after visited
    obtain ⟨left, same, ⟨whole, smaller, remaining⟩, within, still⟩ := visit_rows roots held
      (fun page mem => apart page (uses mem)) own reads
      (fun page mem => apart page (inside (least mem)))
      (fun page mem => stored page (least mem)) visited
    split at done
    · cases done
    rename_i upcoming advanced
    rw [map_cons, same]
    exact ih within (reads.advance _ still advanced) (Subset.trans least inside)
      still done whole (Subset.trans smaller uses) remaining

end DeleteStatement

end Exact

section Claim

variable {ρ κ : Type} {geom : Geometry} {compareKeys : κ → κ → Ordering}
  {area : Nat → Prop} {pages next : Pages ρ κ} {root : Nat} {used : List Nat}
  {cells : List (LeafCell ρ)}

namespace Pages

def TableRows (pages : Pages ρ κ) (root : Nat) (rows : List (Int × ρ)) : Prop :=
  ∃ used cells, pages.HoldsTable root used cells ∧ cells.map LeafCell.row = rows

theorem Reads.unique {spans : List Span} {otherUsed : List Nat} {others : List (LeafCell ρ)}
    (reads : pages.Reads spans used cells) (again : pages.Reads spans otherUsed others) :
    others = cells := by
  induction reads generalizing otherUsed others with
  | nil =>
    cases again
    rfl
  | leaf here _ _ _ ih =>
    cases again with
    | leaf content _ _ later =>
      rw [here] at content
      cases content
      rw [ih later]
    | node content =>
      rw [here] at content
      cases content
  | node here _ _ ih =>
    cases again with
    | leaf content =>
      rw [here] at content
      cases content
    | node content _ later =>
      rw [here] at content
      cases content
      exact ih later

theorem HoldsTable.tableRows_iff (table : pages.HoldsTable root used cells) {rows : List (Int × ρ)} :
    pages.TableRows root rows ↔ cells.map row = rows := by
  constructor
  · rintro ⟨_, others, again, same⟩
    rw [← same, table.reads.unique again.reads]
  · exact fun same => ⟨used, cells, table, same⟩

theorem HoldsTable.seek (table : pages.HoldsTable root used cells) {rowid : Int}
    {found : Option (LeafCell ρ)} (done : pages.seek root rowid = .ok found) :
    (found = none → ∀ cell ∈ cells, cell.rowid ≠ rowid) ∧
      ∀ cell, found = some cell → cell ∈ cells ∧ cell.rowid = rowid := by
  unfold Pages.seek at done
  split at done
  · cases done
  rename_i leaf descended
  obtain ⟨hole, _, front, back, layout, rfl, admitted, path, content, _, _, rfl⟩ :=
    table.locate descended
  obtain ⟨before, after⟩ := path.ordered admitted
  simp only [content] at done
  cases done
  constructor
  · intro missing cell mem
    rcases mem_append.mp mem with near | later
    · rcases mem_append.mp near with early | here
      · exact (before cell early).ne
      · simpa using List.find?_eq_none.mp missing cell here
    · exact (after cell later).ne'
  · intro cell sought
    constructor
    · exact mem_append_left _ (mem_append_right _ (mem_of_find?_eq_some sought))
    · have named := List.find?_some sought
      exact beq_iff_eq.mp named

end Pages

theorem withoutRow_rows (rowid : Int) : (withoutRow rowid cells).map row =
      (cells.map row).filter fun row => !decide (row.1 = rowid) := by
  rw [filter_map]
  congr 1
  apply filter_congr
  intro cell _
  exact decide_not

theorem filter_eq_iff {Row : Type} {rows : List Row} {first second : Row → Bool} :
    rows.filter first = rows.filter second ↔ ∀ row ∈ rows, first row = second row := by
  constructor
  · intro same row mem
    have either : row ∈ rows.filter first ↔ row ∈ rows.filter second := by rw [same]
    rw [mem_filter, mem_filter] at either
    exact Bool.eq_iff_iff.mpr ⟨fun yes => (either.mp ⟨mem, yes⟩).2,
      fun yes => (either.mpr ⟨mem, yes⟩).2⟩
  · exact filter_congr

/-- A table and its indexes as a statement needs them: page 1 belongs to the
schema table, and no page is shared. -/
structure TableAccess.WellFormed (access : TableAccess ρ κ) (pages : Pages ρ κ) (area : Nat → Prop)
    (used : List Nat) (cells : List (LeafCell ρ)) : Prop where
  table : pages.HoldsTable access.root used cells
  notFirst : access.root ≠ 1
  index : pages.IndexArea area
  roots : ∀ index ∈ access.indexes, area index.1
  apart : ∀ page ∈ used, ¬ area page

namespace DeleteStatement

/-- A scan is faithful when no answer changes with the rows deleted before; a
seek when the condition is true of exactly the rows with the sought rowid. -/
def Faithful (statement : DeleteStatement ρ κ) (rows : List (Int × ρ)) : Prop :=
  match statement.seek with
  | none => AnswersStable statement.isTrue rows
  | some (.integer rowid) => ∀ row ∈ rows, statement.isTrue rows row = decide (row.1 = rowid)
  | some _ => True

theorem seek_survivors_iff (statement : DeleteStatement ρ κ) (rows : List (Int × ρ)) (rowid : Int) :
    (rows.filter fun row => !decide (row.1 = rowid)) = survivors statement.isTrue rows ↔
      ∀ row ∈ rows, statement.isTrue rows row = decide (row.1 = rowid) := by
  rw [survivors, filter_eq_iff]
  apply forall₂_congr
  intro row _
  rw [Bool.not_inj_iff]
  exact eq_comm

variable [DecidableEq ρ] {torn : ρ} {statement : DeleteStatement ρ κ} {limit : Nat}

/-- A successful DELETE leaves the rows whose condition was not true before the
statement, exactly when its access path is faithful on them. -/
theorem delete_exact_iff (formed : statement.WellFormed pages area used cells)
    (done : statement.run geom compareKeys torn limit pages = .ok next) :
    next.TableRows statement.root (survivors statement.isTrue (cells.map LeafCell.row)) ↔
      statement.Faithful (cells.map LeafCell.row) := by
  have table := formed.table
  have distinct : (cells.map row).Nodup := by
    apply Pairwise.map _ _ table.ascending
    intro first second less same
    exact absurd (congrArg Prod.fst same) less.ne
  unfold run at done
  unfold Faithful
  split at done
  -- A rowid plan seeks its one row and tests no other condition.
  · rename_i rowid seeks
    rw [seeks]
    split at done
    · cases done
    · rename_i found
      cases done
      have absent := (table.seek found).1 rfl
      rw [table.tableRows_iff]
      have all : (cells.map row).filter (fun row => !decide (row.1 = rowid)) =
          cells.map row := by
        rw [← withoutRow_rows, withoutRow_of_absent absent]
      have answers := seek_survivors_iff statement (cells.map row) rowid
      rwa [all] at answers
    · rename_i cell found
      obtain ⟨member, named⟩ := (table.seek found).2 cell rfl
      rw [(table.reads.intact cell member).currentRow] at done
      obtain ⟨⟨whole, _, held⟩, _⟩ := table.deleteCurrent formed.index formed.apart formed.roots done
      rw [held.tableRows_iff, show cell.row.1 = rowid from named, withoutRow_rows]
      exact seek_survivors_iff statement (cells.map row) rowid
  · cases done
  -- The scan deletes under its own cursor: `scan_rows` says which rows it then visits.
  · rename_i seeks
    rw [seeks]
    split at done
    · cases done
    rename_i upcoming first
    have start : ∃ used' ⊆ used, pages.HoldsTable statement.root used' ([] ++ cells) :=
      ⟨used, Subset.refl _, table⟩
    obtain ⟨whole, final, held, rows⟩ := scan_rows limit formed.roots formed.apart start
      formed.index (table.first first) (Subset.refl _) (fun page _ => .inl rfl) done
    rw [held.tableRows_iff, rows]
    exact deleteLive_eq_survivors_iff distinct

end DeleteStatement

end Claim

section Examples

theorem Pages.HoldsTable.of_leaf {ρ κ : Type} {pages : Pages ρ κ} {root : Nat}
    {layout : Layout (LeafCell ρ)} {cells : List (LeafCell ρ)}
    (here : pages.content root = .tableLeaf layout) (held : layout.cells = cells)
    (short : ∀ cell ∈ cells, cell.overflow = [])
    (asc : cells.Pairwise fun first second => first.rowid < second.rowid) :
    pages.HoldsTable root [root] cells := by
  have chains : chainPages layout.cells = [] := by
    rw [chainPages, flatMap_eq_nil_iff, held]
    exact short
  have reads : pages.Reads [⟨root, none, none⟩] (root :: chainPages layout.cells ++ [])
      (layout.cells ++ []) := by
    apply Reads.leaf here _ _ .nil
    · intro cell mem part page chained
      rw [short cell (held ▸ mem)] at chained
      cases chained
    · exact fun cell _ => ⟨by simp, by simp⟩
  rw [chains, append_nil, append_nil, held] at reads
  exact ⟨reads, nodup_singleton _, asc⟩

def rowidColumnSchema : TableSchema where
  name := "t"
  columns := [{ name := "rowid", declaredType := "INTEGER".toList }]

def twoRows : Pages Record (List Value) :=
  ({ content := fun _ => .blank, count := 2 } : Pages Record (List Value)).writeLeafPage smallPages 2
    [{ rowid := 1, length := 3, payload := [.integer 5] },
      { rowid := 5, length := 3, payload := [.integer 7] }]

/-- `DELETE FROM t WHERE rowid = 5`, with the column's own value in the condition. -/
def deleteWhereRowid : DeleteStatement Record (List Value) :=
  rowidColumnSchema.compileDelete (some {
    equality := some (.column "rowid", .integer 5)
    holds := fun _ row => .ok (row.2 == [.integer 5]) }) 2 []

/-- `DELETE FROM t WHERE (SELECT count(*) FROM t) = 2`. -/
def deleteWhereCount : DeleteStatement Record (List Value) :=
  rowidColumnSchema.compileDelete (some {
    equality := some (.other, .integer 2)
    holds := fun rows _ => .ok (rows.length == 2) }) 2 []

/-- `DELETE FROM t WHERE rowid + 0 = 7`, which is answered by a scan. -/
def deleteWhereSeven : DeleteStatement Record (List Value) :=
  rowidColumnSchema.compileDelete (some {
    equality := some (.other, .integer 7)
    holds := fun _ row => .ok (row.2 == [.integer 7]) }) 2 []

theorem twoRows_formed (statement : DeleteStatement Record (List Value)) (root : statement.root = 2)
    (none : statement.indexes = []) :
    statement.WellFormed twoRows (fun _ => False) [2]
      [{ rowid := 1, length := 3, payload := [.integer 5] },
        { rowid := 5, length := 3, payload := [.integer 7] }] := by
  constructor
  · rw [root]
    exact .of_leaf rfl rfl (by decide) (by decide)
  · rw [root]
    decide
  · exact fun page mem => mem.elim
  · rw [none]
    exact fun index mem => nomatch mem
  · exact fun page _ mem => mem

theorem delete_leaves_row_one : ∃ next,
    deleteWhereSeven.run smallPages compareKeys [] 5 twoRows = .ok next ∧
      next.TableRows 2 [(1, [.integer 5])] := by
  obtain ⟨next, done⟩ : ∃ next,
    deleteWhereSeven.run smallPages compareKeys [] 5 twoRows = .ok next := ⟨_, rfl⟩
  refine ⟨next, done, ?_⟩
  have formed := twoRows_formed deleteWhereSeven rfl rfl
  exact (DeleteStatement.delete_exact_iff formed done).mpr fun _ _ _ _ => rfl

/-- With a column named rowid the other row goes, and with a subquery over the
table itself the second row stays. -/
theorem delete_misses_rows :
    (∃ next, deleteWhereRowid.run smallPages compareKeys [] 5 twoRows = .ok next ∧
      ¬ next.TableRows 2 (survivors deleteWhereRowid.isTrue [(1, [.integer 5]), (5, [.integer 7])])) ∧
    ∃ next, deleteWhereCount.run smallPages compareKeys [] 5 twoRows = .ok next ∧
      ¬ next.TableRows 2 (survivors deleteWhereCount.isTrue
        [(1, [.integer 5]), (5, [.integer 7])]) := by
  have first : ∀ next, deleteWhereRowid.run smallPages compareKeys [] 5 twoRows = .ok next →
      next.HoldsTable 2 [2] [{ rowid := 1, length := 3, payload := [.integer 5] }] := by
    intro next done
    cases done
    exact .of_leaf rfl rfl (by decide) (by decide)
  have second : ∀ next, deleteWhereCount.run smallPages compareKeys [] 5 twoRows = .ok next →
      next.HoldsTable 2 [2] [{ rowid := 5, length := 3, payload := [.integer 7] }] := by
    intro next done
    cases done
    exact .of_leaf rfl rfl (by decide) (by decide)
  constructor
  · refine ⟨_, rfl, ?_⟩
    rw [(first _ rfl).tableRows_iff]
    decide
  · refine ⟨_, rfl, ?_⟩
    rw [(second _ rfl).tableRows_iff]
    decide

end Examples

end SqliteRs
