import SqliteRs.JoinedSelect

/-!
The shared columns of NATURAL and USING joins. Each is compared between the first table
that has a column of its name and the joined table, and `SELECT *` leaves out the joined
table's copy. In SQL the shared column of a join is one column, whose value is that of
whichever side is not NULL. The two agree on a row unless the first table has NULL and a
table that shares the column has not, as when a RIGHT or FULL join fills the first table
with NULLs.
-/

namespace SqliteRs

open List TableBinding

inductive JoinConstraint where
  | other
  | usingColumns (columns : List String)
  | natural

namespace TableBinding

def hasColumn (binding : TableBinding) (name : String) : Bool :=
  (binding.schema.columnIndex name).isSome

def qualifier (binding : TableBinding) : String := binding.aliasName.getD binding.name

def qualifiedColumnExpr (binding : TableBinding) (name : String) : ExprTree SimpleOperator Empty :=
  .column none (some binding.qualifier) name

end TableBinding

structure SharedColumn where
  name : String
  lhs : ExprTree SimpleOperator Empty
  rhs : ExprTree SimpleOperator Empty

/-- The equalities of a join, all of which a pair of rows has to meet. A column that is not
there is refused when the query is compiled. -/
def synthesizeEqualityConstraint (left : List TableBinding) (right : TableBinding)
    (requireLeftMatch : Bool) : List String → Option (List SharedColumn)
  | [] => some []
  | name :: rest =>
    match left.find? fun binding => binding.hasColumn name with
    | none =>
      if requireLeftMatch then none
      else synthesizeEqualityConstraint left right requireLeftMatch rest
    | some leader => do
        let position ← right.schema.columnIndex name
        let column ← right.schema.columns[position]?
        let later ← synthesizeEqualityConstraint left right requireLeftMatch rest
        some (⟨name, leader.qualifiedColumnExpr name, right.qualifiedColumnExpr column.name⟩ ::
          later)

def resolveJoinConstraint (left : List TableBinding) (right : TableBinding) :
    JoinConstraint → Option (List SharedColumn)
  | .other => some []
  | .usingColumns columns => synthesizeEqualityConstraint left right true columns
  | .natural =>
    synthesizeEqualityConstraint left right false
      ((right.schema.columns.map Column.name).filter fun name =>
        left.any fun binding => binding.hasColumn name)

/-- A chain of joins of any kinds. The constraint of each is that of the table behind it. -/
structure SharedChain where
  bindings : List TableBinding
  joins : List JoinConstraint

namespace SharedChain

variable (chain : SharedChain)

section Code

def sharedColumns (table : Nat) : List SharedColumn :=
  match table, chain.bindings[table]? with
  | position + 1, some right =>
    ((chain.joins[position]?).bind
      (resolveJoinConstraint (chain.bindings.take (position + 1)) right)).getD []
  | _, _ => []

def dedupStar (table : Nat) : List String := (chain.sharedColumns table).map SharedColumn.name

def star (scope : Slots TableRow) : List (String × Value) :=
  starRow chain.bindings chain.dedupStar scope

def read (scope : Slots TableRow) (side : ExprTree SimpleOperator Empty) : Value :=
  (side.value (simpleLanguage fun _ => .null)
    (scopeEnvironment chain.bindings (simpleLanguage fun _ => .null) scope) 0).value

end Code

section Meaning

def shares (table : Nat) (name : String) : Bool :=
  (chain.dedupStar table).any fun shared => equalsIgnoreCase shared name

def leader (name : String) : Option Nat :=
  chain.bindings.findIdx? fun binding => binding.hasColumn name

def cell (scope : Slots TableRow) (table : Nat) (name : String) : Value :=
  ((chain.bindings[table]?).bind fun binding =>
    (binding.schema.columnIndex name).map fun position =>
      binding.schema.cell (scope table) position).getD .null

/-- The tables whose columns of a name are one column behind the first so many tables. -/
def mergedTables (count : Nat) (name : String) : List Nat :=
  (chain.leader name).toList ++ (List.range count).filter fun table => chain.shares table name

def merged (scope : Slots TableRow) (count : Nat) (name : String) : Value :=
  (((chain.mergedTables count name).map fun table => chain.cell scope table name).find?
    (· ≠ .null)).getD .null

def visible : List (Nat × Nat × String) :=
  chain.bindings.zipIdx.flatMap fun (binding, table) =>
    binding.schema.columns.zipIdx.filterMap fun (column, position) =>
      if chain.shares table column.name then none else some (table, position, column.name)

def sqlStar (scope : Slots TableRow) : List (String × Value) :=
  chain.visible.map fun (table, position, name) =>
    (name, if chain.leader name = some table then chain.merged scope chain.bindings.length name
      else ((chain.bindings[table]?).map fun binding =>
        binding.schema.cell (scope table) position).getD .null)

end Meaning

def ColumnsApart : Prop :=
  ∀ binding ∈ chain.bindings, ∀ position column, binding.schema.columns[position]? = some column →
    binding.schema.columnIndex column.name = some position

def TablesApart : Prop :=
  ∀ table binding, chain.bindings[table]? = some binding →
    chain.bindings.findIdx? (fun other => other.matchesQualifier binding.qualifier) = some table

section CaseFolding

variable {chain} {name other : String}

theorem equalsIgnoreCase_iff {left right : String} : equalsIgnoreCase left right = true ↔
      left.toList.map Char.toLower = right.toList.map Char.toLower := by
  exact beq_iff_eq

section

variable (same : equalsIgnoreCase name other = true)

include same

theorem equalsIgnoreCase_congr (left : String) :
    equalsIgnoreCase left name = equalsIgnoreCase left other := by
  rw [equalsIgnoreCase_iff] at same
  unfold equalsIgnoreCase
  rw [same]

theorem columnIndex_congr (schema : TableSchema) :
    schema.columnIndex name = schema.columnIndex other := by
  unfold TableSchema.columnIndex
  congr 1
  funext col
  exact equalsIgnoreCase_congr same col.name

theorem hasColumn_congr (binding : TableBinding) :
    binding.hasColumn name = binding.hasColumn other := by
  unfold hasColumn
  rw [columnIndex_congr same]

theorem leader_congr : chain.leader name = chain.leader other := by
  unfold leader
  congr 1
  funext binding
  exact hasColumn_congr same binding

variable (scope : Slots TableRow)

theorem cell_congr (table : Nat) : chain.cell scope table name = chain.cell scope table other := by
  unfold cell
  simp [columnIndex_congr same]

theorem shares_congr (table : Nat) : chain.shares table name = chain.shares table other := by
  unfold shares
  congr 1
  funext shared
  exact equalsIgnoreCase_congr same shared

theorem merged_congr
    (count : Nat) : chain.merged scope count name = chain.merged scope count other := by
  unfold merged mergedTables
  simp [leader_congr same, shares_congr same, cell_congr same]

end

theorem columnIndex_spec {schema : TableSchema} {pos : Nat}
    (found : schema.columnIndex name = some pos) : ∃ col, schema.columns[pos]? = some col ∧
      equalsIgnoreCase col.name name = true := by
  rcases findIdx?_eq_some_iff_getElem.mp found with ⟨inside, matched, _⟩
  exact ⟨schema.columns[pos], getElem?_eq_getElem inside, matched⟩

end CaseFolding

section Shared

variable {chain} {name : String}

/-- The two sides of a shared column's equality are the columns of two tables. -/
def StandsIn (shared : SharedColumn) (leader right : TableBinding) : Prop :=
  ∃ position column, right.schema.columnIndex shared.name = some position ∧
    right.schema.columns[position]? = some column ∧
    shared.lhs = leader.qualifiedColumnExpr shared.name ∧
    shared.rhs = right.qualifiedColumnExpr column.name

variable {left : List TableBinding} {right : TableBinding} {columns : List SharedColumn}
  {shared : SharedColumn} {count table first : Nat}

theorem synthesize_mem {requireLeftMatch : Bool} {names : List String}
    (made : synthesizeEqualityConstraint left right requireLeftMatch names = some columns)
    (mem : shared ∈ columns) :
    ∃ leader, left.find? (fun binding => binding.hasColumn shared.name) = some leader ∧
      StandsIn shared leader right := by
  induction names generalizing columns with
  | nil =>
    cases made
    cases mem
  | cons name rest ih =>
    unfold synthesizeEqualityConstraint at made
    split at made
    · split at made
      · cases made
      · exact ih made mem
    rename_i leader found
    rcases Option.bind_eq_some_iff.mp made with ⟨pos, located, made⟩
    rcases Option.bind_eq_some_iff.mp made with ⟨col, present, made⟩
    rcases Option.bind_eq_some_iff.mp made with ⟨later, rested, made⟩
    cases made
    rcases mem_cons.mp mem with rfl | inside
    · exact ⟨leader, found, pos, col, located, present, rfl, rfl⟩
    · exact ih rested inside

theorem resolve_mem {constraint : JoinConstraint}
    (made : resolveJoinConstraint left right constraint = some columns) (mem : shared ∈ columns) :
    ∃ leader, left.find? (fun binding => binding.hasColumn shared.name) = some leader ∧
      StandsIn shared leader right := by
  cases constraint with
  | other =>
    cases made
    cases mem
  | usingColumns | natural => exact synthesize_mem made mem

theorem findIdx?_of_find?_take {Item : Type} {items : List Item} {test : Item → Bool} {item : Item}
    (found : (items.take count).find? test = some item) :
    ∃ place < count, items.findIdx? test = some place ∧ items[place]? = some item := by
  rcases find?_eq_some_iff_getElem.mp found with ⟨passes, place, inside, same, earlier⟩
  rw [length_take] at inside
  rw [getElem_take] at same
  have bound : place < items.length := by omega
  refine ⟨place, by omega, ?_, ?_⟩
  · apply findIdx?_eq_some_iff_getElem.mpr
    refine ⟨bound, same ▸ passes, ?_⟩
    intro other before
    have fails := earlier other before
    simpa using fails
  · rw [getElem?_eq_getElem bound, same]

theorem sharedColumns_mem (mem : shared ∈ chain.sharedColumns table) :
    ∃ first leader right, chain.leader shared.name = some first ∧ first < table ∧
      chain.bindings[first]? = some leader ∧ chain.bindings[table]? = some right ∧
      StandsIn shared leader right := by
  unfold sharedColumns at mem
  split at mem
  swap
  · cases mem
  rename_i pos right here
  cases made : (chain.joins[pos]?).bind
      (resolveJoinConstraint (chain.bindings.take (pos + 1)) right) with
  | none =>
    rw [made] at mem
    cases mem
  | some columns =>
    rw [made] at mem
    rcases Option.bind_eq_some_iff.mp made with ⟨constraint, _, resolved⟩
    rcases resolve_mem resolved mem with ⟨leader, found, stands⟩
    rcases findIdx?_of_find?_take found with ⟨first, before, located, present⟩
    exact ⟨first, leader, right, located, before, present, here, stands⟩

theorem read_qualified (apart : chain.TablesApart) (scope : Slots TableRow) {binding : TableBinding}
    (here : chain.bindings[table]? = some binding)
    (present : binding.hasColumn name = true) :
    chain.read scope (binding.qualifiedColumnExpr name) = chain.cell scope table name := by
  have resolved : resolveOwnBindingIndex chain.bindings (some binding.qualifier) name =
      some table := by
    apply Option.filter_eq_some_iff.mpr
    constructor
    · exact apart table binding here
    · rw [here]
      exact present
  rcases Option.isSome_iff_exists.mp present with ⟨pos, located⟩
  have own : chain.cell scope table name = binding.schema.cell (scope table) pos := by
    simp [cell, here, located]
  unfold read qualifiedColumnExpr
  rw [own]
  simp [ExprTree.value, scopeEnvironment, resolved, here, located, simpleLanguage]

theorem merged_eq_iff {scope : Slots TableRow}
    (leads : chain.leader name = some first) :
    chain.cell scope first name = chain.merged scope count name ↔ chain.cell scope first name ≠ .null ∨
        ∀ table < count, chain.shares table name = true → chain.cell scope table name = .null := by
  unfold merged mergedTables
  rw [leads, Option.toList_some, singleton_append, map_cons]
  by_cases null : chain.cell scope first name = .null
  · rw [find?_cons_of_neg (by simpa using null), null]
    simp only [ne_eq, not_true_eq_false, false_or]
    cases found : ((range count).filter fun table => chain.shares table name).map
        (fun table => chain.cell scope table name) |>.find? (· ≠ .null) with
    | none =>
      simp only [Option.getD_none, true_iff]
      intro table below sharing
      have listed : chain.cell scope table name ∈
          ((range count).filter fun table => chain.shares table name).map
            fun table => chain.cell scope table name :=
        mem_map_of_mem (mem_filter.mpr ⟨mem_range.mpr below, sharing⟩)
      simpa using find?_eq_none.mp found _ listed
    | some value =>
      have known : value ≠ .null := by simpa using find?_some found
      rcases mem_map.mp (mem_of_find?_eq_some found) with ⟨table, inside, same⟩
      rcases mem_filter.mp inside with ⟨below, sharing⟩
      constructor
      · intro equal
        exact absurd equal.symm known
      · intro all
        exact absurd (same.symm.trans (all table (mem_range.mp below) sharing)) known
  · rw [find?_cons_of_pos (by simpa using null)]
    simp [null]

theorem star_eq_map (scope : Slots TableRow) :
    chain.star scope = chain.visible.map fun (table, pos, name) =>
      (name, ((chain.bindings[table]?).map fun binding =>
        binding.schema.cell (scope table) pos).getD .null) := by
  unfold star starRow visible
  rw [map_flatMap]
  apply flatMap_congr
  rintro ⟨binding, table⟩ mem
  have here : chain.bindings[table]? = some binding := by
    simpa using mem_zipIdx_iff_getElem?.mp mem
  rw [map_filterMap]
  apply filterMap_congr
  rintro ⟨col, pos⟩ _
  dsimp only
  unfold shares
  split
  · rfl
  · simp [here]

theorem leader_visible (leads : chain.leader name = some first) :
    ∃ binding pos col, chain.bindings[first]? = some binding ∧
      binding.schema.columnIndex name = some pos ∧ equalsIgnoreCase col name = true ∧
      (first, pos, col) ∈ chain.visible := by
  rcases findIdx?_eq_some_iff_getElem.mp leads with ⟨inside, present, _⟩
  rcases Option.isSome_iff_exists.mp present with ⟨pos, located⟩
  rcases columnIndex_spec located with ⟨col, at_, alike⟩
  have here : chain.bindings[first]? = some chain.bindings[first] := getElem?_eq_getElem inside
  have kept : chain.shares first col.name = false := by
    rw [shares_congr alike]
    cases shared : chain.shares first name with
    | false => rfl
    | true =>
      -- A column that this table shares would stand in a table before it.
      rcases any_eq_true.mp shared with ⟨other, listed, same⟩
      rcases mem_map.mp listed with ⟨entry, mem, rfl⟩
      rcases sharedColumns_mem mem with ⟨earlier, _, _, leader, before, _⟩
      rw [leader_congr same, leads] at leader
      cases leader
      omega
  refine ⟨chain.bindings[first], pos, col.name, here, located, alike, ?_⟩
  apply mem_flatMap.mpr
  refine ⟨(chain.bindings[first], first), mem_zipIdx_iff_getElem?.mpr here, ?_⟩
  apply mem_filterMap.mpr
  refine ⟨(col, pos), mem_zipIdx_iff_getElem?.mpr at_, ?_⟩
  simp [kept]

theorem visible_mem {pos : Nat} (listed : (table, pos, name) ∈ chain.visible) :
    ∃ binding col, chain.bindings[table]? = some binding ∧
      binding.schema.columns[pos]? = some col ∧ col.name = name ∧ chain.shares table name = false := by
  rcases mem_flatMap.mp listed with ⟨⟨binding, _⟩, mem, inside⟩
  rcases mem_filterMap.mp inside with ⟨⟨col, _⟩, at_, kept⟩
  dsimp only at kept
  split at kept
  · cases kept
  rename_i unshared
  cases kept
  exact ⟨binding, col, mem_zipIdx_iff_getElem?.mp mem,
    mem_zipIdx_iff_getElem?.mp at_, rfl, by simpa using unshared⟩

end Shared

section Exactness

variable {chain}

variable (chain) in
/-- The shared columns of a row are those of SQL: `SELECT *` shows their merged values, and
each join compares the merged value of the tables before it with its own table's. -/
structure SharedAsInSql (scope : Slots TableRow) : Prop where
  shown : chain.star scope = chain.sqlStar scope
  compared : ∀ table, ∀ shared ∈ chain.sharedColumns table,
    chain.read scope shared.lhs = chain.merged scope table shared.name ∧
      chain.read scope shared.rhs = chain.cell scope table shared.name

variable (chain) in
/-- No shared column is NULL in the first table that has it and something else in a table
that shares it. -/
def LeadersKnown (scope : Slots TableRow) : Prop :=
  ∀ table, ∀ shared ∈ chain.sharedColumns table, ∀ first, chain.leader shared.name = some first →
    chain.cell scope first shared.name ≠ .null ∨
      ∀ other < chain.bindings.length, chain.shares other shared.name = true →
        chain.cell scope other shared.name = .null

theorem LeadersKnown.merged_before {scope : Slots TableRow} (known : chain.LeadersKnown scope)
    {table first : Nat} {shared : SharedColumn} (mem : shared ∈ chain.sharedColumns table)
    (leads : chain.leader shared.name = some first) :
    chain.cell scope first shared.name = chain.merged scope table shared.name := by
  rcases sharedColumns_mem mem with ⟨_, _, _, _, _, _, here, _⟩
  have inside := (List.getElem?_eq_some_iff.mp here).1
  rw [merged_eq_iff leads]
  apply (known table shared mem first leads).imp_right
  intro all other below
  exact all other (by omega)

variable (chain) in
/-- Each side of a shared column's equality is read from the table it is meant for. -/
def ReadsOwn (scope : Slots TableRow) : Prop :=
  ∀ table, ∀ shared ∈ chain.sharedColumns table, ∀ first, chain.leader shared.name = some first →
    chain.read scope shared.lhs = chain.cell scope first shared.name ∧
      chain.read scope shared.rhs = chain.cell scope table shared.name

theorem readsOwn_of_apart (apart : chain.TablesApart) (scope : Slots TableRow) :
    chain.ReadsOwn scope := by
  intro table shared mem first leads
  rcases sharedColumns_mem mem with ⟨place, leader, right, led, _, before, here, stands⟩
  rcases stands with ⟨pos, col, located, at_, left, behind⟩
  cases led.symm.trans leads
  constructor
  · rw [left]
    apply read_qualified apart scope before
    rcases findIdx?_eq_some_iff_getElem.mp leads with ⟨inside, present, _⟩
    have same : chain.bindings[first] = leader :=
      Option.some.inj ((getElem?_eq_getElem inside).symm.trans before)
    exact same ▸ present
  · have alike : equalsIgnoreCase col.name shared.name = true := by
      rcases columnIndex_spec located with ⟨other, found, same⟩
      cases found.symm.trans at_
      exact same
    rw [behind, read_qualified apart scope here (by
      unfold hasColumn
      rw [columnIndex_congr alike, located]
      rfl)]
    exact cell_congr alike scope table

theorem shown_iff (nodup : chain.ColumnsApart) (scope : Slots TableRow) :
    chain.star scope = chain.sqlStar scope ↔ ∀ name first, chain.leader name = some first →
        chain.cell scope first name = chain.merged scope chain.bindings.length name := by
  have at_leader : ∀ table pos name, (table, pos, name) ∈ chain.visible →
      ((chain.bindings[table]?).map fun binding =>
        binding.schema.cell (scope table) pos).getD .null = chain.cell scope table name := by
    intro table pos name listed
    rcases visible_mem listed with ⟨binding, col, here, at_, rfl, _⟩
    simp [cell, here, nodup binding (mem_of_getElem? here) pos col at_]
  unfold sqlStar
  rw [star_eq_map, map_inj_left]
  constructor
  · intro agree name first leads
    rcases leader_visible leads with ⟨binding, pos, col, _, _, alike, listed⟩
    have same := congrArg Prod.snd (agree _ listed)
    dsimp only at same
    rw [leader_congr alike, if_pos leads, at_leader _ _ _ listed, cell_congr alike,
      merged_congr alike] at same
    exact same
  · rintro agree ⟨table, pos, name⟩ listed
    dsimp only
    split
    · rename_i leads
      rw [at_leader _ _ _ listed, agree name table leads]
    · rfl

theorem zipIdx_apart {Item : Type} (items : List Item) :
    items.zipIdx.Pairwise fun first second => first.2 ≠ second.2 := by
  rw [← pairwise_map, zipIdx_map_snd]
  exact nodup_range'

theorem visible_nodup : chain.visible.Nodup := by
  unfold visible
  rw [nodup_flatMap]
  constructor
  · rintro ⟨binding, table⟩ _
    apply List.Pairwise.filterMap _ _ (zipIdx_apart binding.schema.columns)
    rintro ⟨first, place⟩ ⟨second, other⟩ apart one kept two taken same
    dsimp only at kept taken
    split at kept
    · cases kept
    split at taken
    · cases taken
    · rw [← Option.some.inj kept, ← Option.some.inj taken] at same
      exact apart (congrArg (fun entry => entry.2.1) same)
  · apply (zipIdx_apart chain.bindings).imp
    rintro ⟨first, table⟩ ⟨second, other⟩ apart col inFirst inSecond
    rcases mem_filterMap.mp inFirst with ⟨_, _, kept⟩
    rcases mem_filterMap.mp inSecond with ⟨_, _, taken⟩
    dsimp only at kept taken
    split at kept
    · cases kept
    split at taken
    · cases taken
    · have same := (Option.some.inj kept).trans (Option.some.inj taken).symm
      exact apart (congrArg Prod.fst same)

theorem listed_once (nodup : chain.ColumnsApart) (scope : Slots TableRow) {name : String} {first : Nat}
    (leads : chain.leader name = some first)
    (all : ∀ table binding, chain.bindings[table]? = some binding → table ≠ first →
      binding.hasColumn name = true → chain.shares table name = true) :
    ((chain.star scope).filter fun entry => equalsIgnoreCase entry.1 name).length = 1 := by
  rcases leader_visible leads with ⟨binding, pos, col, here, located, alike, listed⟩
  have only : (chain.visible.filter fun entry => equalsIgnoreCase entry.2.2 name) =
      [(first, pos, col)] := by
    apply perm_singleton.mp
    apply (perm_ext_iff_of_nodup (visible_nodup.filter _) (nodup_singleton _)).mpr
    rintro ⟨table, place, other⟩
    rw [mem_filter, mem_singleton]
    constructor
    · rintro ⟨inside, same⟩
      rcases visible_mem inside with ⟨owner, own, there, at_, rfl, kept⟩
      have index := nodup owner (mem_of_getElem? there) place own at_
      have isFirst : table = first := by
        by_contra later
        have shared := all table owner there later (by
          unfold hasColumn
          rw [← columnIndex_congr same, index]
          rfl)
        rw [← shares_congr same, kept] at shared
        cases shared
      subst isFirst
      cases there.symm.trans here
      rw [columnIndex_congr same, located] at index
      cases index
      rcases visible_mem listed with ⟨_, mine, again, found, rfl, _⟩
      cases again.symm.trans here
      cases found.symm.trans at_
      rfl
    · rintro same
      cases same
      exact ⟨listed, alike⟩
  rw [star_eq_map, filter_map, length_map]
  change (chain.visible.filter fun entry => equalsIgnoreCase entry.2.2 name).length = 1
  rw [only]
  rfl

/-- `SELECT *` lists every shared column once. What it shows of them and what the joins
compare is as in SQL exactly when the equalities read the tables they are meant for, and the
first tables that have a shared column are not NULL where a later one is not. -/
theorem shared_columns_exact_iff (distinct : chain.ColumnsApart) (scope : Slots TableRow) :
    (∀ name first, chain.leader name = some first →
      (∀ table binding, chain.bindings[table]? = some binding → table ≠ first →
        binding.hasColumn name = true → chain.shares table name = true) →
      ((chain.star scope).filter fun entry => equalsIgnoreCase entry.1 name).length = 1) ∧
    (chain.SharedAsInSql scope ↔ chain.ReadsOwn scope ∧ chain.LeadersKnown scope) := by
  refine ⟨fun name first leads => listed_once distinct scope leads, ?_⟩
  constructor
  · intro right
    have known : chain.LeadersKnown scope := fun table shared member first leads =>
      (merged_eq_iff leads).mp ((shown_iff distinct scope).mp right.shown _ _ leads)
    refine ⟨?_, known⟩
    intro table shared member first leads
    rcases right.compared table shared member with ⟨left, behind⟩
    exact ⟨left.trans (known.merged_before member leads).symm, behind⟩
  rintro ⟨own, known⟩
  constructor
  · apply (shown_iff distinct scope).mpr
    intro name first leads
    apply (merged_eq_iff leads).mpr
    by_cases null : chain.cell scope first name = .null
    swap
    · exact .inl null
    right
    intro table below sharing
    rcases any_eq_true.mp sharing with ⟨other, listed, same⟩
    rcases mem_map.mp listed with ⟨shared, member, rfl⟩
    rw [← leader_congr same] at leads
    rw [← cell_congr same] at null ⊢
    rw [← shares_congr same] at sharing
    exact (known table shared member first leads).resolve_left (not_not.mpr null) table below
      sharing
  · intro table shared member
    rcases sharedColumns_mem member with ⟨first, _, _, leads, _⟩
    rcases own table shared member first leads with ⟨left, right⟩
    exact ⟨left.trans (known.merged_before member leads), right⟩

end Exactness

section Example

def untyped (table : String) (columns : List String) : TableBinding :=
  ⟨none, table, { name := table, columns := columns.map fun name =>
    ⟨name, [], .binary, false, none, []⟩ }⟩

/-- `t2(a, b, d)` joined with `t3(a, b, e)` by `USING (b)`. -/
def usingB : SharedChain where
  bindings := [untyped "t2" ["a", "b", "d"], untyped "t3" ["a", "b", "e"]]
  joins := [.usingColumns ["b"]]

def joinedRecords (records : List (Option Record)) : Slots TableRow :=
  fun table => (records.getD table none).map fun record => (1, record)

/-- The row of `t3` without a match has 3 for `b`, and `SELECT *` shows NULL. -/
theorem full_join_loses_shared_value :
    ¬ usingB.SharedAsInSql (joinedRecords [none, some [.integer 3, .integer 3, .integer 3]]) := by
  intro right
  have shown := right.shown
  revert shown
  decide +kernel

/-- The chain goes on with `t4(b, f)`, by `USING (b)` again. -/
def usingBTwice : SharedChain where
  bindings := usingB.bindings ++ [untyped "t4" ["b", "f"]]
  joins := [.usingColumns ["b"], .usingColumns ["b"]]

theorem usingBTwice_tables : usingBTwice.TablesApart := by
  intro table binding here
  rcases table with _ | _ | _ | table
  all_goals cases here
  all_goals decide +kernel

theorem usingBTwice_columns : usingBTwice.ColumnsApart := by
  intro binding mem pos col at_
  simp only [usingBTwice, usingB, cons_append, nil_append, mem_cons, not_mem_nil, or_false] at mem
  rcases mem with rfl | rfl | rfl
  all_goals rcases pos with _ | _ | _ | pos <;> cases at_ <;> decide +kernel

/-- The row of `t2` has no match in `t3` and one in `t4`: the shared column is that of `t2`. -/
theorem unmatched_middle_shows_shared_value :
    usingBTwice.SharedAsInSql (joinedRecords [some [.integer 7, .integer 8, .integer 9], none,
      some [.integer 8, .integer 4]]) := by
  apply (shared_columns_exact_iff usingBTwice_columns _).2.mpr
  refine ⟨readsOwn_of_apart usingBTwice_tables _, ?_⟩
  intro table shared member first leads
  left
  have leader : usingBTwice.leader "b" = some 0 := by decide +kernel
  have name : shared.name = "b" := by
    rcases table with _ | _ | _ | table
    · cases member
    · exact congrArg SharedColumn.name (mem_singleton.mp member)
    · exact congrArg SharedColumn.name (mem_singleton.mp member)
    · cases member
  rw [name] at leads ⊢
  cases leader.symm.trans leads
  decide +kernel

end Example

end SharedChain

end SqliteRs
