import SqliteRs.JoinedSelect
import SqliteRs.OuterChain

/-!
When the loops of a chain give the rows of its SQL meaning. They always do unless a
RIGHT JOIN stands directly behind a LEFT JOIN. Then the rows that the LEFT JOIN filled
with NULLs are joined to every row of the RIGHT JOIN's table without its condition, and
a row of that table which only such rows match is given out with NULLs once more. The
extra rows do no harm only where the joins that follow drop them.
-/

namespace SqliteRs

open List Function

variable {κ Row : Type} {conds : Conditions κ Row} {tables : Nat → List Row}

/-- The last join is a LEFT JOIN and filled the slot of its table with NULLs. -/
def nullFilled (joins : List (JoinClause κ)) : Slots Row → Bool := lastSkips 0 (itemsBefore joins)

theorem lastSkips_congr {found scope : Slots Row} (items : List (Option (JoinClause κ))) (table : Nat)
    (same : ∀ early < table + items.length, found early = scope early) :
    lastSkips table items found = lastSkips table items scope := by
  fun_induction lastSkips table items found with
  | case1 => rfl
  | case2 table item => simp [lastSkips, itemSkips, same table (by simp)]
  | case3 _ _ _ _ _ ih => exact ih fun early inside => same early (by grind)

section Right

variable {before after : List (JoinClause κ)} {right : JoinClause κ}

variable (conds tables before) in
/-- The rows of the chain before a RIGHT JOIN, beside a row of its table. -/
def beside (row : Row) : List (Slots Row) :=
  (chainRows conds tables before).map fun scope =>
    Function.update scope (before.length + 1) (some row)

theorem laterRows_beside (others : ∀ join ∈ before, join.op ≠ .right ∧ join.op ≠ .full)
    (reads : ScopedFrom conds 1 before) (row : Row) :
    laterRows conds tables 0 (itemsBefore before) (aloneWith (before.length + 1) row) =
      beside conds tables before row := by
  unfold beside aloneWith
  rw [chainRows_eq others]
  apply update_laterRows
  · rw [itemsBefore_length]
    omega
  intro index item cond found asked
  cases index with
  | zero =>
    cases found
    cases asked
  | succ index =>
    rw [itemsBefore, List.getElem?_cons_succ, List.getElem?_map, Option.map_eq_some_iff] at found
    obtain ⟨join, inside, rfl⟩ := found
    rw [Nat.zero_add, Nat.add_comm]
    exact reads index join cond inside asked

theorem nullBefore_alone (count : Nat) (row : Row) :
    nullBefore count (aloneWith (count + 1) row) = aloneWith (count + 1) row := by
  funext table
  unfold nullBefore aloneWith
  split
  · rw [update_of_ne (by omega)]
  · rfl

variable (conds tables before after right) in
def wantedRows (row : Row) : List (Slots Row) :=
  (orAlone (aloneWith (before.length + 1) row)
    ((beside conds tables before row).filter (conds.met right.constraint))).flatMap
    (laterRows conds tables (before.length + 2) (after.map some))

theorem chainRows_right (isRight : right.op = .right)
    (othersAfter : ∀ join ∈ after, join.op ≠ .right ∧ join.op ≠ .full) :
    chainRows conds tables (before ++ right :: after) =
      (tables (before.length + 1)).flatMap (wantedRows conds tables before after right) := by
  unfold chainRows
  rw [zipIdx_append, zipIdx_cons, foldl_append, foldl_cons, joinSteps_eq othersAfter]
  simp only [joinStep, isRight, rightRows, flatMap_assoc, Nat.zero_add]
  rfl

theorem chainRows_first (others : ∀ join ∈ before, join.op ≠ .right ∧ join.op ≠ .full)
    {scope : Slots Row} (mem : scope ∈ chainRows conds tables before) :
    (scope 0).isSome = true := by
  rw [chainRows_eq others] at mem
  obtain ⟨first, here, below⟩ := mem_flatMap.mp mem
  obtain ⟨row, -, rfl, -⟩ := mem_matchRows here
  rw [laterRows_frame below (by omega), update_self]
  rfl

variable (conds tables before right) in
/-- A row that a RIGHT JOIN directly behind a LEFT JOIN gives out although it should not: the
LEFT JOIN filled it with NULLs and it does not meet the RIGHT JOIN's condition, or it stands
alone although rows filled so, and no others, meet the condition beside it. -/
def letThrough (scope : Slots Row) : Bool :=
  (scope (before.length + 1)).any fun row =>
    if (scope 0).isSome then nullFilled before scope && !conds.met right.constraint scope
    else (beside conds tables before row).any (conds.met right.constraint) &&
      !(beside conds tables before row).any fun found =>
        !nullFilled before found && conds.met right.constraint found

section LetThrough

variable (others : ∀ join ∈ before, join.op ≠ .right ∧ join.op ≠ .full)
  (reads : ∀ condition ∈ right.constraint, conds.ReadsUpTo condition (before.length + 1))
  {scope found : Slots Row} {row : Row}

include reads in
theorem filter_later (scope : Slots Row) : (laterRows conds tables (before.length + 2)
    (after.map some) scope).filter (fun found => !letThrough conds tables before right found) =
      if letThrough conds tables before right scope then []
      else laterRows conds tables (before.length + 2) (after.map some) scope := by
  have kept : ∀ found ∈ laterRows conds tables (before.length + 2) (after.map some) scope,
      letThrough conds tables before right found =
        letThrough conds tables before right scope := by
    intro found mem
    have same (table : Nat) (early : table ≤ before.length + 1) : found table = scope table :=
      laterRows_frame mem (by omega)
    have met : conds.met right.constraint found = conds.met right.constraint scope := by
      cases asked : right.constraint with
      | none => rfl
      | some condition => exact reads condition asked 0 found scope same
    have filled : nullFilled before found = nullFilled before scope :=
      lastSkips_congr _ _ fun table early => same table (by rw [itemsBefore_length] at early; omega)
    simp only [letThrough, filled, met, same _ le_rfl, same 0 (by omega)]
  split
  · rename_i through
    exact filter_eq_nil_iff.mpr fun found mem => by simp [kept found mem, through]
  · rename_i strict
    exact filter_eq_self.mpr fun found mem => by simp [kept found mem, strict]

include others in
theorem letThrough_beside (mem : scope ∈ beside conds tables before row) :
    letThrough conds tables before right scope =
      (nullFilled before scope && !conds.met right.constraint scope) := by
  obtain ⟨earlier, inside, rfl⟩ := mem_map.mp mem
  have first : (update earlier (before.length + 1) (some row) 0).isSome = true := by
    rw [update_of_ne (by omega)]
    exact chainRows_first others inside
  simp only [letThrough, update_self, Option.any_some, first, ↓reduceIte]

theorem letThrough_alone : letThrough conds tables before right
    (aloneWith (before.length + 1) row) =
    ((beside conds tables before row).any (conds.met right.constraint) &&
      !(beside conds tables before row).any fun found =>
        !nullFilled before found && conds.met right.constraint found) := by
  simp [letThrough, aloneWith]

include others reads in
/-- What is left of the rows beside one of the RIGHT JOIN's table are those that SQL wants. -/
theorem besideRight_filter (front : ScopedFrom conds 1 before) (row : Row) :
    (besideRight conds tables before after right (aloneWith (before.length + 1) row)).filter
        (fun found => !letThrough conds tables before right found) =
      wantedRows conds tables before after right row := by
  have inside : ∀ scope ∈ beside conds tables before row,
      (if nullFilled before scope || conds.met right.constraint scope then
          laterRows conds tables (before.length + 2) (after.map some) scope
        else []).filter (fun found => !letThrough conds tables before right found) =
        if conds.met right.constraint scope then
          laterRows conds tables (before.length + 2) (after.map some) scope
        else [] := by
    intro scope mem
    have through := @letThrough_beside _ _ conds tables before right others scope row mem
    cases filled : nullFilled before scope <;> cases met : conds.met right.constraint scope
    all_goals simp [filter_later reads, through, filled, met]
  have skips : (nullFilled before : Slots Row → Bool) = lastSkips 0 (itemsBefore before) := rfl
  unfold besideRight wantedRows orAlone
  simp only [laterRows_beside others front, ← skips, nullBefore_alone]
  rw [filter_append, filter_flatMap, flatMap_congr inside, ← flatMap_filter]
  have someMet : ((beside conds tables before row).filter
      (conds.met right.constraint)).isEmpty =
        !(beside conds tables before row).any (conds.met right.constraint) := by
    rw [Bool.eq_iff_iff]
    simp
  have alone := @letThrough_alone _ _ conds tables before right row
  rw [someMet]
  cases any : (beside conds tables before row).any (conds.met right.constraint) with
  | true =>
    rw [any] at alone
    cases counted : (beside conds tables before row).any fun found =>
        !nullFilled before found && conds.met right.constraint found
    all_goals simp [filter_later reads, alone, counted]
  | false =>
    have none_met : (beside conds tables before row).filter
        (conds.met right.constraint) = [] := by
      simpa [any] using someMet
    have none_counted : ((beside conds tables before row).any fun found =>
        !nullFilled before found && conds.met right.constraint found) = false := by
      rw [any_eq_false] at any ⊢
      intro found mem both
      exact any found mem (Bool.and_eq_true .. ▸ both).2
    rw [any] at alone
    simp [filter_later reads, alone, none_met, none_counted]

end LetThrough

end Right

section Chains

variable {joins : List (JoinClause (κ × Nat))} {firstNumber : Nat} {leafAfter : Nat → Nat}
  {costs : List Nat}

theorem ScopedFrom.front {conds : Conditions κ Row} {before rest : List (JoinClause κ)}
    (reads : ScopedFrom conds 1 (before ++ rest)) : ScopedFrom conds 1 before := by
  intro index join cond found asked
  apply reads index join cond _ asked
  rwa [List.getElem?_append_left (List.getElem?_eq_some_iff.mp found).1]

/-- The rows that the RIGHT JOIN of a chain, if it has one, gives out although it should not. -/
def untested (conds : Conditions κ Row) (tables : Nat → List Row) (joins : List (JoinClause κ))
    (scope : Slots Row) : Bool :=
  match joins.dropWhile fun join => join.op != .right with
  | [] => false
  | right :: _ =>
    letThrough conds tables (joins.takeWhile fun join => join.op != .right) right scope

end Chains

section Example

open JoinedSelect

/-- `t1 LEFT JOIN t2 ON t1.x = t2.x`, then a join of `t3`; no `?` stands in the text before
the last condition. -/
def leftThen (op : JoinOp) (condition : ExprTree SimpleOperator Empty) :
    List (JoinClause (ExprTree SimpleOperator Empty × Nat)) :=
  [⟨.left, some (columnEquals "t1" "x" (.column none (some "t2") "x"), 0)⟩, ⟨op, some (condition, 0)⟩]

def equalsSecond : ExprTree SimpleOperator Empty :=
  columnEquals "t3" "x" (.column none (some "t2") "x")

def equalsParam : ExprTree SimpleOperator Empty := columnEquals "t3" "x" (.param .anonymous)

/-- Run with one parameter, 5. -/
def threeTables : Conditions (ExprTree SimpleOperator Empty) TableRow :=
  treeConditions (simpleLanguage fun number => if number = 1 then .integer 5 else .null)
    [oneColumn "t1" "x", oneColumn "t2" "x", oneColumn "t3" "x"]

/-- One row in `t1` and in `t3`, with 1 and 5, and the given rows in `t2`. -/
def threeContents (middle : List TableRow) (table : Nat) : List TableRow :=
  [[(1, [.integer 1])], middle, [(1, [.integer 5])]].getD table []

theorem Conditions.readsUpTo_of_references {conds : Conditions κ Row} {cond : κ} {table : Nat}
    (all : ∀ read ∈ conds.references cond, read ≤ table) : conds.ReadsUpTo cond table := by
  intro num scope scope' same
  exact conds.sound cond num scope scope' fun read mem => same read (all read mem)

theorem leftThen_reads : ScopedFrom threeTables.spelled 1 (leftThen .inner equalsParam) := by
  intro index join cond found asked
  apply Conditions.readsUpTo_of_references
  rcases index with _ | _ | index
  · cases found
    cases asked
    decide +kernel
  · cases found
    cases asked
    decide +kernel
  · cases found

end Example

end SqliteRs
