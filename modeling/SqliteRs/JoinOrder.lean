import Mathlib
import SqliteRs.NestedLoops

/-!
How a chain of joins becomes nested loops. A chain of inner and cross joins is run in the
order of the estimated table sizes, and each condition is tested at the first level where
every table it reads is positioned. Any other chain keeps its order but for a RIGHT JOIN,
whose table becomes the outermost loop; the chain before it is nested below as the side
that gets NULLs. A condition takes the numbers of its `?` parameters where it is compiled,
and the loops behind an outer join are compiled twice. Whatever order an inner chain is
run in, the loops reach every combination of rows once and emit those that pass all
conditions, so two plans can differ by the order of the rows and by the numbers of `?`.
-/

namespace SqliteRs

inductive JoinOp where
  | inner
  | cross
  | left
  | right
  | full
deriving DecidableEq, Repr

structure JoinClause (κ : Type) where
  op : JoinOp
  constraint : Option κ

/-- The conditions of a chain: how far the parameter count moves when one is compiled,
whether it is true on the rows of the tables in FROM order, and the tables that it is
taken to read. -/
structure Conditions (κ Row : Type) where
  after : κ → Nat → Nat
  holds : κ → Nat → Slots Row → Bool
  references : κ → List Nat
  sound : ∀ condition number scope scope',
    (∀ table ∈ references condition, scope table = scope' table) →
      holds condition number scope = holds condition number scope'

structure LevelPlan (κ : Type) where
  checks : List (LevelCheck κ) := []
  nullSpan : Option (Nat × Nat) := none

structure RightStep where
  newTable : Nat
  deepOrig : Nat

variable {κ Row Out : Type}

section Planning

def isReorderableInnerChain (joins : List (JoinClause κ)) : Bool :=
  joins.all fun join => join.op == .inner || join.op == .cross

/-- The tables by estimated rows, those of equal estimates in FROM order. -/
def planJoinOrder (costs : List Nat) : List Nat :=
  (List.range costs.length).insertionSort fun left right =>
    costs.getD left (2 ^ 64 - 1) ≤ costs.getD right (2 ^ 64 - 1)

def orderStep (state : List Nat × Option RightStep) (step : JoinClause κ × Nat) :
    List Nat × Option RightStep :=
  if step.1.op = .right then
    ((step.2 + 1) :: state.1, some ⟨step.2 + 1, state.1.getLastD 0⟩)
  else (state.1 ++ [step.2 + 1], state.2)

/-- The loops from outermost to innermost, and the RIGHT JOIN met, if any. -/
def workingOrder (joins : List (JoinClause κ)) : List Nat × Option RightStep :=
  joins.zipIdx.foldl orderStep ([0], none)

theorem orderSteps_normal {steps : List (JoinClause κ × Nat)}
    (others : ∀ step ∈ steps, step.1.op ≠ .right) (state : List Nat × Option RightStep) :
    steps.foldl orderStep state = (state.1 ++ steps.map (·.2 + 1), state.2) := by
  induction steps generalizing state with
  | nil => simp
  | cons step rest ih =>
    rw [List.foldl_cons, ih fun next mem => others next (List.mem_cons_of_mem _ mem)]
    simp [orderStep, others step List.mem_cons_self]

def addCheck (levels : Nat → LevelPlan κ) (level : Nat) (check : LevelCheck κ) :
    Nat → LevelPlan κ :=
  Function.update levels level { levels level with checks := (levels level).checks ++ [check] }

def setNullSpan (levels : Nat → LevelPlan κ) (level : Nat) (span : Nat × Nat) :
    Nat → LevelPlan κ :=
  Function.update levels level { levels level with nullSpan := some span }

variable (conds : Conditions κ Row)

/-- The level at which a condition is tested. In a reordered chain it is the first one
where the joined table and every table read are positioned. -/
def checkLevel (reordered : Bool) (order : List Nat) (table : Nat) (constraint : Option κ) : Nat :=
  if reordered then
    (((constraint.map conds.references).getD [] ++ [table]).filter (· ∈ order)).foldr
      (fun table level => max (order.idxOf table) level) 0
  else order.idxOf table

def addNormalStep (reordered : Bool) (order : List Nat) (levels : Nat → LevelPlan κ)
    (step : JoinClause κ × Nat) : Nat → LevelPlan κ :=
  let (join, position) := step
  if join.op = .right then levels
  else
    let level := checkLevel conds reordered order (position + 1) join.constraint
    if join.op = .left then
      setNullSpan (addCheck levels level ⟨join.constraint, some level⟩) level (level, level)
    else addCheck levels level ⟨join.constraint, none⟩

/-- The flag of a RIGHT JOIN belongs to the level below its table's; its condition is
tested at the deepest level of the chain before it. -/
def addRightStep (order : List Nat) (joins : List (JoinClause κ)) (levels : Nat → LevelPlan κ)
    (right : RightStep) : Nat → LevelPlan κ :=
  let owner := order.idxOf right.newTable + 1
  let checked := order.idxOf right.deepOrig
  let constraint := (joins[right.newTable - 1]?).bind JoinClause.constraint
  setNullSpan (addCheck levels checked ⟨constraint, some owner⟩) owner (owner, checked)

def joinOrder (costs : List Nat) (joins : List (JoinClause κ)) : List Nat :=
  if isReorderableInnerChain joins then planJoinOrder costs else (workingOrder joins).1

def joinLevels (costs : List Nat) (joins : List (JoinClause κ)) : Nat → LevelPlan κ :=
  let order := joinOrder costs joins
  let normal := joins.zipIdx.foldl
    (addNormalStep conds (isReorderableInnerChain joins) order) fun _ => {}
  match (workingOrder joins).2 with
  | some right => addRightStep order joins normal right
  | none => normal

end Planning

section Compiling

variable (conds : Conditions κ Row)

def numberChecks : List (LevelCheck κ) → Nat → List (LevelCheck (κ × Nat)) × Nat
  | [], number => ([], number)
  | check :: rest, number =>
    let after := check.constraint.elim number fun condition => conds.after condition number
    let (checks, last) := numberChecks rest after
    (⟨check.constraint.map (·, number), check.setsMatched⟩ :: checks, last)

/-- Compiles the loops from a level on. `leafAfter` is how far the row's own expressions
move the parameter count; they are compiled in every innermost body. -/
def compileJoinLevel (count : Nat) (levels : Nat → LevelPlan κ) (leafAfter : Nat → Nat) :
    Nat → Nat → Nat → LoopNest (κ × Nat) Nat × Nat
  | 0, _, number => (.leaf number, leafAfter number)
  | fuel + 1, level, number =>
    if level = count then (.leaf number, leafAfter number)
    else
      let (checks, tested) := numberChecks conds (levels level).checks number
      let (body, inner) := compileJoinLevel count levels leafAfter fuel (level + 1) tested
      match (levels level).nullSpan with
      | none => (.scan level checks body, inner)
      | some (first, last) =>
        let (rest, done) := compileJoinLevel count levels leafAfter fuel (last + 1) inner
        (.outer level first last (.scan level checks body) rest, done)

end Compiling

def joinScope (order : List Nat) (slots : Slots Row) : Slots Row :=
  fun table => slots (order.idxOf table)

def joinIteration (conds : Conditions κ Row) (tables : Nat → List Row) (order : List Nat)
    (emit : Nat → Slots Row → List Out) : Iteration (κ × Nat) Nat Row Out where
  rows level := (order[level]?).elim [] tables
  test condition slots := conds.holds condition.1 condition.2 (joinScope order slots)
  emit number slots := emit number (joinScope order slots)

/-- A query over a chain of joins, as far as its loops go: the tables in FROM order, the
joins, the row estimates that the plan is made from, the parameters numbered before the
loops, and what a complete row gives. -/
structure JoinedQuery (κ Row Out : Type) where
  conditions : Conditions κ Row
  tables : Nat → List Row
  joins : List (JoinClause κ)
  firstNumber : Nat
  leafAfter : Nat → Nat
  emit : Nat → Slots Row → List Out

namespace JoinedQuery

variable (query : JoinedQuery κ Row Out) (costs : List Nat)

def count : Nat := query.joins.length + 1

def code : LoopNest (κ × Nat) Nat :=
  (compileJoinLevel query.conditions query.count
    (joinLevels query.conditions costs query.joins) query.leafAfter (query.count + 1) 0
    query.firstNumber).1

def iteration : Iteration (κ × Nat) Nat Row Out :=
  joinIteration query.conditions query.tables (joinOrder costs query.joins) query.emit

def rows : List Out :=
  ((query.code costs).run (query.iteration costs) (fun _ => none) fun _ => false).1

def tried : List (Slots Row) := (query.code costs).tried (query.iteration costs).rows fun _ => none

def gives (slots : Slots Row) : Bool :=
  (query.code costs).gives (query.iteration costs) (fun _ => none) slots

end JoinedQuery

section Flags

variable {conds : Conditions κ Row} {levels : Nat → LevelPlan κ} {count : Nat}
  {leafAfter : Nat → Nat}

/-- Every span of levels that gets NULLs starts at the level that owns it. -/
def SpansDown (levels : Nat → LevelPlan κ) : Prop :=
  ∀ level first last, (levels level).nullSpan = some (first, last) → first = level ∧ level ≤ last

theorem compile_moves (down : SpansDown levels) (fuel level num : Nat) {other : Nat}
    (moved : (compileJoinLevel conds count levels leafAfter fuel level num).1.Moves other) :
    level ≤ other := by
  induction fuel generalizing level num with
  | zero => cases moved
  | succ fuel ih =>
    unfold compileJoinLevel at moved
    split at moved
    · cases moved
    dsimp only at moved
    split at moved
    · rcases moved with same | below
      · exact same.ge
      · exact Nat.le_of_lt (ih _ _ below)
    rename_i first last span
    obtain ⟨rfl, reach⟩ := down level first last span
    rcases moved with (same | below) | masked | behind
    · exact same.ge
    · exact Nat.le_of_lt (ih _ _ below)
    · exact masked.1
    · exact reach.trans (Nat.le_of_lt (ih _ _ behind))

theorem compile_settled (down : SpansDown levels) (fuel level num : Nat) :
    (compileJoinLevel conds count levels leafAfter fuel level num).1.Settled := by
  induction fuel generalizing level num with
  | zero => trivial
  | succ fuel ih =>
    have below (num : Nat) : ¬ (compileJoinLevel conds count levels leafAfter fuel (level + 1)
        num).1.Moves level := fun moved => by
      have deeper := compile_moves down _ _ _ moved
      omega
    unfold compileJoinLevel
    split
    · trivial
    dsimp only
    split
    · exact ⟨below _, ih _ _⟩
    rename_i first last span
    obtain ⟨rfl, reach⟩ := down level first last span
    refine ⟨⟨_, _, rfl⟩, ⟨le_rfl, reach⟩, fun moved => ?_, ⟨below _, ih _ _⟩, ih _ _⟩
    have deeper := compile_moves down _ _ _ moved
    omega

end Flags

open List Function

variable {κ Row Out : Type}

section Combinations

variable (tables : Nat → List Row)

def combinations : List Nat → Slots Row → List (Slots Row)
  | [], scope => [scope]
  | table :: rest, scope =>
    (tables table).flatMap fun row => combinations rest (Function.update scope table (some row))

variable {tables}

theorem combinations_frame {order : List Nat} {scope final : Slots Row}
    (mem : final ∈ combinations tables order scope) {table : Nat} (outside : table ∉ order) :
    final table = scope table := by
  induction order generalizing scope with
  | nil =>
    rw [mem_singleton.mp mem]
  | cons first rest ih =>
    obtain ⟨row, _, below⟩ := mem_flatMap.mp mem
    have apart : table ≠ first := fun same => outside (same ▸ mem_cons_self)
    rw [ih below fun inside => outside (mem_cons_of_mem _ inside), update_of_ne apart]

theorem flatMap_exchange {α β γ : Type} (lefts : List α) (rights : List β) (f : α → β → List γ) :
    (lefts.flatMap fun left => rights.flatMap fun right => f left right).Perm
      (rights.flatMap fun right => lefts.flatMap fun left => f left right) := by
  have both := Multiset.bind_bind (lefts : Multiset α) (rights : Multiset β)
    (f := fun left right => (f left right : Multiset γ))
  simpa only [Multiset.coe_bind, Multiset.coe_eq_coe] using both

theorem combinations_perm {order order' : List Nat} (same : order.Perm order') (scope : Slots Row) :
    (combinations tables order scope).Perm (combinations tables order' scope) := by
  induction same generalizing scope with
  | nil => exact .refl _
  | cons table _ ih => exact List.Perm.flatMap_left _ fun row _ => ih _
  | swap first second rest =>
    by_cases apart : first = second
    · rw [apart]
    simp only [combinations]
    refine (flatMap_exchange _ _ _).trans (List.Perm.of_eq ?_)
    simp [update_comm apart]
  | trans _ _ first second => exact (first scope).trans (second scope)

end Combinations

section Levels

variable {order : List Nat}

variable {level table num : Nat} {check : LevelCheck (κ × Nat)}

theorem joinScope_update (nodup : order.Nodup) (here : order[level]? = some table)
    (slots : Slots Row) (row : Option Row) : joinScope order (update slots level row) =
      update (joinScope order slots) table row := by
  obtain ⟨bound, at_level⟩ := List.getElem?_eq_some_iff.mp here
  funext other
  unfold joinScope
  by_cases same : other = table
  · subst same
    have pos : order.idxOf other = level := by
      rw [← at_level]
      exact nodup.idxOf_getElem level bound
    rw [pos, update_self, update_self]
  · have pos : order.idxOf other ≠ level := by
      intro equal
      apply same
      have found : order.idxOf other < order.length := equal ▸ bound
      rw [← at_level, ← getElem_idxOf found]
      simp [equal]
    rw [update_of_ne pos, update_of_ne same]

variable (levels : Nat → LevelPlan κ)

def checksFrom (level remaining : Nat) : List (LevelCheck κ) :=
  (List.range' level remaining).flatMap fun level => (levels level).checks

variable (conds : Conditions κ Row)

/-- No outer join, and no test that reads a table positioned further in. -/
structure ReadsPositioned (order : List Nat) : Prop where
  plain : ∀ level, (levels level).nullSpan = none
  reads : ∀ level, ∀ check ∈ (levels level).checks, ∀ condition ∈ check.constraint,
    ∀ table ∈ conds.references condition, table ∉ order.drop (level + 1)

variable {conds} {levels}

theorem numberChecks_append (first rest : List (LevelCheck κ)) (num : Nat) :
    numberChecks conds (first ++ rest) num = ((numberChecks conds first num).1 ++
          (numberChecks conds rest (numberChecks conds first num).2).1,
        (numberChecks conds rest (numberChecks conds first num).2).2) := by
  induction first generalizing num with
  | nil => rfl
  | cons check first ih => simp only [cons_append, numberChecks, ih]

theorem mem_numberChecks {checks : List (LevelCheck κ)}
    (mem : check ∈ (numberChecks conds checks num).1) :
    ∃ src ∈ checks, ∃ place, check.constraint = src.constraint.map (·, place) := by
  induction checks generalizing num with
  | nil => cases mem
  | cons first rest ih =>
    simp only [numberChecks, mem_cons] at mem
    rcases mem with same | later
    · exact ⟨first, mem_cons_self, num, same ▸ rfl⟩
    · obtain ⟨src, inside, place, equal⟩ := ih later
      exact ⟨src, mem_cons_of_mem _ inside, place, equal⟩

def scopeTest (conds : Conditions κ Row) (condition : κ × Nat) (scope : Slots Row) : Bool :=
  conds.holds condition.1 condition.2 scope

theorem ReadsPositioned.passes_final (positioned : ReadsPositioned levels conds order)
    (mem : check ∈ (numberChecks conds (levels level).checks num).1)
    {tables : Nat → List Row} {scope final : Slots Row}
    (below : final ∈ combinations tables (order.drop (level + 1)) scope) :
    check.passes (scopeTest conds) final = check.passes (scopeTest conds) scope := by
  obtain ⟨src, inside, place, equal⟩ := mem_numberChecks mem
  unfold LevelCheck.passes
  rw [equal]
  cases constraint : src.constraint with
  | none => rfl
  | some cond =>
    apply conds.sound
    intro table read
    exact combinations_frame below (positioned.reads level src inside cond constraint table read)

variable {tables : Nat → List Row} {emit : Nat → Slots Row → List Out} {leafAfter : Nat → Nat}

theorem joinIteration_rows (here : order[level]? = some table) :
    (joinIteration conds tables order emit).rows level = tables table := by
  simp [joinIteration, here]

theorem joinIteration_passes (check : LevelCheck (κ × Nat)) (slots : Slots Row) :
    check.passes (joinIteration conds tables order emit).test slots =
      check.passes (scopeTest conds) (joinScope order slots) := rfl

theorem ReadsPositioned.meaning (positioned : ReadsPositioned levels conds order)
    (tables : Nat → List Row) (emit : Nat → Slots Row → List Out) (leafAfter : Nat → Nat)
    (nodup : order.Nodup) {count : Nat} (whole : order.length = count) {remaining : Nat}
    (reach : level + remaining = count) {fuel : Nat} (enough : remaining ≤ fuel) (num : Nat)
    (slots : Slots Row) :
    ((compileJoinLevel conds count levels leafAfter fuel level num).1.meaning
        (joinIteration conds tables order emit) slots).1 =
      (combinations tables (order.drop level) (joinScope order slots)).flatMap fun scope =>
        if (numberChecks conds (checksFrom levels level remaining) num).1.all fun check =>
            check.passes (scopeTest conds) scope then
          emit (numberChecks conds (checksFrom levels level remaining) num).2 scope
        else [] := by
  induction remaining generalizing level fuel num slots with
  | zero =>
    have finished : level = count := reach
    have none_left : order.drop level = [] := drop_eq_nil_of_le (by omega)
    have leaf : (compileJoinLevel conds count levels leafAfter fuel level num).1 =
        .leaf num := by
      cases fuel with
      | zero => rfl
      | succ fuel => simp [compileJoinLevel, finished]
    rw [leaf, none_left]
    simp [LoopNest.meaning, joinIteration, combinations, checksFrom, numberChecks]
  | succ remaining ih =>
    obtain ⟨fuel, rfl⟩ : ∃ previous, fuel = previous + 1 := ⟨fuel - 1, by omega⟩
    have bound : level < order.length := by omega
    have here : order[level]? = some order[level] := List.getElem?_eq_getElem bound
    have below := fun row => ih (show level + 1 + remaining = count by omega)
      (show remaining ≤ fuel by omega) (numberChecks conds (levels level).checks num).2
      (update slots level (some row))
    have apart : level ≠ count := by omega
    have split : checksFrom levels level (remaining + 1) =
        (levels level).checks ++ checksFrom levels (level + 1) remaining := by
      simp [checksFrom, List.range'_succ]
    simp only [compileJoinLevel, apart, ↓reduceIte, positioned.plain level, LoopNest.meaning,
      runChecks_passed, joinIteration_passes]
    rw [joinIteration_rows here, drop_eq_getElem_cons bound, combinations, split, numberChecks_append,
      flatMap_assoc]
    apply flatMap_congr
    intro row _
    rw [← joinScope_update nodup here]
    -- The tests of this level are asked here; on the complete rows they answer the same.
    have moved : ∀ final ∈ combinations tables (order.drop (level + 1))
        (joinScope order (update slots level (some row))),
        ((numberChecks conds (levels level).checks num).1.all fun check =>
            check.passes (scopeTest conds) final) =
          ((numberChecks conds (levels level).checks num).1.all fun check =>
            check.passes (scopeTest conds)
              (joinScope order (update slots level (some row)))) := by
      intro final mem
      rw [Bool.eq_iff_iff, all_eq_true, all_eq_true]
      exact forall₂_congr fun check inside => by rw [positioned.passes_final inside mem]
    split
    · rename_i passed
      rw [below row]
      apply flatMap_congr
      intro final mem
      rw [all_append, moved final mem, passed, Bool.true_and]
    · rename_i failed
      symm
      apply flatMap_eq_nil_iff.mpr
      intro final mem
      rw [all_append, moved final mem, Bool.eq_false_iff.mpr failed]
      rfl

end Levels

section Placement

variable {conds : Conditions κ Row} {order : List Nat}

theorem planJoinOrder_perm (costs : List Nat) : (planJoinOrder costs).Perm (List.range costs.length) :=
  perm_insertionSort _ _

variable {table : Nat} {steps : List (JoinClause κ × Nat)}

theorem le_deepest (pos : Nat → Nat) {tables : List Nat} (mem : table ∈ tables) :
    pos table ≤ tables.foldr (fun table level => max (pos table) level) 0 := by
  induction tables with
  | nil => cases mem
  | cons first rest ih =>
    rcases mem_cons.mp mem with same | later
    · exact same ▸ le_max_left _ _
    · exact (ih later).trans (le_max_right _ _)

theorem deepest_lt {pos : Nat → Nat} {bound : Nat} (positive : 0 < bound)
    {tables : List Nat} (within : ∀ table ∈ tables, pos table < bound) :
    tables.foldr (fun table level => max (pos table) level) 0 < bound := by
  induction tables with
  | nil => exact positive
  | cons first rest ih =>
    exact max_lt (within first mem_cons_self)
      (ih fun table mem => within table (mem_cons_of_mem _ mem))

theorem checkLevel_lt (conds : Conditions κ Row) (mem : table ∈ order) (constraint : Option κ) :
    checkLevel conds true order table constraint < order.length := by
  apply deepest_lt (length_pos_of_mem mem)
  intro other inside
  exact idxOf_lt_length_of_mem (by simpa using (mem_filter.mp inside).2)

theorem read_before_checkLevel (nodup : order.Nodup) {read : Nat} {cond : κ}
    (reads : read ∈ conds.references cond) :
    read ∉ order.drop (checkLevel conds true order table (some cond) + 1) := by
  intro deeper
  have mem : read ∈ order := mem_of_mem_drop deeper
  have placed : order.idxOf read ≤ checkLevel conds true order table (some cond) := by
    apply le_deepest order.idxOf
    simp [reads, mem]
  obtain ⟨off, bound, found⟩ := mem_iff_getElem.mp deeper
  rw [length_drop] at bound
  rw [getElem_drop] at found
  have pos := nodup.idxOf_getElem _
    (by omega : checkLevel conds true order table (some cond) + 1 + off < order.length)
  rw [found] at pos
  omega

variable {levels : Nat → LevelPlan κ}

theorem ReadsPositioned.addCheck (positioned : ReadsPositioned levels conds order) (nodup : order.Nodup)
    (table : Nat) (constraint : Option κ) :
    ReadsPositioned (SqliteRs.addCheck levels (checkLevel conds true order table constraint)
      ⟨constraint, none⟩) conds order := by
  constructor
  · intro level
    unfold SqliteRs.addCheck
    by_cases same : level = checkLevel conds true order table constraint
    · rw [same, update_self]
      exact positioned.plain _
    · rw [update_of_ne same]
      exact positioned.plain _
  · intro level check mem cond asked read reads
    unfold SqliteRs.addCheck at mem
    by_cases same : level = checkLevel conds true order table constraint
    · rw [same, update_self] at mem
      rcases mem_append.mp mem with old | new
      · exact same ▸ positioned.reads _ check old cond asked read reads
      obtain rfl := mem_singleton.mp new
      cases asked
      exact same ▸ read_before_checkLevel nodup reads
    · rw [update_of_ne same] at mem
      exact positioned.reads _ check mem cond asked read reads

theorem flatMap_update_perm {α : Type} {keys : List Nat} (nodup : keys.Nodup)
    {groups groups' : Nat → List α} {key : Nat} (mem : key ∈ keys) {item : α}
    (here : groups' key = groups key ++ [item])
    (elsewhere : ∀ other, other ≠ key → groups' other = groups other) :
    (keys.flatMap groups').Perm (item :: keys.flatMap groups) := by
  induction keys with
  | nil => cases mem
  | cons first rest ih =>
    obtain ⟨fresh, nodup⟩ := nodup_cons.mp nodup
    simp only [flatMap_cons]
    by_cases same : first = key
    · subst same
      have others : rest.flatMap groups' = rest.flatMap groups := by
        apply flatMap_congr
        intro other inside
        exact elsewhere other fun equal => fresh (equal ▸ inside)
      rw [here, others, append_assoc]
      exact perm_middle
    · have inside : key ∈ rest := (mem_cons.mp mem).resolve_left fun equal =>
        same equal.symm
      rw [elsewhere first same]
      exact ((ih nodup inside).append_left _).trans perm_middle

theorem checksFrom_addCheck (levels : Nat → LevelPlan κ) {level count : Nat}
    (bound : level < count) (check : LevelCheck κ) :
    (checksFrom (addCheck levels level check) 0 count).Perm (check :: checksFrom levels 0 count) := by
  apply flatMap_update_perm nodup_range'
  · simpa using bound
  · rw [addCheck, update_self]
  · intro other apart
    rw [addCheck, update_of_ne apart]

def JoinClause.Inner (join : JoinClause κ) : Prop := join.op = .inner ∨ join.op = .cross

theorem addNormalStep_inner {join : JoinClause κ} (inner : join.Inner) (pos : Nat) :
    addNormalStep conds true order levels (join, pos) =
      addCheck levels (checkLevel conds true order (pos + 1) join.constraint)
        ⟨join.constraint, none⟩ := by
  rcases inner with op | op <;> simp [addNormalStep, op]

theorem ReadsPositioned.normalSteps (nodup : order.Nodup) (inner : ∀ step ∈ steps, step.1.Inner)
    (positioned : ReadsPositioned levels conds order) :
    ReadsPositioned (steps.foldl (addNormalStep conds true order) levels) conds order := by
  induction steps generalizing levels with
  | nil => exact positioned
  | cons step rest ih =>
    rw [foldl_cons, addNormalStep_inner (inner step mem_cons_self)]
    exact ih (fun next mem => inner next (mem_cons_of_mem _ mem)) (positioned.addCheck nodup _ _)

theorem checksFrom_normalSteps (conds : Conditions κ Row) (levels : Nat → LevelPlan κ)
    (inner : ∀ step ∈ steps, step.1.Inner) (placed : ∀ step ∈ steps, step.2 + 1 ∈ order) :
    (checksFrom (steps.foldl (addNormalStep conds true order) levels) 0 order.length).Perm
      ((steps.map fun step => ⟨step.1.constraint, none⟩) ++ checksFrom levels 0 order.length) := by
  induction steps generalizing levels with
  | nil => exact .refl _
  | cons step rest ih =>
    rw [foldl_cons, addNormalStep_inner (inner step mem_cons_self)]
    have now := checksFrom_addCheck levels
      (checkLevel_lt conds (placed step mem_cons_self) step.1.constraint)
      ⟨step.1.constraint, none⟩
    refine (ih _ ?_ ?_).trans ((now.append_left _).trans perm_middle)
    · exact fun next mem => inner next (mem_cons_of_mem _ mem)
    · exact fun next mem => placed next (mem_cons_of_mem _ mem)

end Placement

/-- Conditions that mean the same whatever number they are compiled at. -/
def Conditions.Unnumbered (conds : Conditions κ Row) : Prop := ∀ condition number scope,
  conds.holds condition number scope = conds.holds condition 0 scope

/-- Conditions that each know the number at which the text writes their first `?`. What a
`?` reads is picked from that number and the one it is compiled at. -/
def Conditions.numbered (conds : Conditions κ Row) (pick : Nat → Nat → Nat) :
    Conditions (κ × Nat) Row where
  after condition := conds.after condition.1
  holds condition number := conds.holds condition.1 (pick condition.2 number)
  references condition := conds.references condition.1
  sound condition number := conds.sound condition.1 (pick condition.2 number)

def Conditions.compiled (conds : Conditions κ Row) : Conditions (κ × Nat) Row :=
  conds.numbered fun _ number => number

def Conditions.spelled (conds : Conditions κ Row) : Conditions (κ × Nat) Row :=
  conds.numbered fun written _ => written

theorem Conditions.spelled_unnumbered (conds : Conditions κ Row) :
    conds.spelled.Unnumbered := fun _ _ _ => rfl

theorem numberChecks_numbered (conds : Conditions κ Row) (checks : List (LevelCheck (κ × Nat)))
    (number : Nat) :
    numberChecks conds.compiled checks number = numberChecks conds.spelled checks number := by
  induction checks generalizing number with
  | nil => rfl
  | cons check rest ih =>
    rw [numberChecks, numberChecks, ih]
    rfl

/-- The loops are compiled without a look at the numbers of the text. -/
theorem compileJoinLevel_numbered (conds : Conditions κ Row) (count : Nat)
    (levels : Nat → LevelPlan (κ × Nat)) (leafAfter : Nat → Nat) (fuel level number : Nat) :
    compileJoinLevel conds.compiled count levels leafAfter fuel level number =
      compileJoinLevel conds.spelled count levels leafAfter fuel level number := by
  induction fuel generalizing level number with
  | zero => rfl
  | succ fuel ih => simp only [compileJoinLevel, numberChecks_numbered, ih]

def Conditions.met (conds : Conditions κ Row) (constraint : Option κ)
    (scope : Slots Row) : Bool :=
  constraint.all fun condition => conds.holds condition 0 scope

theorem numberChecks_all {conds : Conditions κ Row} {checks : List (LevelCheck κ)}
    (unnumbered : conds.Unnumbered) (number : Nat) (scope : Slots Row) :
    ((numberChecks conds checks number).1.all fun check =>
        check.passes (scopeTest conds) scope) =
      checks.all fun check => conds.met check.constraint scope := by
  induction checks generalizing number with
  | nil => rfl
  | cons check rest ih =>
    have first : (LevelCheck.mk (check.constraint.map (·, number)) check.setsMatched).passes
        (scopeTest conds) scope = conds.met check.constraint scope := by
      cases constraint : check.constraint with
      | none => rfl
      | some cond => exact unnumbered cond number scope
    simp only [numberChecks, all_cons]
    rw [first, ih]

namespace JoinedQuery

variable (query : JoinedQuery κ Row Out)

/-- The tests of a query in the order in which they are compiled, each with its numbers,
and the number at which the row itself is compiled. -/
def tests (costs : List Nat) : List (LevelCheck (κ × Nat)) × Nat :=
  numberChecks query.conditions
    (checksFrom (joinLevels query.conditions costs query.joins) 0 query.count) query.firstNumber

variable {query}

theorem mem_zipIdx_inner (inner : isReorderableInnerChain query.joins = true) :
    ∀ step ∈ query.joins.zipIdx, step.1.Inner := by
  intro step mem
  have found := all_eq_true.mp inner step.1 (fst_mem_of_mem_zipIdx mem)
  simpa [JoinClause.Inner] using found

theorem op_ne_right {join : JoinClause κ} (inner : join.Inner) : join.op ≠ .right := by
  rcases inner with op | op <;> simp [op]

theorem joinLevels_inner (inner : isReorderableInnerChain query.joins = true) (costs : List Nat) :
    joinLevels query.conditions costs query.joins =
      query.joins.zipIdx.foldl (addNormalStep query.conditions true (planJoinOrder costs))
        fun _ => {} := by
  have none_right : (workingOrder query.joins).2 = none :=
    congrArg Prod.snd <| orderSteps_normal
      (fun step mem => op_ne_right (mem_zipIdx_inner inner step mem)) _
  simp [joinLevels, joinOrder, none_right, inner]

theorem spansDown_of_plain {levels : Nat → LevelPlan κ}
    (plain : ∀ level, (levels level).nullSpan = none) : SpansDown levels := by
  intro level first last span
  rw [plain level] at span
  cases span

variable {costs : List Nat}

theorem plan_covers (query : JoinedQuery κ Row Out) (sized : costs.length = query.count) :
    ∀ step ∈ query.joins.zipIdx, step.2 + 1 ∈ planJoinOrder costs := by
  intro step mem
  have bound := snd_lt_of_mem_zipIdx mem
  rw [(planJoinOrder_perm costs).mem_iff, sized, mem_range, count]
  omega

theorem tests_all (inner : isReorderableInnerChain query.joins = true)
    (sized : costs.length = query.count) (unnumbered : query.conditions.Unnumbered)
    (scope : Slots Row) :
    ((query.tests costs).1.all fun check => check.passes (scopeTest query.conditions) scope) =
      query.joins.all fun join => query.conditions.met join.constraint scope := by
  have covered : (checksFrom (joinLevels query.conditions costs query.joins) 0 query.count).Perm
      (query.joins.map fun join => ⟨join.constraint, none⟩) := by
    have placed := checksFrom_normalSteps query.conditions (fun _ => {}) (mem_zipIdx_inner inner)
      (plan_covers query sized)
    rw [(planJoinOrder_perm costs).length_eq, length_range, sized, ← joinLevels_inner inner] at placed
    refine placed.trans (List.Perm.of_eq ?_)
    have nothing : checksFrom (fun _ => ({} : LevelPlan κ)) 0 query.count = [] := by
      simp [checksFrom]
    rw [nothing, append_nil]
    calc query.joins.zipIdx.map (fun step => LevelCheck.mk step.1.constraint none)
        = (query.joins.zipIdx.map Prod.fst).map fun join => ⟨join.constraint, none⟩ := by
          rw [map_map]
          rfl
      _ = query.joins.map fun join => ⟨join.constraint, none⟩ := by
          rw [zipIdx_map_fst]
  unfold tests
  rw [numberChecks_all unnumbered _ scope, covered.all_eq, all_map]
  rfl

theorem rows_inner (inner : isReorderableInnerChain query.joins = true)
    (sized : costs.length = query.count) :
    query.rows costs =
      (combinations query.tables (planJoinOrder costs) fun _ => none).flatMap fun scope =>
        if (query.tests costs).1.all fun check => check.passes (scopeTest query.conditions) scope then
          query.emit (query.tests costs).2 scope
        else [] := by
  have shuffled := planJoinOrder_perm costs
  have nodup : (planJoinOrder costs).Nodup := shuffled.nodup_iff.mpr nodup_range
  have whole : (planJoinOrder costs).length = query.count := by
    rw [shuffled.length_eq, length_range, sized]
  have positioned : ReadsPositioned (joinLevels query.conditions costs query.joins)
      query.conditions (planJoinOrder costs) := by
    rw [joinLevels_inner inner]
    apply ReadsPositioned.normalSteps nodup (mem_zipIdx_inner inner)
    exact ⟨fun _ => rfl, fun _ _ mem => nomatch mem⟩
  have ordered : joinOrder costs query.joins = planJoinOrder costs := by
    simp [joinOrder, inner]
  have loops := positioned.meaning query.tables query.emit query.leafAfter nodup whole
    (Nat.zero_add _) (Nat.le_succ _) query.firstNumber fun _ => none
  unfold rows iteration code
  rw [(LoopNest.run_eq_meaning _ (compile_settled (spansDown_of_plain positioned.plain) _ _ _).apart
    _ _).1, ordered, loops]
  rfl

end JoinedQuery

section Filters

variable {α : Type}

theorem filters_perm_iff {items items' : List α} (same : items.Perm items') (keep keep' : α → Bool) :
    ((items.filter keep).Perm (items'.filter keep') ↔ ∀ item ∈ items, keep item = keep' item) := by
  constructor
  · intro equal item mem
    have both := equal.mem_iff (a := item)
    simpa [mem, same.mem_iff.mp mem] using both
  intro agree
  have kept : items.filter keep = items.filter keep' := filter_congr agree
  rw [kept]
  exact same.filter keep'

theorem placed_perm_iff {β : Type} {items : List α} {place : α → β} (back : β → α)
    (inverse : ∀ item ∈ items, back (place item) = item) (keep keep' : α → Bool) :
    ((items.filter keep).map place).Perm ((items.filter keep').map place) ↔
      ∀ item ∈ items, keep item = keep' item := by
  rw [← filters_perm_iff (.refl items)]
  refine ⟨fun same => ?_, List.Perm.map place⟩
  have undone (keep : α → Bool) : ((items.filter keep).map place).map back = items.filter keep := by
    rw [map_map]
    exact (map_congr_left fun item mem => inverse item (mem_of_mem_filter mem)).trans (map_id _)
  have both := same.map back
  rwa [undone, undone] at both

theorem flatMap_ite_singleton (items : List α) (keep : α → Bool) :
    (items.flatMap fun item => if keep item then [item] else []) = items.filter keep := by
  induction items with
  | nil => rfl
  | cons item rest ih =>
    rw [flatMap_cons, ih, filter_cons]
    split <;> rfl

end Filters

end SqliteRs
