import SqliteRs.JoinOrder

/-!
Chains with LEFT joins and one RIGHT join against the SQL meaning of a chain, which
joins one table after the other to the rows joined so far. The loops agree with it but
for one case: a RIGHT JOIN directly behind a LEFT JOIN does not ask its condition of
the rows that the LEFT JOIN filled with NULLs, and does not count them as matches.
-/

namespace SqliteRs

open Function LevelCheck

open Option

variable {κ Row : Type}

section Meaning

variable (conds : Conditions κ Row) (tables : Nat → List Row)

def matchRows (table : Nat) (constraint : Option κ) (scope : Slots Row) : List (Slots Row) :=
  ((tables table).map fun row => Function.update scope table (some row)).filter
    (conds.met constraint)

def orAlone (alone : Slots Row) (matched : List (Slots Row)) : List (Slots Row) :=
  if matched.isEmpty then [alone] else matched

def leftRows (table : Nat) (constraint : Option κ) (scope : Slots Row) : List (Slots Row) :=
  orAlone (Function.update scope table none) (matchRows conds tables table constraint scope)

def metBeside (table : Nat) (constraint : Option κ) (rows : List (Slots Row)) (row : Row) :
    List (Slots Row) :=
  (rows.map fun scope => Function.update scope table (some row)).filter (conds.met constraint)

def aloneWith (table : Nat) (row : Row) : Slots Row := Function.update (fun _ => none) table (some row)

def rightRows (table : Nat) (constraint : Option κ) (rows : List (Slots Row)) :
    List (Slots Row) :=
  (tables table).flatMap fun row =>
    orAlone (aloneWith table row) (metBeside conds table constraint rows row)

def joinStep (rows : List (Slots Row)) (step : JoinClause κ × Nat) : List (Slots Row) :=
  let (join, position) := step
  match join.op with
  | .inner | .cross => rows.flatMap (matchRows conds tables (position + 1) join.constraint)
  | .left => rows.flatMap (leftRows conds tables (position + 1) join.constraint)
  | .right => rightRows conds tables (position + 1) join.constraint rows
  | .full => rows.flatMap (leftRows conds tables (position + 1) join.constraint) ++
      ((tables (position + 1)).filter fun row =>
        (metBeside conds (position + 1) join.constraint rows row).isEmpty).map
          (aloneWith (position + 1))

def firstRows : List (Slots Row) := (tables 0).map (aloneWith 0)

/-- The SQL meaning of a chain: each join is applied to the rows of those before it. -/
def chainRows (joins : List (JoinClause κ)) : List (Slots Row) :=
  joins.zipIdx.foldl (joinStep conds tables) (firstRows tables)

/-- A table of a chain beside a row of those before it; the first one has no join. -/
def itemRows (table : Nat) (item : Option (JoinClause κ)) (scope : Slots Row) : List (Slots Row) :=
  match item with
  | none => matchRows conds tables table none scope
  | some join =>
    if join.op = .left then leftRows conds tables table join.constraint scope
    else matchRows conds tables table join.constraint scope

/-- Tables from one on beside a row, where no join is a RIGHT JOIN. -/
def laterRows : Nat → List (Option (JoinClause κ)) → Slots Row → List (Slots Row)
  | _, [], scope => [scope]
  | table, item :: rest, scope =>
    (itemRows conds tables table item scope).flatMap (laterRows (table + 1) rest)

end Meaning

section Acting

variable {conds : Conditions κ Row} {tables : Nat → List Row} {order : List Nat}
  {levels : Nat → LevelPlan κ} {count : Nat} {leafAfter : Nat → Nat}

def scopeIteration (conds : Conditions κ Row) : Iteration κ Unit Row Unit where
  rows _ := []
  test condition scope := conds.holds condition 0 scope
  emit _ _ := []

def metChecks (conds : Conditions κ Row) (scope : Slots Row) (checks : List (LevelCheck κ)) :
    Bool × (Nat → Bool) :=
  runChecks (scopeIteration conds) scope checks fun _ => false

theorem metChecks_numbered {checks : List (LevelCheck κ)} (unnumbered : conds.Unnumbered)
    (emit : Nat → Slots Row → List (Slots Row)) (num : Nat) (slots : Slots Row) :
    runChecks (joinIteration conds tables order emit) slots
        (numberChecks conds checks num).1 (fun _ => false) =
      metChecks conds (joinScope order slots) checks := by
  unfold metChecks
  generalize (fun _ => false : Nat → Bool) = flags
  induction checks generalizing num flags with
  | nil => rfl
  | cons check rest ih =>
    have answer : (mk (check.constraint.map (·, num)) check.setsMatched).passes
        (joinIteration conds tables order emit).test slots =
          check.passes (scopeIteration conds).test (joinScope order slots) := by
      unfold passes
      cases constraint : check.constraint with
      | none => rfl
      | some cond => exact unnumbered cond num _
    simp only [numberChecks, runChecks]
    rw [answer]
    split
    · exact ih _ _
    · rfl

variable (conds tables order levels count leafAfter) in
/-- The loops from a level on emit `out` of the rows in FROM order, and set those of the
watched flags that `marks` says, whatever numbers they are compiled with. -/
def Acts (level : Nat) (watched : Nat → Prop) (out : Slots Row → List (Slots Row))
    (marks : Slots Row → Nat → Bool) : Prop :=
  ∀ fuel number slots, count ≤ level + fuel →
    let meaning := (compileJoinLevel conds count levels leafAfter fuel level number).1.meaning
      (joinIteration conds tables order fun _ scope => [scope]) slots
    meaning.1 = out (joinScope order slots) ∧
      ∀ flag, watched flag → meaning.2 flag = marks (joinScope order slots) flag

theorem Acts.leaf (watched : Nat → Prop) :
    Acts conds tables order levels count leafAfter count watched (fun scope => [scope])
      fun _ _ => false := by
  intro fuel num slots _
  have leaf : (compileJoinLevel conds count levels leafAfter fuel count num).1 =
      .leaf num := by
    cases fuel with
    | zero => rfl
    | succ fuel => simp [compileJoinLevel]
  rw [leaf]
  exact ⟨rfl, fun _ _ => rfl⟩

def visitRow (conds : Conditions κ Row) (checks : List (LevelCheck κ)) (table : Nat)
    (out : Slots Row → List (Slots Row)) (marks : Slots Row → Nat → Bool) (scope : Slots Row)
    (row : Row) : List (Slots Row) × (Nat → Bool) :=
  let scope := Function.update scope table (some row)
  let (passed, set) := metChecks conds scope checks
  if passed then (out scope, fun flag => set flag || marks scope flag) else ([], set)

theorem scan_meaning (unnumbered : conds.Unnumbered) (nodup : order.Nodup)
    {level table : Nat} (here : order[level]? = some table) {watched : Nat → Prop}
    {out : Slots Row → List (Slots Row)} {marks : Slots Row → Nat → Bool}
    (below : Acts conds tables order levels count leafAfter (level + 1) watched out marks)
    {fuel : Nat} (enough : count ≤ level + (fuel + 1)) (num inner : Nat) (slots : Slots Row) :
    let meaning := (LoopNest.scan level (numberChecks conds (levels level).checks num).1
      (compileJoinLevel conds count levels leafAfter fuel (level + 1) inner).1).meaning
        (joinIteration conds tables order fun _ scope => [scope]) slots
    meaning.1 = (tables table).flatMap (fun row => (visitRow conds (levels level).checks table
        out marks (joinScope order slots) row).1) ∧
      ∀ flag, watched flag → meaning.2 flag = (tables table).any fun row =>
        (visitRow conds (levels level).checks table out marks (joinScope order slots) row).2
          flag := by
  have deeper := fun row => below fuel inner (update slots level (some row)) (by omega)
  simp only [LoopNest.meaning, joinIteration_rows here,
    metChecks_numbered unnumbered, visitRow, ← joinScope_update nodup here]
  constructor
  · apply List.flatMap_congr
    intro row _
    split
    · exact (deeper row).1
    · rfl
  · intro flag watch
    apply congrArg (fun test => List.any (tables table) test)
    funext row
    split
    · dsimp only
      rw [(deeper row).2 flag watch]
    · rfl

def scanOut (conds : Conditions κ Row) (tables : Nat → List Row)
    (checks : List (LevelCheck κ)) (table : Nat) (out : Slots Row → List (Slots Row))
    (marks : Slots Row → Nat → Bool) (scope : Slots Row) : List (Slots Row) :=
  (tables table).flatMap fun row => (visitRow conds checks table out marks scope row).1

def scanMarks (conds : Conditions κ Row) (tables : Nat → List Row)
    (checks : List (LevelCheck κ)) (table : Nat) (out : Slots Row → List (Slots Row))
    (marks : Slots Row → Nat → Bool) (scope : Slots Row) (flag : Nat) : Bool :=
  (tables table).any fun row => (visitRow conds checks table out marks scope row).2 flag

variable {watched : Nat → Prop} {out out' : Slots Row → List (Slots Row)}
  {marks marks' : Slots Row → Nat → Bool} {level table : Nat}

section

variable (unnumbered : conds.Unnumbered) (nodup : order.Nodup)
  (bound : level < count) (here : order[level]? = some table)

include unnumbered nodup bound here

theorem Acts.scan (span : (levels level).nullSpan = none)
    (below : Acts conds tables order levels count leafAfter (level + 1) watched out marks) :
    Acts conds tables order levels count leafAfter level watched
      (scanOut conds tables (levels level).checks table out marks)
      (scanMarks conds tables (levels level).checks table out marks) := by
  intro fuel num slots enough
  obtain ⟨fuel, rfl⟩ : ∃ previous, fuel = previous + 1 := ⟨fuel - 1, by omega⟩
  simp only [compileJoinLevel, Nat.ne_of_lt bound, span]
  exact scan_meaning unnumbered nodup here below enough num _ slots

theorem Acts.outer {first last : Nat}
    (span : (levels level).nullSpan = some (first, last)) (reach : level ≤ last)
    (mask : Slots Row → Slots Row)
    (masked : ∀ slots, joinScope order (maskLevels first last slots) = mask (joinScope order slots))
    (below : Acts conds tables order levels count leafAfter (level + 1)
      (fun flag => watched flag ∨ flag = level) out marks)
    (after : Acts conds tables order levels count leafAfter (last + 1) watched out' marks') :
    Acts conds tables order levels count leafAfter level watched
      (fun scope =>
        scanOut conds tables (levels level).checks table out marks scope ++
          if scanMarks conds tables (levels level).checks table out marks scope level then []
          else out' (mask scope))
      (fun scope flag =>
        scanMarks conds tables (levels level).checks table out marks scope flag ||
          (!scanMarks conds tables (levels level).checks table out marks scope level &&
            marks' (mask scope) flag)) := by
  intro fuel num slots enough
  obtain ⟨fuel, rfl⟩ : ∃ previous, fuel = previous + 1 := ⟨fuel - 1, by omega⟩
  simp only [compileJoinLevel, Nat.ne_of_lt bound, ↓reduceIte, span, LoopNest.meaning.eq_3]
  have main := scan_meaning unnumbered nodup here below enough num
    (numberChecks conds (levels level).checks num).2 slots
  have rest := after fuel (compileJoinLevel conds count levels leafAfter fuel (level + 1)
    (numberChecks conds (levels level).checks num).2).2 (maskLevels first last slots)
    (by omega)
  rw [main.2 level (.inr rfl)]
  rw [masked] at rest
  cases flagged : scanMarks conds tables (levels level).checks table out marks
      (joinScope order slots) level with
  | true =>
    unfold scanMarks at flagged
    rw [flagged]
    refine ⟨by simpa [scanOut] using main.1, fun flag watch => ?_⟩
    simpa [scanMarks] using main.2 flag (.inl watch)
  | false =>
    unfold scanMarks at flagged
    rw [flagged]
    refine ⟨?_, fun flag watch => ?_⟩
    · simp [scanOut, main.1, rest.1]
    · simp [scanMarks, main.2 flag (.inl watch), rest.2 flag watch]

end

theorem Acts.mono {watched' : Nat → Prop}
    (acts : Acts conds tables order levels count leafAfter level watched out marks)
    (fewer : ∀ flag, watched' flag → watched flag) :
    Acts conds tables order levels count leafAfter level watched' out marks := by
  intro fuel num slots enough
  have all := acts fuel num slots enough
  exact ⟨all.1, fun flag watch => all.2 flag (fewer flag watch)⟩

theorem Acts.congr (acts : Acts conds tables order levels count leafAfter level watched out marks)
    (sameOut : ∀ scope, out scope = out' scope)
    (sameMarks : ∀ scope flag, watched flag → marks scope flag = marks' scope flag) :
    Acts conds tables order levels count leafAfter level watched out' marks' := by
  intro fuel num slots enough
  have all := acts fuel num slots enough
  refine ⟨all.1.trans (sameOut _), fun flag watch => ?_⟩
  exact (all.2 flag watch).trans (sameMarks _ flag watch)

end Acting

section Items

variable {conds : Conditions κ Row} {tables : Nat → List Row} {order : List Nat}
  {levels : Nat → LevelPlan κ} {count : Nat} {leafAfter : Nat → Nat}

def isLeftItem (item : Option (JoinClause κ)) : Bool := item.any fun join => join.op == .left

def itemConstraint (item : Option (JoinClause κ)) : Option κ := item.bind JoinClause.constraint

def ownChecks (level : Nat) (item : Option (JoinClause κ)) : List (LevelCheck κ) :=
  item.elim [] fun join => [⟨join.constraint, if join.op = .left then some level else none⟩]

structure PlansItem (levels : Nat → LevelPlan κ) (level : Nat) (item : Option (JoinClause κ))
    (extra : List (LevelCheck κ)) : Prop where
  checks : (levels level).checks = ownChecks level item ++ extra
  span : (levels level).nullSpan = if isLeftItem item then some (level, level) else none

/-- A row that a LEFT JOIN filled with NULLs: the tests behind the join's own are not asked. -/
def itemSkips (item : Option (JoinClause κ)) (table : Nat) (scope : Slots Row) : Bool :=
  isLeftItem item && (scope table).isNone

theorem itemRows_eq (table : Nat) (item : Option (JoinClause κ)) (scope : Slots Row) :
    itemRows conds tables table item scope =
      if isLeftItem item then leftRows conds tables table (itemConstraint item) scope
      else matchRows conds tables table (itemConstraint item) scope := by
  cases item with
  | none => rfl
  | some join => simp [itemRows, isLeftItem, itemConstraint]

theorem metChecks_own (conds : Conditions κ Row) (level : Nat)
    (item : Option (JoinClause κ)) (extra : List (LevelCheck κ)) (scope : Slots Row) :
    (metChecks conds scope (ownChecks level item ++ extra)).1 =
        (conds.met (itemConstraint item) scope && (metChecks conds scope extra).1) ∧
      ∀ flag, (metChecks conds scope (ownChecks level item ++ extra)).2 flag =
        (conds.met (itemConstraint item) scope &&
          ((isLeftItem item && level == flag) || (metChecks conds scope extra).2 flag)) := by
  cases item with
  | none => simp [ownChecks, itemConstraint, Conditions.met, isLeftItem]
  | some join =>
    simp only [ownChecks, elim_some, List.cons_append, List.nil_append]
    have passes : (mk join.constraint
        (if join.op = .left then some level else none)).passes (scopeIteration conds).test
          scope = conds.met join.constraint scope := rfl
    unfold metChecks
    rw [runChecks]
    simp only [passes, itemConstraint, bind_some]
    cases met : conds.met join.constraint scope with
    | false => simp
    | true =>
      have behind := runChecks_eq (scopeIteration conds) scope extra
        (mark ⟨join.constraint, if join.op = .left then some level else none⟩
          fun _ => false)
      simp only [↓reduceIte]
      refine ⟨behind.1, fun flag => ?_⟩
      rw [behind.2, mark_eq]
      by_cases left : join.op = .left
      all_goals simp [left, isLeftItem]

variable {α β : Type} (items : List α) (f : α → β) (keep : β → Bool)

theorem flatMap_filter (keep : α → Bool) (f : α → List β) :
    (items.filter keep).flatMap f = items.flatMap fun item => if keep item then f item else [] := by
  induction items with
  | nil => rfl
  | cons item rest ih =>
    rw [List.filter_cons, List.flatMap_cons]
    split
    · rw [List.flatMap_cons, ih]
    · rw [ih, List.nil_append]

theorem flatMap_filter_map {γ : Type}
    (g : β → List γ) :
    ((items.map f).filter keep).flatMap g =
      items.flatMap fun item => if keep (f item) then g (f item) else [] := by
  rw [flatMap_filter, List.flatMap_map]

theorem any_filter_map (test : β → Bool) :
    ((items.map f).filter keep).any test = items.any fun item => keep (f item) && test (f item) := by
  rw [List.any_filter, List.any_map]
  rfl

theorem any_congr_of_mem {items : List α} {test test' : α → Bool}
    (same : ∀ item ∈ items, test item = test' item) : items.any test = items.any test' := by
  induction items with
  | nil => rfl
  | cons item rest ih =>
    rw [List.any_cons, List.any_cons, same item List.mem_cons_self,
      ih fun next mem => same next (List.mem_cons_of_mem _ mem)]

variable {watched : Nat → Prop} {out : Slots Row → List (Slots Row)}
  {marks : Slots Row → Nat → Bool} {level table : Nat} {item : Option (JoinClause κ)}
  {extra : List (LevelCheck κ)}

theorem scanOut_item (checks : (levels level).checks = ownChecks level item ++ extra)
    (scope : Slots Row) :
    scanOut conds tables (levels level).checks table out marks scope =
      (matchRows conds tables table (itemConstraint item) scope).flatMap fun scope =>
        if (metChecks conds scope extra).1 then out scope else [] := by
  unfold scanOut matchRows
  rw [flatMap_filter_map, checks]
  apply List.flatMap_congr
  intro row _
  simp only [visitRow, (metChecks_own conds level item extra _).1]
  cases conds.met (itemConstraint item) (update scope table (some row)) with
  | false => rfl
  | true =>
    simp only [Bool.true_and]
    split <;> rfl

theorem scanMarks_item (checks : (levels level).checks = ownChecks level item ++ extra)
    (scope : Slots Row) (flag : Nat) :
    scanMarks conds tables (levels level).checks table out marks scope flag =
      (matchRows conds tables table (itemConstraint item) scope).any fun scope =>
        (isLeftItem item && level == flag) || (metChecks conds scope extra).2 flag ||
          ((metChecks conds scope extra).1 && marks scope flag) := by
  unfold scanMarks matchRows
  rw [any_filter_map, checks]
  apply congrArg (fun test => List.any (tables table) test)
  funext row
  have own := metChecks_own conds level item extra (update scope table (some row))
  simp only [visitRow, own.1]
  cases met : conds.met (itemConstraint item) (update scope table (some row)) with
  | false => simp [own.2, met]
  | true =>
    cases passed : (metChecks conds (update scope table (some row)) extra).1 with
    | false | true => simp [own.2, met]

theorem maskLevels_one (slots : Slots Row) :
    maskLevels level level slots = update slots level none := by
  funext other
  unfold maskLevels
  by_cases same : other = level
  · simp [same]
  have outside : ¬ (level ≤ other ∧ other ≤ level) := fun both =>
    same (Nat.le_antisymm both.2 both.1)
  rw [if_neg outside, update_of_ne same]

variable {constraint : Option κ} {scope found : Slots Row}

theorem mem_matchRows (mem : found ∈ matchRows conds tables table constraint scope) :
    ∃ row ∈ tables table, found = update scope table (some row) ∧
      conds.met constraint found = true := by
  obtain ⟨mapped, met⟩ := List.mem_filter.mp mem
  obtain ⟨row, inside, rfl⟩ := List.mem_map.mp mapped
  exact ⟨row, inside, rfl, met⟩

theorem matched_not_skipped (mem : found ∈ matchRows conds tables table constraint scope) :
    itemSkips item table found = false := by
  obtain ⟨row, _, rfl, _⟩ := mem_matchRows mem
  simp [itemSkips]

theorem Acts.ofItem (unnumbered : conds.Unnumbered) (nodup : order.Nodup)
    (bound : level < count) (here : order[level]? = some table)
    (plans : PlansItem levels level item extra)
    (apart : isLeftItem item = true → ∀ flag, watched flag → flag ≠ level)
    (below : Acts conds tables order levels count leafAfter (level + 1)
      (fun flag => watched flag ∨ flag = level) out marks) :
    Acts conds tables order levels count leafAfter level watched
      (fun scope => (itemRows conds tables table item scope).flatMap fun found =>
        if itemSkips item table found || (metChecks conds found extra).1 then out found else [])
      (fun scope flag => (itemRows conds tables table item scope).any fun found =>
        (!itemSkips item table found && (metChecks conds found extra).2 flag) ||
          ((itemSkips item table found || (metChecks conds found extra).1) &&
            marks found flag)) := by
  have narrow : Acts conds tables order levels count leafAfter (level + 1) watched out marks :=
    below.mono fun flag watch => .inl watch
  have onMatches : ∀ scope, ((matchRows conds tables table (itemConstraint item) scope).flatMap
        fun found => if (metChecks conds found extra).1 then out found else []) =
      (matchRows conds tables table (itemConstraint item) scope).flatMap fun found =>
        if itemSkips item table found || (metChecks conds found extra).1 then out found
        else [] := by
    intro scope
    apply List.flatMap_congr
    intro found mem
    rw [matched_not_skipped mem, Bool.false_or]
  have marksOnMatches : ∀ scope flag, (isLeftItem item && level == flag) = false →
      ((matchRows conds tables table (itemConstraint item) scope).any fun found =>
          (isLeftItem item && level == flag) || (metChecks conds found extra).2 flag ||
            ((metChecks conds found extra).1 && marks found flag)) =
        (matchRows conds tables table (itemConstraint item) scope).any fun found =>
          (!itemSkips item table found && (metChecks conds found extra).2 flag) ||
            ((itemSkips item table found || (metChecks conds found extra).1) &&
              marks found flag) := by
    intro scope flag quiet
    apply any_congr_of_mem
    intro found mem
    simp [quiet, matched_not_skipped mem]
  cases left : isLeftItem item with
  | false =>
    have span := plans.span
    rw [left] at span
    refine (Acts.scan unnumbered nodup bound here span narrow).congr (fun scope => ?_)
      fun scope flag watch => ?_
    · rw [scanOut_item plans.checks, itemRows_eq, left, onMatches]
      rfl
    · rw [scanMarks_item plans.checks, marksOnMatches scope flag (by simp [left]), itemRows_eq, left]
      rfl
  | true =>
    have span := plans.span
    rw [left] at span
    have masked : ∀ slots : Slots Row, joinScope order (maskLevels level level slots) =
        update (joinScope order slots) table none := by
      intro slots
      rw [maskLevels_one, joinScope_update nodup here]
    -- The flag of the level goes up exactly when the table has a match.
    have flagged : ∀ scope, scanMarks conds tables (levels level).checks table out marks
        scope level = !(matchRows conds tables table (itemConstraint item) scope).isEmpty := by
      intro scope
      rw [scanMarks_item plans.checks, left]
      cases matchRows conds tables table (itemConstraint item) scope with
      | nil => rfl
      | cons first rest => simp
    refine (Acts.outer unnumbered nodup bound here span le_rfl
      (fun scope => update scope table none) masked below narrow).congr
      (fun scope => ?_) fun scope flag watch => ?_
    on_goal 1 => rw [flagged, scanOut_item plans.checks, onMatches, itemRows_eq]
    on_goal 2 =>
      have other : level ≠ flag := fun same => apart left flag watch same.symm
      rw [flagged, scanMarks_item plans.checks, marksOnMatches scope flag (by simp [other]),
        itemRows_eq]
    all_goals
      simp only [leftRows, orAlone]
      cases matchRows conds tables table (itemConstraint item) scope with
      | nil => simp [itemSkips, left]
      | cons first rest => simp

/-- Whether the last of some tables was filled with NULLs by its LEFT JOIN. -/
def lastSkips : Nat → List (Option (JoinClause κ)) → Slots Row → Bool
  | _, [], _ => false
  | table, [item], scope => itemSkips item table scope
  | table, _ :: next :: rest, scope => lastSkips (table + 1) (next :: rest) scope

def PlansItems (levels : Nat → LevelPlan κ) (extra : List (LevelCheck κ)) :
    Nat → List (Option (JoinClause κ)) → Prop
  | _, [] => True
  | level, [item] => PlansItem levels level item extra
  | level, item :: next :: rest =>
    PlansItem levels level item [] ∧ PlansItems levels extra (level + 1) (next :: rest)

theorem Acts.ofItems (unnumbered : conds.Unnumbered) (nodup : order.Nodup)
    {items : List (Option (JoinClause κ))} (some_item : items ≠ [])
    (bound : level + items.length ≤ count)
    (here : ∀ index < items.length, order[level + index]? = some (table + index))
    (plans : PlansItems levels extra level items)
    (apart : ∀ index item, items[index]? = some item → isLeftItem item = true →
      ∀ flag, watched flag → flag ≠ level + index)
    (within : ∀ flag, watched flag → flag < level + items.length)
    (tail : Acts conds tables order levels count leafAfter (level + items.length)
      (fun flag => flag < level + items.length) out fun _ _ => false) :
    Acts conds tables order levels count leafAfter level watched
      (fun scope => (laterRows conds tables table items scope).flatMap fun found =>
        if lastSkips table items found || (metChecks conds found extra).1 then out found else [])
      (fun scope flag => (laterRows conds tables table items scope).any fun found =>
        !lastSkips table items found && (metChecks conds found extra).2 flag) := by
  -- Each level also watches its own flag from the level below on.
  induction items generalizing level table watched with
  | nil => exact absurd rfl some_item
  | cons item rest ih =>
    have first : order[level]? = some table := here 0 (by simp)
    cases rest with
    | nil =>
      have below := tail.mono (fun flag (watch : watched flag ∨ flag = level) => by
        rcases watch with old | own
        · exact within flag old
        · simp [own])
      refine (Acts.ofItem unnumbered nodup (by simp at bound; omega) first plans
        (fun left flag watch => apart 0 item rfl left flag watch) below).congr (fun scope => ?_)
        fun scope flag watch => ?_
      all_goals simp [laterRows, lastSkips]
    | cons next rest =>
      have placed : ∀ index < (next :: rest).length,
          order[level + 1 + index]? = some (table + 1 + index) := by
        intro index inside
        have found := here (index + 1) (by simpa using inside)
        rwa [show level + (index + 1) = level + 1 + index by omega,
          show table + (index + 1) = table + 1 + index by omega] at found
      have quiet : ∀ index other, (next :: rest)[index]? = some other →
          isLeftItem other = true → ∀ flag, watched flag ∨ flag = level →
            flag ≠ level + 1 + index := by
        intro index other found left flag watch
        rcases watch with old | own
        · have far := apart (index + 1) other (by simpa using found) left flag old
          omega
        · omega
      have length : level + (item :: next :: rest).length = level + 1 + (next :: rest).length := by
        simp
        omega
      rw [length] at bound within tail
      have deeper := @ih (fun flag => watched flag ∨ flag = level) (level + 1) (table + 1)
        (by simp) bound placed plans.2 quiet
        (fun flag watch => watch.elim (within flag) fun own => by simp; omega) tail
      refine (Acts.ofItem unnumbered nodup (by simp at bound; omega) first plans.1
        (fun left flag watch => apart 0 item rfl left flag watch) deeper).congr
        (fun scope => ?_) fun scope flag watch => ?_
      · simp [laterRows, lastSkips, metChecks, runChecks, List.flatMap_assoc]
      · simp [laterRows, lastSkips, metChecks, runChecks]

end Items

end SqliteRs
