import SqliteRs.OuterJoins

/-!
What the loops of a chain with outer joins emit, against the SQL meaning of the chain.
The plan keeps the order of the chain: in closed form, which table each level runs over,
which tests it makes and which levels get NULLs together.
-/

namespace SqliteRs

open List Function

variable {κ Row : Type}

section Steps

variable {conds : Conditions κ Row} {order : List Nat} {levels : Nat → LevelPlan κ}

theorem addCheck_self (levels : Nat → LevelPlan κ) (level : Nat) (check : LevelCheck κ) :
    addCheck levels level check level =
      { levels level with checks := (levels level).checks ++ [check] } :=
  update_self ..

variable {level other : Nat} {step : JoinClause κ × Nat}

theorem addCheck_of_ne (levels : Nat → LevelPlan κ) (check : LevelCheck κ) (apart : other ≠ level) :
    addCheck levels level check other = levels other :=
  update_of_ne apart ..

theorem setNullSpan_of_ne (levels : Nat → LevelPlan κ) (span : Nat × Nat) (apart : other ≠ level) :
    setNullSpan levels level span other = levels other :=
  update_of_ne apart ..

def itemPlan (level : Nat) (item : Option (JoinClause κ)) : LevelPlan κ where
  checks := ownChecks level item
  nullSpan := if isLeftItem item then some (level, level) else none

theorem normalStep_here {join : JoinClause κ} (normal : join.op ≠ .right) {pos : Nat}
    (fresh : levels (order.idxOf (pos + 1)) = {}) :
    addNormalStep conds false order levels (join, pos) (order.idxOf (pos + 1)) =
      itemPlan (order.idxOf (pos + 1)) (some join) := by
  by_cases left : join.op = .left
  · simp [addNormalStep, checkLevel, left, setNullSpan, addCheck, fresh, itemPlan, ownChecks,
      isLeftItem]
  · simp [addNormalStep, checkLevel, normal, left, addCheck, fresh, itemPlan, ownChecks, isLeftItem]

theorem normalStep_elsewhere (apart : step.1.op ≠ .right → level ≠ order.idxOf (step.2 + 1)) :
    addNormalStep conds false order levels step level = levels level := by
  by_cases right : step.1.op = .right
  · simp [addNormalStep, right]
  have other := apart right
  by_cases left : step.1.op = .left
  · simp [addNormalStep, checkLevel, left, setNullSpan, addCheck, other]
  · simp [addNormalStep, checkLevel, right, left, addCheck, other]

theorem normalSteps_elsewhere {steps : List (JoinClause κ × Nat)}
    (apart : ∀ step ∈ steps, step.1.op ≠ .right → level ≠ order.idxOf (step.2 + 1)) :
    steps.foldl (addNormalStep conds false order) levels level = levels level := by
  induction steps generalizing levels with
  | nil => rfl
  | cons step rest ih =>
    rw [foldl_cons, ih fun next mem => apart next (mem_cons_of_mem _ mem)]
    exact normalStep_elsewhere (apart step mem_cons_self)

theorem normalSteps_here {before after : List (JoinClause κ × Nat)} (normal : step.1.op ≠ .right)
    (apart : ∀ other ∈ before ++ after, order.idxOf (step.2 + 1) ≠ order.idxOf (other.2 + 1))
    (fresh : levels (order.idxOf (step.2 + 1)) = {}) :
    (before ++ step :: after).foldl (addNormalStep conds false order) levels
        (order.idxOf (step.2 + 1)) = itemPlan (order.idxOf (step.2 + 1)) (some step.1) := by
  rw [foldl_append, foldl_cons, normalSteps_elsewhere fun other mem _ =>
    apart other (mem_append_right _ mem)]
  apply normalStep_here normal
  rw [normalSteps_elsewhere fun other mem _ => apart other (mem_append_left _ mem)]
  exact fresh

end Steps

section Order

theorem zipIdx_positions (joins : List (JoinClause κ)) (start : Nat) :
    (joins.zipIdx start).map (·.2 + 1) = List.range' (start + 1) joins.length := by
  induction joins generalizing start with
  | nil => rfl
  | cons join rest ih => simp [ih, range'_succ]

theorem range'_zero_cons (count : Nat) : 0 :: List.range' 1 count = List.range (count + 1) := by
  rw [range_eq_range', range'_succ]

theorem workingOrder_normal {joins : List (JoinClause κ)} (others : ∀ join ∈ joins, join.op ≠ .right) :
    workingOrder joins = (List.range (joins.length + 1), none) := by
  unfold workingOrder
  rw [orderSteps_normal fun step mem => others step.1 (fst_mem_of_mem_zipIdx mem),
    zipIdx_positions, ← range'_zero_cons]
  rfl

def rightOrder (before after : Nat) : List Nat :=
  (before + 1) :: (List.range (before + 1) ++ List.range' (before + 2) after)

theorem workingOrder_right {before after : List (JoinClause κ)} {right : JoinClause κ}
    (isRight : right.op = .right) (othersBefore : ∀ join ∈ before, join.op ≠ .right)
    (othersAfter : ∀ join ∈ after, join.op ≠ .right) : workingOrder (before ++ right :: after) =
      (rightOrder before.length after.length, some ⟨before.length + 1, before.length⟩) := by
  unfold workingOrder
  rw [zipIdx_append, zipIdx_cons, foldl_append, foldl_cons,
    orderSteps_normal (fun step mem => othersBefore step.1 (fst_mem_of_mem_zipIdx mem)),
    orderSteps_normal (fun step mem => othersAfter step.1 (fst_mem_of_mem_zipIdx mem)),
    zipIdx_positions, zipIdx_positions]
  have front : [0] ++ range' (0 + 1) before.length = range (before.length + 1) :=
    range'_zero_cons _
  have deepest : (range (before.length + 1)).getLast?.getD 0 = before.length := by
    rw [range_succ, getLast?_concat]
    rfl
  simp [orderStep, isRight, front, deepest, rightOrder]

variable {table : Nat} (before after : Nat)

theorem rightOrder_nodup : (rightOrder before after).Nodup := by
  have disjoint : ∀ table ∈ range (before + 1), ∀ later ∈ range' (before + 2) after,
      table ≠ later := by
    intro table earlier later inside
    rw [mem_range] at earlier
    rw [mem_range'_1] at inside
    omega
  rw [rightOrder, nodup_cons, mem_append, mem_range, mem_range'_1]
  exact ⟨by omega, nodup_append.mpr ⟨nodup_range, nodup_range', disjoint⟩⟩

theorem rightOrder_length : (rightOrder before after).length = before + after + 2 := by
  simp [rightOrder]
  omega

theorem rightOrder_front {before : Nat} (bound : table ≤ before) :
    (rightOrder before after)[table + 1]? = some table := by
  have inside : table < (range (before + 1)).length := by
    rw [length_range]
    omega
  rw [rightOrder, getElem?_cons_succ, getElem?_append_left inside]
  exact getElem?_range (by omega)

theorem rightOrder_back {after index : Nat} (bound : index < after) :
    (rightOrder before after)[before + 2 + index]? = some (before + 2 + index) := by
  rw [rightOrder, show before + 2 + index = (before + 1 + index) + 1 by omega]
  simp [bound]
  omega

theorem idxOf_of_getElem? {order : List Nat} (nodup : order.Nodup) {level : Nat}
    (here : order[level]? = some table) : order.idxOf table = level := by
  obtain ⟨bound, rfl⟩ := List.getElem?_eq_some_iff.mp here
  exact nodup.idxOf_getElem level bound

end Order

section Levels

variable {conds : Conditions κ Row} {order : List Nat} {joins : List (JoinClause κ)}

variable (conds order joins) in
def normalLevels : Nat → LevelPlan κ :=
  joins.zipIdx.foldl (addNormalStep conds false order) fun _ => {}

theorem normalLevels_here (conds : Conditions κ Row)
    (covers : ∀ pos < joins.length, pos + 1 ∈ order)
    {pos : Nat} {join : JoinClause κ} (found : joins[pos]? = some join)
    (normal : join.op ≠ .right) : normalLevels conds order joins (order.idxOf (pos + 1)) =
      itemPlan (order.idxOf (pos + 1)) (some join) := by
  obtain ⟨bound, at_position⟩ := List.getElem?_eq_some_iff.mp found
  have split : joins = joins.take pos ++ join :: joins.drop (pos + 1) := by
    rw [← at_position, cons_getElem_drop_succ, take_append_drop]
  have parts : joins.zipIdx = (joins.take pos).zipIdx ++
      (join, pos) :: (joins.drop (pos + 1)).zipIdx (pos + 1) := by
    conv_lhs => rw [split]
    rw [zipIdx_append, zipIdx_cons, length_take, Nat.zero_add, Nat.min_eq_left (Nat.le_of_lt bound)]
  unfold normalLevels
  rw [parts]
  apply normalSteps_here normal _ rfl
  intro other mem equal
  have same : pos + 1 = other.2 + 1 := by
    refine (idxOf_inj (covers pos bound)).mp equal
  rcases mem_append.mp mem with earlier | later
  · have near := snd_lt_of_mem_zipIdx earlier
    rw [length_take] at near
    omega
  · have far := le_snd_of_mem_zipIdx later
    omega

theorem normalLevels_elsewhere {level : Nat}
    (apart : ∀ pos join, joins[pos]? = some join → join.op ≠ .right →
      level ≠ order.idxOf (pos + 1)) : normalLevels conds order joins level = {} := by
  apply normalSteps_elsewhere
  intro step mem normal
  exact apart step.2 step.1 (mem_zipIdx_iff_getElem?.mp mem) normal

theorem PlansItem.of_eq {levels : Nat → LevelPlan κ} {level : Nat} {item : Option (JoinClause κ)}
    (equal : levels level = itemPlan level item) : PlansItem levels level item [] := by
  constructor
  · rw [equal, append_nil]
    rfl
  · rw [equal]
    rfl

theorem PlansItems.of_each {levels : Nat → LevelPlan κ} {extra : List (LevelCheck κ)} {level : Nat}
    {items : List (Option (JoinClause κ))}
    (each : ∀ index item, items[index]? = some item →
      PlansItem levels (level + index) item (if index + 1 = items.length then extra else [])) :
    PlansItems levels extra level items := by
  induction items generalizing level with
  | nil => trivial
  | cons item rest ih =>
    cases rest with
    | nil => exact each 0 item rfl
    | cons next rest =>
      refine ⟨by simpa using each 0 item rfl, ih fun index other found => ?_⟩
      have here := each (index + 1) other (by simpa using found)
      simpa [Nat.add_assoc, Nat.add_comm 1] using here

end Levels

open Acts PlansItem

variable {κ Row : Type}

def Conditions.ReadsUpTo (conds : Conditions κ Row) (condition : κ) (table : Nat) : Prop :=
  ∀ number scope scope', (∀ earlier ≤ table, scope earlier = scope' earlier) →
    conds.holds condition number scope = conds.holds condition number scope'

/-- Each condition reads only tables joined so far, as in SQL the ON clause of a join does. -/
def ScopedFrom (conds : Conditions κ Row) (table : Nat) (joins : List (JoinClause κ)) : Prop :=
  ∀ index join condition, joins[index]? = some join → join.constraint = some condition →
    conds.ReadsUpTo condition (table + index)

section Chain

variable {conds : Conditions κ Row} {tables : Nat → List Row}

variable {table : Nat} {join : JoinClause κ} {rest : List (JoinClause κ)}
  {joins : List (JoinClause κ)}

theorem ScopedFrom.tail (reads : ScopedFrom conds table (join :: rest)) :
    ScopedFrom conds (table + 1) rest := by
  intro index next cond found asked
  have here := reads (index + 1) next cond (by simpa using found) asked
  rwa [show table + (index + 1) = table + 1 + index by omega] at here

theorem ScopedFrom.met_congr (reads : ScopedFrom conds table (join :: rest))
    {scope scope' : Slots Row} (same : ∀ earlier ≤ table, scope earlier = scope' earlier) :
    conds.met join.constraint scope = conds.met join.constraint scope' := by
  cases constraint : join.constraint with
  | none => rfl
  | some cond => exact reads 0 join cond rfl constraint 0 scope scope' same

theorem joinSteps_eq (others : ∀ join ∈ joins, join.op ≠ .right ∧ join.op ≠ .full) (start : Nat)
    (rows : List (Slots Row)) : (joins.zipIdx start).foldl (joinStep conds tables) rows =
      rows.flatMap (laterRows conds tables (start + 1) (joins.map some)) := by
  induction joins generalizing start rows with
  | nil => simp [laterRows]
  | cons join rest ih =>
    have step : joinStep conds tables rows (join, start) =
        rows.flatMap (itemRows conds tables (start + 1) (some join)) := by
      obtain ⟨notRight, notFull⟩ := others join mem_cons_self
      cases op : join.op with
      | right => exact absurd op notRight
      | full => exact absurd op notFull
      | _ =>
        simp only [joinStep, op]
        apply flatMap_congr
        simp [itemRows, op]
    rw [zipIdx_cons, foldl_cons, step,
      ih fun next mem => others next (mem_cons_of_mem _ mem), flatMap_assoc]
    rfl

theorem firstRows_eq : firstRows tables = itemRows conds tables 0 none fun _ => none := by
  exact (filter_eq_self.mpr fun _ _ => rfl).symm

theorem chainRows_eq
    (others : ∀ join ∈ joins, join.op ≠ .right ∧ join.op ≠ .full) : chainRows conds tables joins =
      laterRows conds tables 0 (none :: joins.map some) fun _ => none := by
  rw [chainRows, joinSteps_eq others, firstRows_eq]
  rfl

theorem laterRows_inner (inner : ∀ join ∈ joins, join.Inner)
    (reads : ScopedFrom conds table joins) (scope : Slots Row) :
    laterRows conds tables table (joins.map some) scope =
      (combinations tables (List.range' table joins.length) scope).filter fun final =>
        joins.all fun join => conds.met join.constraint final := by
  induction joins generalizing table scope with
  | nil => simp [laterRows, combinations]
  | cons join rest ih =>
    have notLeft : join.op ≠ .left := by
      rcases inner join mem_cons_self with op | op <;> simp [op]
    rw [map_cons, laterRows, length_cons, range'_succ, combinations, filter_flatMap]
    simp only [itemRows, notLeft, ↓reduceIte, matchRows, flatMap_filter_map]
    apply flatMap_congr
    intro row _
    have below := ih (fun next mem => inner next (mem_cons_of_mem _ mem)) reads.tail
    -- The condition reads nothing that is positioned further in.
    have settled : ∀ final ∈ combinations tables (range' (table + 1) rest.length)
        (update scope table (some row)), conds.met join.constraint final =
          conds.met join.constraint (update scope table (some row)) := by
      intro final mem
      apply reads.met_congr
      intro earlier bound
      apply combinations_frame mem
      rw [mem_range'_1]
      omega
    split
    · rename_i met
      rw [below]
      apply filter_congr
      intro final mem
      rw [all_cons, settled final mem, met, Bool.true_and]
    · rename_i unmet
      symm
      rw [filter_eq_nil_iff]
      intro final mem passed
      rw [all_cons, settled final mem, Bool.and_eq_true] at passed
      exact unmet passed.1

end Chain

section Spans

variable {conds : Conditions κ Row} {order : List Nat} {levels : Nat → LevelPlan κ}

theorem SpansDown.addCheck (down : SpansDown levels) (level : Nat) (check : LevelCheck κ) :
    SpansDown (SqliteRs.addCheck levels level check) := by
  intro other first last span
  unfold SqliteRs.addCheck at span
  by_cases same : other = level
  · subst same
    rw [update_self] at span
    exact down other first last span
  · rw [update_of_ne same] at span
    exact down other first last span

theorem SpansDown.setNullSpan (down : SpansDown levels) {level first last : Nat}
    (own : first = level) (reach : level ≤ last) :
    SpansDown (SqliteRs.setNullSpan levels level (first, last)) := by
  intro other start stop span
  unfold SqliteRs.setNullSpan at span
  by_cases same : other = level
  · subst same
    rw [update_self] at span
    cases span
    exact ⟨own, reach⟩
  · rw [update_of_ne same] at span
    exact down other start stop span

theorem SpansDown.normalSteps (reordered : Bool) (steps : List (JoinClause κ × Nat)) :
    SpansDown (steps.foldl (addNormalStep conds reordered order) fun _ => {}) := by
  have start : SpansDown fun _ => ({} : LevelPlan κ) := fun _ _ _ span => nomatch span
  generalize (fun _ => ({} : LevelPlan κ)) = levels at start ⊢
  induction steps generalizing levels with
  | nil => exact start
  | cons step rest ih =>
    apply ih
    unfold addNormalStep
    dsimp only
    split
    · exact start
    split
    · exact (start.addCheck _ _).setNullSpan rfl le_rfl
    · exact start.addCheck _ _

end Spans

section Running

variable {conds : Conditions κ Row} {tables : Nat → List Row}

def chainQuery (conds : Conditions κ Row) (tables : Nat → List Row)
    (joins : List (JoinClause κ)) (firstNumber : Nat) (leafAfter : Nat → Nat) :
    JoinedQuery κ Row (Slots Row) :=
  ⟨conds, tables, joins, firstNumber, leafAfter, fun _ scope => [scope]⟩

def joinedRows (conds : Conditions κ Row) (tables : Nat → List Row)
    (joins : List (JoinClause κ)) (firstNumber : Nat) (leafAfter : Nat → Nat) (costs : List Nat) :
    List (Slots Row) :=
  (chainQuery conds tables joins firstNumber leafAfter).rows costs

variable {joins : List (JoinClause κ)} {firstNumber : Nat} {leafAfter : Nat → Nat}
  {costs : List Nat}

theorem joinedRows_of_acts {out : Slots Row → List (Slots Row)}
    {marks : Slots Row → Nat → Bool} {watched : Nat → Prop}
    (down : SpansDown (joinLevels conds costs joins))
    (acts : Acts conds tables (joinOrder costs joins) (joinLevels conds costs joins)
      (joins.length + 1) leafAfter 0 watched out marks) :
    joinedRows conds tables joins firstNumber leafAfter costs = out fun _ => none := by
  exact (LoopNest.run_eq_meaning _ (compile_settled down _ _ _).apart _ _).1.trans
    (acts _ _ _ (by simp only [JoinedQuery.count, chainQuery]; omega)).1

theorem joinedRows_tried (down : SpansDown (joinLevels conds costs joins)) :
    joinedRows conds tables joins firstNumber leafAfter costs =
      (((chainQuery conds tables joins firstNumber leafAfter).tried costs).filter
        ((chainQuery conds tables joins firstNumber leafAfter).gives costs)).map
          (joinScope (joinOrder costs joins)) := by
  have settled : ((chainQuery conds tables joins firstNumber leafAfter).code costs).Settled :=
    compile_settled down _ _ _
  exact (LoopNest.run_eq_meaning _ settled.apart _ _).1.trans
    (LoopNest.meaning_eq_tried (fun _ _ => rfl) settled _)

/-- A row in FROM order tells how the levels were positioned. -/
theorem levels_of_joinScope {order : List Nat} (nodup : order.Nodup) {slots : Slots Row}
    (outside : ∀ level, order.length ≤ level → slots level = none) :
    (fun level => (order[level]?).bind (joinScope order slots)) = slots := by
  funext level
  by_cases bound : level < order.length
  · rw [getElem?_eq_getElem bound, Option.bind_some, joinScope, nodup.idxOf_getElem level bound]
  · rw [getElem?_eq_none (by omega), outside level (by omega)]
    rfl

/-- Where the loops with the numbers of the text give the wanted rows and others, those with
the compiled numbers give the wanted rows exactly when they decide so on each row. -/
theorem joinedRows_perm_iff {conds : Conditions κ Row} {joins : List (JoinClause (κ × Nat))}
    (down : SpansDown (joinLevels conds.spelled costs joins))
    (nodup : (joinOrder costs joins).Nodup) {wanted : List (Slots Row)} {lax : Slots Row → Bool}
    (kept : ((joinedRows conds.spelled tables joins firstNumber leafAfter costs).filter
      fun scope => !lax scope).Perm wanted) :
    (joinedRows conds.compiled tables joins firstNumber leafAfter costs).Perm wanted ↔
      ∀ slots ∈ (chainQuery conds.compiled tables joins firstNumber leafAfter).tried costs,
        (chainQuery conds.compiled tables joins firstNumber leafAfter).gives costs slots =
          ((chainQuery conds.spelled tables joins firstNumber leafAfter).gives costs slots &&
            !lax (joinScope (joinOrder costs joins) slots)) := by
  have sameTried : (chainQuery conds.spelled tables joins firstNumber leafAfter).tried costs =
      (chainQuery conds.compiled tables joins firstNumber leafAfter).tried costs := by
    unfold JoinedQuery.tried JoinedQuery.code
    exact congrArg (fun code : LoopNest ((κ × Nat) × Nat) Nat × Nat => code.1.tried _ _)
      (compileJoinLevel_numbered conds _ _ _ _ _ _).symm
  rw [joinedRows_tried down, sameTried, filter_map, filter_filter] at kept
  have numbers : SpansDown (joinLevels conds.compiled costs joins) := down
  rw [joinedRows_tried numbers, ← kept.congr_right,
    placed_perm_iff fun scope level => ((joinOrder costs joins)[level]?).bind scope]
  · simp only [Bool.and_comm, comp_apply]
  intro slots mem
  apply levels_of_joinScope nodup
  intro level beyond
  apply LoopNest.tried_none _ rfl mem
  exact congrArg (fun table : Option Nat => table.elim [] tables) (getElem?_eq_none beyond)

theorem Acts.later {order : List Nat} {levels : Nat → LevelPlan κ} {count level table : Nat}
    {leafAfter : Nat → Nat} {items : List (Option (JoinClause κ))}
    (unnumbered : conds.Unnumbered) (nodup : order.Nodup)
    (whole : level + items.length = count)
    (here : ∀ index < items.length, order[level + index]? = some (table + index))
    (plans : PlansItems levels [] level items) :
    Acts conds tables order levels count leafAfter level (fun flag => flag < level)
      (laterRows conds tables table items) fun _ _ => false := by
  subst whole
  cases items with
  | nil => exact leaf _
  | cons item rest =>
    refine (ofItems unnumbered nodup (by simp) le_rfl here plans ?_ ?_
      (leaf _)).congr
      (fun scope => ?_) fun scope flag watch => ?_
    · intro index other _ _ flag watch
      omega
    · intro flag watch
      omega
    all_goals simp [metChecks, runChecks]

theorem spansDown_normal (conds : Conditions κ Row) (costs : List Nat)
    (others : ∀ join ∈ joins, join.op ≠ .right) : SpansDown (joinLevels conds costs joins) := by
  simp only [joinLevels, workingOrder_normal others]
  exact .normalSteps _ _

theorem joinOrder_nodup (costs : List Nat) (others : ∀ join ∈ joins, join.op ≠ .right) :
    (joinOrder costs joins).Nodup := by
  unfold joinOrder
  split
  · exact (planJoinOrder_perm costs).nodup_iff.mpr nodup_range
  · rw [workingOrder_normal others]
    exact nodup_range

theorem joinedRows_left (mixed : isReorderableInnerChain joins = false)
    (others : ∀ join ∈ joins, join.op ≠ .right ∧ join.op ≠ .full)
    (unnumbered : conds.Unnumbered) :
    joinedRows conds tables joins firstNumber leafAfter costs =
      chainRows conds tables joins := by
  have working := workingOrder_normal fun join mem => (others join mem).1
  have order : joinOrder costs joins = range (joins.length + 1) := by
    simp [joinOrder, mixed, working]
  have levels : joinLevels conds costs joins =
      normalLevels conds (range (joins.length + 1)) joins := by
    simp [joinLevels, order, mixed, working, normalLevels]
  have pos : ∀ index ≤ joins.length,
      (range (joins.length + 1)).idxOf index = index := fun index bound =>
    idxOf_of_getElem? nodup_range (getElem?_range (by omega))
  have covers : ∀ index < joins.length, index + 1 ∈ range (joins.length + 1) := by
    intro index bound
    rw [mem_range]
    omega
  have plans : PlansItems (normalLevels conds (range (joins.length + 1)) joins) [] 0
      (none :: joins.map some) := by
    apply PlansItems.of_each
    intro index item found
    rw [ite_self, Nat.zero_add]
    apply PlansItem.of_eq
    cases index with
    | zero =>
      cases found
      apply normalLevels_elsewhere
      intro other join inside _
      rw [pos _ (List.getElem?_eq_some_iff.mp inside).1]
      omega
    | succ index =>
      rw [getElem?_cons_succ, getElem?_map, Option.map_eq_some_iff] at found
      obtain ⟨join, inside, rfl⟩ := found
      have here := normalLevels_here conds covers inside
        (others join (mem_of_getElem? inside)).1
      rwa [pos _ (List.getElem?_eq_some_iff.mp inside).1] at here
  rw [chainRows_eq others]
  apply joinedRows_of_acts (spansDown_normal conds costs fun join mem => (others join mem).1)
  rw [levels, order]
  apply later unnumbered nodup_range (by simp) _ plans
  intro index bound
  exact getElem?_range (by simpa using bound)

theorem joinedRows_inner (inner : isReorderableInnerChain joins = true)
    (sized : costs.length = joins.length + 1) (reads : ScopedFrom conds 1 joins)
    (unnumbered : conds.Unnumbered) :
    (joinedRows conds tables joins firstNumber leafAfter costs).Perm
      (chainRows conds tables joins) := by
  have each : ∀ join ∈ joins, join.Inner := by
    intro join mem
    simpa [JoinClause.Inner] using all_eq_true.mp inner join mem
  have others : ∀ join ∈ joins, join.op ≠ .right ∧ join.op ≠ .full := by
    intro join mem
    rcases each join mem with op | op <;> simp [op]
  have planned : joinedRows conds tables joins firstNumber leafAfter costs =
      (combinations tables (planJoinOrder costs) fun _ => none).filter fun scope =>
        joins.all fun join => conds.met join.constraint scope := by
    unfold joinedRows
    rw [JoinedQuery.rows_inner inner sized, ← flatMap_ite_singleton]
    apply flatMap_congr
    intro scope _
    rw [JoinedQuery.tests_all inner sized unnumbered]
    rfl
  have spelled : chainRows conds tables joins =
      (combinations tables (range (joins.length + 1)) fun _ => none).filter fun scope =>
        joins.all fun join => conds.met join.constraint scope := by
    rw [chainRows_eq others, laterRows, ← firstRows_eq, firstRows, flatMap_map,
      ← range'_zero_cons, combinations, filter_flatMap]
    apply flatMap_congr
    intro row _
    exact laterRows_inner each reads _
  have shuffled := planJoinOrder_perm costs
  rw [sized] at shuffled
  rw [planned, spelled]
  exact (combinations_perm shuffled _).filter _

end Running

section Right

variable {conds : Conditions κ Row} {tables : Nat → List Row}
  {before after : List (JoinClause κ)} {right : JoinClause κ} {firstNumber : Nat}
  {leafAfter : Nat → Nat} {costs : List Nat} {items : List (Option (JoinClause κ))}

def itemsBefore (before : List (JoinClause κ)) : List (Option (JoinClause κ)) :=
  none :: before.map some

theorem itemsBefore_length : (itemsBefore before).length = before.length + 1 := by
  simp [itemsBefore]

structure RightLevels (levels : Nat → LevelPlan κ) (before after : List (JoinClause κ))
    (right : JoinClause κ) : Prop where
  outermost : PlansItem levels 0 none []
  first : (levels 1).checks = if before = [] then [⟨right.constraint, some 1⟩] else []
  span : (levels 1).nullSpan = some (1, before.length + 1)
  nested : PlansItems levels [⟨right.constraint, some 1⟩] 2 (before.map some)
  later : PlansItems levels [] (before.length + 2) (after.map some)

theorem rightOrder_idxOf_front (after : Nat) {before table : Nat} (bound : table ≤ before) :
    (rightOrder before after).idxOf table = table + 1 :=
  idxOf_of_getElem? (rightOrder_nodup _ _) (rightOrder_front _ bound)

theorem rightOrder_idxOf_back (before : Nat) {after index : Nat} (bound : index < after) :
    (rightOrder before after).idxOf (before + 2 + index) = before + 2 + index :=
  idxOf_of_getElem? (rightOrder_nodup _ _) (rightOrder_back _ bound)

section

variable (conds costs) (isRight : right.op = .right)
  (othersBefore : ∀ join ∈ before, join.op ≠ .right)
  (othersAfter : ∀ join ∈ after, join.op ≠ .right)

include isRight othersBefore othersAfter

theorem joinOrder_right : joinOrder costs (before ++ right :: after) =
    rightOrder before.length after.length := by
  simp [joinOrder, isReorderableInnerChain, isRight,
    workingOrder_right isRight othersBefore othersAfter]

theorem joinLevels_right : joinLevels conds costs (before ++ right :: after) =
      setNullSpan (addCheck (normalLevels conds (rightOrder before.length after.length)
        (before ++ right :: after)) (before.length + 1) ⟨right.constraint, some 1⟩) 1
        (1, before.length + 1) := by
  have mixed : isReorderableInnerChain (before ++ right :: after) = false := by
    simp [isReorderableInnerChain, isRight]
  have outer : (rightOrder before.length after.length).idxOf (before.length + 1) = 0 :=
    idxOf_of_getElem? (rightOrder_nodup _ _) rfl
  simp [joinLevels, joinOrder_right costs isRight othersBefore othersAfter, mixed,
    workingOrder_right isRight othersBefore othersAfter, addRightStep, outer,
    rightOrder_idxOf_front, normalLevels]

theorem spansDown_right : SpansDown (joinLevels conds costs (before ++ right :: after)) := by
  rw [joinLevels_right conds costs isRight othersBefore othersAfter]
  exact ((SpansDown.normalSteps _ _).addCheck _ _).setNullSpan rfl (by omega)

theorem rightLevels :
    RightLevels (joinLevels conds costs (before ++ right :: after)) before after right := by
  have covers : ∀ pos < (before ++ right :: after).length,
      pos + 1 ∈ rightOrder before.length after.length := by
    intro pos bound
    simp only [length_append, length_cons] at bound
    simp only [rightOrder, mem_cons, mem_append, mem_range, mem_range'_1]
    omega
  -- Every other table has its level at 2 or further in.
  have deep : ∀ level < 2, normalLevels conds (rightOrder before.length after.length)
      (before ++ right :: after) level = {} := by
    intro level shallow
    apply normalLevels_elsewhere
    intro pos join found normal
    have bound := (List.getElem?_eq_some_iff.mp found).1
    simp only [length_append, length_cons] at bound
    rcases Nat.lt_trichotomy pos before.length with earlier | same | behind
    · rw [rightOrder_idxOf_front _ earlier]
      omega
    · rw [same, getElem?_append_right le_rfl, Nat.sub_self] at found
      cases found
      exact absurd isRight normal
    · rw [show pos + 1 = before.length + 2 + (pos - before.length - 1) by omega,
        rightOrder_idxOf_back _ (by omega)]
      omega
  have nestedPlan : ∀ index join, before[index]? = some join →
      normalLevels conds (rightOrder before.length after.length) (before ++ right :: after)
        (2 + index) = itemPlan (2 + index) (some join) := by
    intro index join found
    have bound := (List.getElem?_eq_some_iff.mp found).1
    have whole : (before ++ right :: after)[index]? = some join := by
      rwa [getElem?_append_left bound]
    have here := normalLevels_here conds covers whole
      (othersBefore join (mem_of_getElem? found))
    rwa [rightOrder_idxOf_front _ bound, show index + 1 + 1 = 2 + index by omega] at here
  have laterPlan : ∀ index join, after[index]? = some join →
      normalLevels conds (rightOrder before.length after.length) (before ++ right :: after)
        (before.length + 2 + index) = itemPlan (before.length + 2 + index) (some join) := by
    intro index join found
    have bound := (List.getElem?_eq_some_iff.mp found).1
    have whole : (before ++ right :: after)[before.length + 1 + index]? = some join := by
      rw [getElem?_append_right (by omega),
        show before.length + 1 + index - before.length = index + 1 by omega]
      exact found
    have here := normalLevels_here conds covers whole
      (othersAfter join (mem_of_getElem? found))
    rwa [show before.length + 1 + index + 1 = before.length + 2 + index by omega,
      rightOrder_idxOf_back _ bound] at here
  rw [joinLevels_right conds costs isRight othersBefore othersAfter]
  generalize normalLevels conds (rightOrder before.length after.length)
    (before ++ right :: after) = normal at deep nestedPlan laterPlan
  have zero := deep 0 (by omega)
  have one := deep 1 (by omega)
  constructor
  · apply PlansItem.of_eq
    simp [setNullSpan, addCheck, zero, itemPlan, ownChecks, isLeftItem]
  · by_cases empty : before = []
    all_goals simp [setNullSpan, addCheck, one, empty]
  · simp [setNullSpan]
  all_goals
    apply PlansItems.of_each
    intro index item found
    rw [getElem?_map, Option.map_eq_some_iff] at found
    obtain ⟨join, inside, rfl⟩ := found
  · have plan := nestedPlan index join inside
    have below : 2 + index ≠ 1 := by omega
    by_cases last : index + 1 = before.length
    · have level : before.length + 1 = 2 + index := by omega
      rw [length_map, if_pos last]
      constructor
      all_goals
        rw [setNullSpan_of_ne _ _ below, level, addCheck_self, plan]
        rfl
    · have level : 2 + index ≠ before.length + 1 := by omega
      rw [length_map, if_neg last]
      apply PlansItem.of_eq
      rw [setNullSpan_of_ne _ _ below, addCheck_of_ne _ _ level, plan]
  · rw [ite_self]
    apply PlansItem.of_eq
    rw [setNullSpan_of_ne _ _ (by omega), addCheck_of_ne _ _ (by omega), laterPlan index join inside]

end

def nullBefore (count : Nat) (scope : Slots Row) : Slots Row :=
  fun table => if table ≤ count then none else scope table

theorem joinScope_nullBefore (before after : Nat) (slots : Slots Row) :
    joinScope (rightOrder before after) (maskLevels 1 (before + 1) slots) =
      nullBefore before (joinScope (rightOrder before after) slots) := by
  funext table
  unfold joinScope maskLevels nullBefore
  by_cases early : table ≤ before
  · rw [rightOrder_idxOf_front _ early]
    simp [early]
  -- The levels of the span run over the tables before the RIGHT JOIN only.
  have outside : ¬ (1 ≤ (rightOrder before after).idxOf table ∧
      (rightOrder before after).idxOf table ≤ before + 1) := by
    rintro ⟨low, high⟩
    have inside : (rightOrder before after).idxOf table < (rightOrder before after).length := by
      rw [rightOrder_length]
      omega
    have found := getElem_idxOf inside
    have here := rightOrder_front after
      (show (rightOrder before after).idxOf table - 1 ≤ before by omega)
    rw [Nat.sub_add_cancel low, getElem?_eq_getElem inside] at here
    have same := Option.some.inj here
    omega
  rw [if_neg outside, if_neg early]

/-- What the loops below the RIGHT JOIN's table emit for one of its rows. -/
def besideRight (conds : Conditions κ Row) (tables : Nat → List Row)
    (before after : List (JoinClause κ)) (right : JoinClause κ) (scope : Slots Row) :
    List (Slots Row) :=
  ((laterRows conds tables 0 (itemsBefore before) scope).flatMap fun found =>
    if lastSkips 0 (itemsBefore before) found || conds.met right.constraint found then
      laterRows conds tables (before.length + 2) (after.map some) found
    else []) ++
  if (laterRows conds tables 0 (itemsBefore before) scope).any fun found =>
      !lastSkips 0 (itemsBefore before) found && conds.met right.constraint found then []
  else laterRows conds tables (before.length + 2) (after.map some)
    (nullBefore before.length scope)

theorem metChecks_nil (scope : Slots Row) : metChecks conds scope [] = (true, fun _ => false) :=
  rfl

theorem metChecks_single (constraint : Option κ) (flag : Nat) (scope : Slots Row) :
    (metChecks conds scope [⟨constraint, some flag⟩]).1 = conds.met constraint scope ∧
      ∀ other, (metChecks conds scope [⟨constraint, some flag⟩]).2 other =
        (conds.met constraint scope && flag == other) := by
  have passes : (LevelCheck.mk constraint (some flag)).passes (scopeIteration conds).test
      scope = conds.met constraint scope := rfl
  unfold metChecks
  rw [runChecks]
  simp only [passes]
  cases conds.met constraint scope with
  | false => simp
  | true => simp [runChecks, LevelCheck.mark_eq]

section Nested

variable {levels : Nat → LevelPlan κ} (planned : RightLevels levels before after right)
  (unnumbered : conds.Unnumbered)

include planned unnumbered

theorem RightLevels.acts_later (tables : Nat → List Row) (leafAfter : Nat → Nat) :
    Acts conds tables (rightOrder before.length after.length) levels
      (before.length + after.length + 2) leafAfter (before.length + 2)
      (fun flag => flag < before.length + 2)
      (laterRows conds tables (before.length + 2) (after.map some)) fun _ _ => false := by
  apply Acts.later unnumbered (rightOrder_nodup _ _) _ _ planned.later
  · rw [length_map]
    omega
  · intro index bound
    exact rightOrder_back _ (by simpa using bound)

theorem RightLevels.acts_nested (some_join : before ≠ []) :
    Acts conds tables (rightOrder before.length after.length) levels
      (before.length + after.length + 2) leafAfter 2 (fun flag => flag = 0 ∨ flag = 1)
      (fun scope => (laterRows conds tables 1 (before.map some) scope).flatMap fun found =>
        if lastSkips 1 (before.map some) found ||
            (metChecks conds found [⟨right.constraint, some 1⟩]).1 then
          laterRows conds tables (before.length + 2) (after.map some) found
        else [])
      fun scope flag => (laterRows conds tables 1 (before.map some) scope).any fun found =>
        !lastSkips 1 (before.map some) found &&
          (metChecks conds found [⟨right.constraint, some 1⟩]).2 flag := by
  have length : 2 + (before.map some).length = before.length + 2 := by
    rw [length_map]
    omega
  apply ofItems unnumbered (rightOrder_nodup _ _) _ _ _ planned.nested
  · intro index item found left flag watch
    omega
  · intro flag watch
    omega
  · rw [length]
    exact planned.acts_later unnumbered _ _
  · simpa using some_join
  · rw [length]
    omega
  intro index inside
  rw [show 2 + index = 1 + index + 1 by omega]
  apply rightOrder_front
  omega

theorem RightLevels.acts_first (tables : Nat → List Row) (leafAfter : Nat → Nat) :
    ∃ marks, Acts conds tables (rightOrder before.length after.length) levels
      (before.length + after.length + 2) leafAfter 1 (fun flag => flag = 0)
      (besideRight conds tables before after right) marks := by
  have nodup := rightOrder_nodup before.length after.length
  have first : (rightOrder before.length after.length)[1]? = some 0 :=
    rightOrder_front _ (Nat.zero_le _)
  have tail := planned.acts_later unnumbered tables leafAfter
  have behind := tail.mono fun flag (watch : flag = 0) => by omega
  have bound : 1 < before.length + after.length + 2 := by omega
  by_cases empty : before = []
  · subst empty
    have checks : (levels 1).checks = ownChecks 1 none ++ [⟨right.constraint, some 1⟩] :=
      planned.first
    have below := tail.mono fun flag (watch : flag = 0 ∨ flag = 1) => by
      omega
    refine ⟨_, (outer unnumbered nodup bound first planned.span (by simp) (nullBefore 0)
      (joinScope_nullBefore 0 after.length) below behind).congr (fun scope => ?_) fun _ _ _ => rfl⟩
    have rows : laterRows conds tables 0 (itemsBefore []) scope =
        matchRows conds tables 0 none scope := by
      simp [itemsBefore, laterRows, itemRows]
    have skipped : ∀ found : Slots Row,
        lastSkips 0 (itemsBefore ([] : List (JoinClause κ))) found = false := fun _ => rfl
    rw [scanOut_item checks, scanMarks_item checks, besideRight, rows]
    simp [skipped, metChecks_single, itemConstraint, isLeftItem]
  · have checks : (levels 1).checks = ownChecks 1 none ++ [] := by
      rw [planned.first, if_neg empty]
      rfl
    refine ⟨_, (outer unnumbered nodup bound first planned.span (by omega)
      (nullBefore before.length) (joinScope_nullBefore before.length after.length)
      (planned.acts_nested unnumbered empty) behind).congr (fun scope => ?_) fun _ _ _ => rfl⟩
    obtain ⟨join, rest, rfl⟩ := exists_cons_of_ne_nil empty
    have skipped : ∀ found : Slots Row, lastSkips 0 (itemsBefore (join :: rest)) found =
        lastSkips 1 ((join :: rest).map some) found := fun _ => rfl
    have rows : laterRows conds tables 0 (itemsBefore (join :: rest)) scope =
        (matchRows conds tables 0 none scope).flatMap
          (laterRows conds tables 1 ((join :: rest).map some)) := rfl
    rw [scanOut_item checks, scanMarks_item checks, besideRight, rows]
    simp [skipped, metChecks_single, metChecks_nil, itemConstraint, isLeftItem, flatMap_assoc]

end Nested

theorem joinedRows_right (isRight : right.op = .right)
    (othersBefore : ∀ join ∈ before, join.op ≠ .right) (othersAfter : ∀ join ∈ after, join.op ≠ .right)
    (unnumbered : conds.Unnumbered) :
    joinedRows conds tables (before ++ right :: after) firstNumber leafAfter costs =
      (tables (before.length + 1)).flatMap fun row =>
        besideRight conds tables before after right (aloneWith (before.length + 1) row) := by
  have planned := rightLevels conds costs isRight othersBefore othersAfter
  have down := spansDown_right conds costs isRight othersBefore othersAfter
  obtain ⟨marks, first⟩ := planned.acts_first unnumbered tables leafAfter
  have below := first.mono fun flag (watch : False ∨ flag = 0) => watch.elim False.elim id
  have outermost := ofItem unnumbered (rightOrder_nodup _ _)
    (show 0 < before.length + after.length + 2 by omega) rfl planned.outermost (by simp) below
  have whole : before.length + after.length + 2 = (before ++ right :: after).length + 1 := by
    simp
    omega
  rw [whole, ← joinOrder_right costs isRight othersBefore othersAfter] at outermost
  rw [joinedRows_of_acts down outermost, itemRows, matchRows, flatMap_filter_map]
  simp [Conditions.met, metChecks_nil, aloneWith]

theorem laterRows_frame {table : Nat} {scope found : Slots Row}
    (mem : found ∈ laterRows conds tables table items scope) {other : Nat}
    (early : other < table) :
    found other = scope other := by
  induction items generalizing table scope with
  | nil => rw [mem_singleton.mp mem]
  | cons item rest ih =>
    obtain ⟨middle, here, below⟩ := mem_flatMap.mp mem
    rw [ih below (by omega)]
    have matched (inside : middle ∈ matchRows conds tables table (itemConstraint item) scope) :
        middle other = scope other := by
      obtain ⟨row, -, rfl, -⟩ := mem_matchRows inside
      exact update_of_ne (by omega) ..
    rw [itemRows_eq, leftRows, orAlone] at here
    split at here
    · split at here
      · rw [mem_singleton.mp here]
        exact update_of_ne (by omega) ..
      · exact matched here
    · exact matched here

theorem update_laterRows {table other : Nat}
    (beyond : table + items.length ≤ other) (reads : ∀ index item cond, items[index]? = some item →
      itemConstraint item = some cond → conds.ReadsUpTo cond (table + index))
    (scope : Slots Row) (row : Option Row) :
    laterRows conds tables table items (update scope other row) =
      (laterRows conds tables table items scope).map fun found => update found other row := by
  induction items generalizing table scope with
  | nil => rfl
  | cons item rest ih =>
    have apart : table ≠ other := by
      simp at beyond
      omega
    have answers : ∀ found : Slots Row, conds.met (itemConstraint item) (update found other row) =
          conds.met (itemConstraint item) found := by
      intro found
      cases constraint : itemConstraint item with
      | none => rfl
      | some cond =>
        apply reads 0 item cond rfl constraint
        intro earlier bound
        exact update_of_ne (by omega) _ _
    have matched : matchRows conds tables table (itemConstraint item)
        (update scope other row) =
          (matchRows conds tables table (itemConstraint item) scope).map fun found =>
            update found other row := by
      unfold matchRows
      rw [filter_map, filter_map, map_map]
      simp [comp_def, update_comm apart.symm, answers]
    have here : itemRows conds tables table item (update scope other row) =
        (itemRows conds tables table item scope).map fun found =>
          update found other row := by
      rw [itemRows_eq, itemRows_eq]
      split
      · unfold leftRows orAlone
        rw [matched, isEmpty_map]
        split
        · simp [update_comm apart]
        · rfl
      · exact matched
    have within : table + 1 + rest.length ≤ other := by
      simp at beyond
      omega
    have deeper := ih within fun index next cond found asked => by
      have later := reads (index + 1) next cond (by simpa using found) asked
      rwa [show table + (index + 1) = table + 1 + index by omega] at later
    rw [laterRows, laterRows, here, flatMap_map, map_flatMap]
    apply flatMap_congr
    intro found _
    exact deeper found

end Right

end SqliteRs
