import SqliteRs.DistinctRows
import SqliteRs.IndexAggregate
import SqliteRs.SortedRuns

/-!
GROUP BY as a walk over rows in key order. A row opens a new group when its key is not the
key of the open group's first row; the group before it is flushed then, and the last one
behind the loop. The walk goes over the sorter's buffer, where the rowid is only a field of
the record and an expression over its alias fails, or along an index with the table's own
cursor, where the field of the rowid's alias is NULL. A join buffers flat rows, and folds
every argument of a DISTINCT call.

The argument of an aggregate is compiled once for the rows that open a group and once for the
rows behind them, and a computed key once for the sorter and once for the walk. A `?` in them
takes a new number in each copy, so what it reads depends on the row's place.
-/

namespace SqliteRs

open List Except

inductive ScanError where
  | cursorTypeMismatch
  | ephemeralRowLimitExceeded
  | typeMismatch
deriving DecidableEq, Repr

section Pairs

variable {First Second : Type} {rel check : First → Second → Prop} {firsts : List First}

theorem exists_forall₂ (found : ∀ first ∈ firsts, ∃ second, rel first second) :
    ∃ seconds, Forall₂ rel firsts seconds := by
  induction firsts with
  | nil => exact ⟨[], .nil⟩
  | cons first rest ih =>
    obtain ⟨⟨second, here⟩, later⟩ := forall_mem_cons.mp found
    obtain ⟨seconds, pairs⟩ := ih later
    exact ⟨second :: seconds, .cons here pairs⟩

theorem forall₂_right {seconds : List Second}
    (pairs : Forall₂ rel firsts seconds) : ∀ second ∈ seconds, ∃ first ∈ firsts, rel first second := by
  induction pairs with
  | nil => simp
  | cons here _ ih =>
    refine forall_mem_cons.mpr ⟨⟨_, .head _, here⟩, fun second mem => ?_⟩
    obtain ⟨first, inside, found⟩ := ih second mem
    exact ⟨first, .tail _ inside, found⟩

theorem forall₂_both {seconds : List Second}
    (pairs : Forall₂ rel firsts seconds) (checked : Forall₂ check firsts seconds) :
    ∀ first ∈ firsts, ∃ second, rel first second ∧ check first second := by
  induction pairs with
  | nil => simp
  | cons here _ ih =>
    obtain ⟨one, others⟩ := forall₂_cons.mp checked
    exact forall_mem_cons.mpr ⟨⟨_, here, one⟩, ih others⟩

end Pairs

/-- An expression by the columns it reads, each value read deciding how it goes on. -/
inductive ColumnReads where
  | done (held : Value)
  | column (position : Nat) (next : Value → ColumnReads)

namespace ColumnReads

def eval (read : Nat → Except ScanError Value) : ColumnReads → Except ScanError Value
  | .done held => .ok held
  | .column position next => (read position).bind fun value => (next value).eval read

def result (read : Nat → Value) : ColumnReads → Value
  | .done held => held
  | .column position next => (next (read position)).result read

def columnsRead (read : Nat → Value) : ColumnReads → List Nat
  | .done _ => []
  | .column position next => position :: (next (read position)).columnsRead read

theorem eval_iff {refused : Option Nat} {read : Nat → Value} {reads : ColumnReads}
    {value : Value} :
    reads.eval (fun pos => if refused = some pos then .error .cursorTypeMismatch else .ok (read pos))
        = .ok value ↔
      (∀ pos ∈ reads.columnsRead read, refused ≠ some pos) ∧ value = reads.result read := by
  induction reads with
  | done held => simp [eval, columnsRead, result, eq_comm]
  | column pos next ih =>
    by_cases bad : refused = some pos
    · simp [eval, columnsRead, bad, Except.bind]
    · simp [eval, columnsRead, result, bad, Except.bind, ih]

end ColumnReads

inductive AggFunction where
  | count
  | total (function : SumFunction)
  | min
  | max

/-- The running extremum of `min` and `max`, which NULL leaves alone. -/
def keepExtreme (better : Ordering) (collation : Collation) (held : Option Value) (value : Value) :
    Option Value :=
  if value = .null then held
  else match held with
    | none => some value
    | some current => if value.compare current collation = better then some value else held

/-- What `AggFinal` gives behind one `AggStep` for each argument. -/
def AggFunction.final (lossy : Bytes → List Char) (collation : Collation) (args : List Value) :
    AggFunction → Except QueryError Value
  | .count => .ok (.integer (args.countP (· ≠ .null)))
  | .total function => sumValues lossy function args
  | .min => .ok ((args.foldl (keepExtreme .lt collation) none).getD .null)
  | .max => .ok ((args.foldl (keepExtreme .gt collation) none).getD .null)

/-- An aggregate call; `count(*)` counts a constant. `place` is the number of the last parameter
in front of the argument in the text of the statement. -/
structure AggCall where
  function : AggFunction
  arg : Compiled ColumnReads
  place : Nat := 0
  distinct : Bool := false
  collation : Collation := .binary

/-- A call with the copies of its argument: one for the row that opens a group, which resets the
accumulator, and one for the rows behind it. -/
structure CompiledCall extends AggCall where
  first : ColumnReads
  later : ColumnReads

def CompiledCall.copy (call : CompiledCall) (opens : Bool) : ColumnReads :=
  if opens then call.first else call.later

/-- A pass over rows that stand in key order. -/
structure GroupPlan (Row : Type) where
  key : Row → Except ScanError (List Value)
  same : List Value → List Value → Bool
  read : Row → Nat → Except ScanError Value
  calls : List CompiledCall
  dedups : Bool := true
  keepsFirst : Bool := true

/-- An open group. An accumulator is held by the arguments it has folded since its reset, and
`members` are the rows that they are from. -/
structure OpenGroup (Row : Type) where
  key : List Value
  snapshot : Row
  members : List Row
  slots : List (List Value)

/-- The rows of a group, the first of which opens it. -/
def opened {Row : Type} : List Row → List (Bool × Row)
  | [] => []
  | row :: rest => (true, row) :: rest.map (false, ·)

namespace GroupPlan

variable {Row : Type} (plan : GroupPlan Row)

/-- `AggStep`, behind `Found` and `IdxInsert` where the call is DISTINCT. The ephemeral index
holds the keys of what was folded. -/
def emitAggStep (call : CompiledCall) (slot : List Value) (entry : Bool × Row) :
    Except ScanError (List Value) := do
  let value ← (call.copy entry.1).eval (plan.read entry.2)
  if call.distinct && plan.dedups then
    match distinctStep (encodedKey .binary) slot value with
    | none => .error .ephemeralRowLimitExceeded
    | some folded => return folded
  else return slot ++ [value]

def accumulate : List CompiledCall → List (List Value) → Bool × Row →
    Except ScanError (List (List Value))
  | call :: calls, slot :: slots, entry => do
    let folded ← plan.emitAggStep call slot entry
    let others ← accumulate calls slots entry
    return folded :: others
  | _, _, _ => return []

def start (key : List Value) (row : Row) : Except ScanError (OpenGroup Row) := do
  let slots ← plan.accumulate plan.calls (plan.calls.map fun _ => []) (true, row)
  return ⟨key, row, [row], slots⟩

def extend (group : OpenGroup Row) (row : Row) : Except ScanError (OpenGroup Row) := do
  let slots ← plan.accumulate plan.calls group.slots (false, row)
  return ⟨group.key, if plan.keepsFirst then group.snapshot else row, group.members ++ [row], slots⟩

def step : List (OpenGroup Row) × Option (OpenGroup Row) → Row →
    Except ScanError (List (OpenGroup Row) × Option (OpenGroup Row))
  | (flushed, none), row => do
    let key ← plan.key row
    let group ← plan.start key row
    return (flushed, some group)
  | (flushed, some group), row => do
    let key ← plan.key row
    if plan.same group.key key then
      let group ← plan.extend group row
      return (flushed, some group)
    else
      let next ← plan.start key row
      return (flushed ++ [group], some next)

def run (rows : List Row) : Except ScanError (List (OpenGroup Row)) := do
  let (flushed, last) ← rows.foldlM plan.step ([], none)
  return flushed ++ last.toList

section Loop

variable {plan} (keyOf : Row → List Value) {group : OpenGroup Row} {out : List (OpenGroup Row)}

def groupOf (plan : GroupPlan Row) (group : Row × List Row) : Except ScanError (OpenGroup Row) := do
  let slots ← (opened group.2).foldlM (plan.accumulate plan.calls) (plan.calls.map fun _ => [])
  return ⟨keyOf group.1, if plan.keepsFirst then group.1 else group.2.getLastD group.1, group.2, slots⟩

theorem opened_append (leader : Row) (members more : List Row) :
    opened (leader :: members ++ more) = opened (leader :: members) ++ more.map (false, ·) := by
  simp [opened]

theorem start_eq (row : Row) : plan.start (keyOf row) row = groupOf keyOf plan (row, [row]) := by
  simp [start, groupOf, opened]

theorem extend_eq {leader row : Row} {members : List Row}
    (made : groupOf keyOf plan (leader, leader :: members) = .ok group) :
    plan.extend group row = groupOf keyOf plan (leader, leader :: members ++ [row]) := by
  obtain ⟨slots, folded, same⟩ := bind_ok_iff.mp made
  cases same
  simp only [extend, groupOf, opened_append, foldlM_append, folded]
  cases plan.keepsFirst <;> cases added : plan.accumulate plan.calls slots (false, row) <;>
    simp [bind, Except.bind, added, pure, Except.pure, getLast?_cons]

theorem groupOf_front {leader : Row} {members more : List Row}
    (made : groupOf keyOf plan (leader, leader :: members ++ more) = .ok group) :
    ∃ front, groupOf keyOf plan (leader, leader :: members) = .ok front := by
  obtain ⟨slots, folded, -⟩ := bind_ok_iff.mp made
  rw [opened_append, foldlM_append] at folded
  obtain ⟨middle, first, -⟩ := bind_ok_iff.mp folded
  exact ⟨_, bind_ok_iff.mpr ⟨middle, first, rfl⟩⟩

variable {keyOf}

theorem first_made {same : Row → Row → Bool} {leader : Row} {members rest : List Row}
    (groups : Forall₂ (fun run group => groupOf keyOf plan run = .ok group)
      (runsFrom same leader (leader :: members) rest) out) :
    ∃ front, groupOf keyOf plan (leader, leader :: members) = .ok front := by
  obtain ⟨more, later, split⟩ := runsFrom_head same leader (leader :: members) rest
  rw [split] at groups
  cases groups with
  | cons first _ => exact groupOf_front keyOf first

theorem step_ok_iff {row : Row} {flushed : List (OpenGroup Row)}
    {state : List (OpenGroup Row) × Option (OpenGroup Row)}
    (keyed : plan.key row = .ok (keyOf row)) :
    plan.step (flushed, some group) row = .ok state ↔ if plan.same group.key (keyOf row) then
        ∃ next, plan.extend group row = .ok next ∧ state = (flushed, some next)
      else ∃ next, groupOf keyOf plan (row, [row]) = .ok next ∧
        state = (flushed ++ [group], some next) := by
  rw [step, keyed, ← start_eq]
  split
  · rename_i like
    simp only [bind, Except.bind, like]
    cases plan.extend group row <;> simp [pure, Except.pure, eq_comm]
  · rename_i unlike
    simp only [bind, Except.bind, unlike]
    cases plan.start (keyOf row) row <;> simp [pure, Except.pure, eq_comm]

theorem foldlM_step_iff {leader : Row} {members rest : List Row} {group : OpenGroup Row}
    {flushed all : List (OpenGroup Row)} (keyed : ∀ row ∈ rest, plan.key row = .ok (keyOf row))
    (made : groupOf keyOf plan (leader, leader :: members) = .ok group) :
    (∃ state, rest.foldlM plan.step (flushed, some group) = .ok state ∧
        state.1 ++ state.2.toList = all) ↔
      ∃ out, all = flushed ++ out ∧ Forall₂ (fun run group => groupOf keyOf plan run = .ok group)
        (runsFrom (fun one other => plan.same (keyOf one) (keyOf other)) leader (leader :: members)
          rest) out := by
  induction rest generalizing leader members group flushed with
  | nil =>
    simp only [runsFrom, forall₂_cons_left_iff, made]
    simp [pure, Except.pure, eq_comm]
  | cons row rest ih =>
    have key : group.key = keyOf leader := by
      obtain ⟨slots, -, same⟩ := bind_ok_iff.mp made
      cases same
      rfl
    obtain ⟨here, later⟩ := forall_mem_cons.mp keyed
    simp only [foldlM_cons, bind_ok_iff, step_ok_iff here, key, runsFrom]
    split
    · rw [extend_eq keyOf made]
      constructor
      · rintro ⟨state, ⟨_, ⟨next, longer, rfl⟩, done⟩, same⟩
        exact (ih later longer).mp ⟨state, done, same⟩
      rintro ⟨out, rfl, groups⟩
      obtain ⟨next, longer⟩ := first_made groups
      obtain ⟨state, done, same⟩ := (ih later longer).mpr ⟨out, rfl, groups⟩
      exact ⟨state, ⟨_, ⟨next, longer, rfl⟩, done⟩, same⟩
    · constructor
      · rintro ⟨state, ⟨_, ⟨next, opened, rfl⟩, done⟩, same⟩
        obtain ⟨out, rfl, groups⟩ := (ih later opened).mp ⟨state, done, same⟩
        exact ⟨group :: out, by simp, .cons made groups⟩
      rintro ⟨_, rfl, _ | ⟨first, groups⟩⟩
      rename_i other out
      obtain rfl : group = other := by simpa [made] using first
      obtain ⟨next, opened⟩ := first_made groups
      obtain ⟨state, done, same⟩ := (ih later opened).mpr
        ⟨out, (append_cons flushed group out), groups⟩
      exact ⟨state, ⟨_, ⟨next, opened, rfl⟩, done⟩, same⟩

/-- The walk gives what the runs of like rows come to. -/
theorem run_ok_iff {rows : List Row} {out : List (OpenGroup Row)}
    (keyed : ∀ row ∈ rows, plan.key row = .ok (keyOf row)) : plan.run rows = .ok out ↔
      Forall₂ (fun run group => groupOf keyOf plan run = .ok group)
        (runs (fun one other => plan.same (keyOf one) (keyOf other)) rows) out := by
  cases rows with
  | nil => simp [run, runs, pure, Except.pure, bind, Except.bind]
  | cons row rest =>
    obtain ⟨here, later⟩ := forall_mem_cons.mp keyed
    have first : plan.step ([], none) row =
        (groupOf keyOf plan (row, [row])).map fun group => ([], some group) := by
      rw [step, here, ← start_eq]
      simp only [bind, Except.bind]
      cases plan.start (keyOf row) row <;> rfl
    rw [run, foldlM_cons, first, runs]
    cases made : groupOf keyOf plan (row, [row]) with
    | error failure =>
      constructor
      · intro impossible
        cases impossible
      intro groups
      obtain ⟨front, begun⟩ := first_made groups
      cases made.symm.trans begun
    | ok group =>
      have whole := @foldlM_step_iff _ plan keyOf row [] rest group [] out later made
      simp only [nil_append, exists_eq_left'] at whole
      rw [← whole, bind_ok_iff]
      simp [pure, Except.pure, Except.map, bind, Except.bind]

theorem key_of_run {rows : List Row} (done : plan.run rows = .ok out) :
    ∀ row ∈ rows, ∃ key, plan.key row = .ok key := by
  obtain ⟨state, walked, -⟩ := bind_ok_iff.mp done
  clear done
  generalize ([], none) = start at walked
  induction rows generalizing start with
  | nil => simp
  | cons row rest ih =>
    obtain ⟨middle, here, later⟩ := bind_ok_iff.mp walked
    rw [forall_mem_cons]
    refine ⟨?_, ih middle later⟩
    obtain ⟨flushed, last⟩ := start
    cases last with
    | none | some =>
      obtain ⟨key, found, -⟩ := bind_ok_iff.mp here
      exact ⟨key, found⟩

end Loop

section Slots

variable {plan} {entries : List (Bool × Row)}

theorem foldlM_accumulate_cons {call : CompiledCall} {calls : List CompiledCall} {slot : List Value}
    {slots out : List (List Value)} :
    entries.foldlM (plan.accumulate (call :: calls)) (slot :: slots) = .ok out ↔
      ∃ folded others, out = folded :: others ∧
        entries.foldlM (plan.emitAggStep call) slot = .ok folded ∧
        entries.foldlM (plan.accumulate calls) slots = .ok others := by
  induction entries generalizing slot slots with
  | nil => simp [pure, Except.pure, eq_comm]
  | cons entry rest ih =>
    simp only [foldlM_cons, accumulate, bind_ok_iff]
    constructor
    · rintro ⟨_, ⟨first, one, second, two, ⟨⟩⟩, done⟩
      obtain ⟨folded, others, rfl, left, right⟩ := ih.mp done
      exact ⟨folded, others, rfl, ⟨first, one, left⟩, second, two, right⟩
    · rintro ⟨folded, others, rfl, ⟨first, one, left⟩, second, two, right⟩
      exact ⟨_, ⟨first, one, second, two, rfl⟩, ih.mpr ⟨folded, others, rfl, left, right⟩⟩

theorem foldlM_accumulate_iff {calls : List CompiledCall} {out : List (List Value)} :
    entries.foldlM (plan.accumulate calls) (calls.map fun _ => []) = .ok out ↔
      Forall₂ (fun call folded => entries.foldlM (plan.emitAggStep call) [] = .ok folded)
        calls out := by
  induction calls generalizing out with
  | nil =>
    have idle : entries.foldlM (plan.accumulate []) [] = .ok [] := by
      induction entries with
      | nil => rfl
      | cons entry rest ih => exact ih
    rw [map_nil, idle, forall₂_nil_left_iff, ok.injEq, eq_comm]
  | cons call calls ih =>
    rw [map_cons, foldlM_accumulate_cons, forall₂_cons_left_iff]
    simp only [ih]
    tauto

def folded (plan : GroupPlan Row) (distinct : Bool) (slot args : List Value) :
    Option (List Value) :=
  if distinct && plan.dedups then args.foldlM (distinctStep (encodedKey .binary)) slot
  else some (slot ++ args)

theorem foldlM_emitAggStep_iff {call : CompiledCall} {argOf : Bool × Row → Value}
    {readable : Bool × Row → Prop}
    (evals : ∀ entry value, (call.copy entry.1).eval (plan.read entry.2) = .ok value ↔
      readable entry ∧ value = argOf entry) {slot out : List Value} :
    entries.foldlM (plan.emitAggStep call) slot = .ok out ↔
      (∀ entry ∈ entries, readable entry) ∧
        plan.folded call.distinct slot (entries.map argOf) = some out := by
  induction entries generalizing slot with
  | nil => simp [folded, pure, Except.pure]
  | cons entry rest ih =>
    have step {next : List Value} : plan.emitAggStep call slot entry = .ok next ↔
        readable entry ∧ plan.folded call.distinct slot [argOf entry] = some next := by
      unfold emitAggStep folded
      rw [bind_ok_iff]
      simp only [evals, and_assoc, exists_and_left, exists_eq_left]
      split
      · simp only [foldlM_cons]
        split <;> rename_i found <;> simp [found, pure, Except.pure]
      · simp [pure, Except.pure]
    have chain : plan.folded call.distinct slot (argOf entry :: rest.map argOf) =
        (plan.folded call.distinct slot [argOf entry]).bind
          (plan.folded call.distinct · (rest.map argOf)) := by
      unfold folded
      split
      · simp
      · simp
    simp only [foldlM_cons, bind_ok_iff, step, ih, forall_mem_cons, map_cons, chain,
      Option.bind_eq_some_iff]
    tauto

end Slots

section Classes

variable {plan} {keyOf : Row → List Value} {out : List (OpenGroup Row)} {same : Row → Row → Bool}
  {like : Row → Row → Bool}

def shown (plan : GroupPlan Row) (run : Row × List Row) : Row :=
  if plan.keepsFirst then run.1 else run.2.getLastD run.1

/-- One group for each class, shown by one of its rows, folding the rows of the class, and with
slots that are right for them. -/
def RightGroups (like : Row → Row → Bool) (calls : List CompiledCall)
    (right : List Row → CompiledCall → List Value → Prop) (rows : List Row)
    (out : List (OpenGroup Row)) : Prop :=
  OneEach like rows (out.map (·.snapshot)) ∧ ∀ group ∈ out,
    group.members.Perm (rows.filter (like group.snapshot)) ∧
      List.Forall₂ (right group.members) calls group.slots

/-- The runs of rows with one key are the classes: like rows stand together, and neighbours have
one key exactly when they are like. -/
def KeysRight (same like : Row → Row → Bool) (order : List Row) : Prop :=
  Clustered like order ∧ order.IsChain fun one other => same one other = like one other

theorem oneEach_of_perm {rows others out : List Row}
    (perm : rows.Perm others) (each : OneEach like rows out) : OneEach like others out :=
  ⟨each.1, fun _ mem => perm.subset (each.2.1 mem),
    fun row mem => each.2.2 row (perm.mem_iff.mpr mem)⟩

theorem RightGroups.of_perm {calls : List CompiledCall}
    {right : List Row → CompiledCall → List Value → Prop} {rows others : List Row}
    (perm : rows.Perm others)
    (good : RightGroups like calls right rows out) : RightGroups like calls right others out := by
  obtain ⟨each, slots⟩ := good
  exact ⟨oneEach_of_perm perm each, fun group mem =>
    ⟨(slots group mem).1.trans (perm.filter _), (slots group mem).2⟩⟩

theorem groupOf_ok_iff {run : Row × List Row} {group : OpenGroup Row} :
    groupOf keyOf plan run = .ok group ↔ ∃ slots,
      group = ⟨keyOf run.1, plan.shown run, run.2, slots⟩ ∧ Forall₂ (fun call slot =>
        (opened run.2).foldlM (plan.emitAggStep call) [] = .ok slot) plan.calls slots := by
  rw [groupOf, bind_ok_iff]
  refine exists_congr fun slots => ?_
  rw [foldlM_accumulate_iff, and_comm]
  refine and_congr_left fun _ => ?_
  rw [eq_comm]
  exact Iff.of_eq (ok.injEq _ _)

theorem shown_mem {run : Row × List Row} (begins : ∃ more, run.2 = run.1 :: more) :
    plan.shown run ∈ run.2 := by
  obtain ⟨more, begins⟩ := begins
  unfold shown
  split
  · simp [begins]
  · rw [begins, getLastD_eq_getLast?, getLast?_eq_getLast_of_ne_nil (by simp)]
    exact getLast_mem _

theorem snapshots_eq {groups : List (Row × List Row)}
    (pairs : Forall₂ (fun run group => groupOf keyOf plan run = .ok group) groups out) :
    out.map (·.snapshot) = groups.map plan.shown := by
  induction pairs with
  | nil => rfl
  | cons made _ ih =>
    obtain ⟨_, rfl, -⟩ := groupOf_ok_iff.mp made
    rw [map_cons, map_cons, ih]

variable {like : Row → Row → Bool} (laws : Equivalence fun one other => like one other = true)

include laws

theorem filter_class {one other : Row} (same : like one other = true) (rows : List Row) :
    rows.filter (like one) = rows.filter (like other) :=
  filter_congr fun _ _ => Bool.eq_iff_iff.mpr
    ⟨fun here => laws.trans (laws.symm same) here, fun there => laws.trans same there⟩

variable {order : List Row} {groups : List (Row × List Row)}

theorem shown_oneEach (begins : ∀ run ∈ groups, ∃ more, run.2 = run.1 :: more)
    (classes : OnePerClass like order groups) :
    (∀ run ∈ groups, like run.1 (plan.shown run) = true) ∧
      OneEach like order (groups.map plan.shown) := by
  obtain ⟨apart, whole, covers⟩ := classes
  have inside : ∀ run ∈ groups, plan.shown run ∈ order ∧ like run.1 (plan.shown run) = true := by
    intro run held
    have own := @shown_mem _ plan run (begins run held)
    rw [(whole run held).2] at own
    exact mem_filter.mp own
  refine ⟨fun run held => (inside run held).2, ?_, fun row mem => ?_, fun row mem => ?_⟩
  · apply pairwise_map.mpr
    refine apart.imp_of_mem fun {one other} here there differ => ?_
    rw [Bool.eq_false_iff] at differ ⊢
    intro both
    exact differ (laws.trans (laws.trans (inside one here).2 both) (laws.symm (inside other there).2))
  · obtain ⟨run, held, rfl⟩ := mem_map.mp mem
    exact (inside run held).1
  · obtain ⟨run, held, like⟩ := covers row mem
    exact ⟨_, mem_map_of_mem held, laws.trans (laws.symm (inside run held).2) like⟩

theorem run_whole {run : Row × List Row} {row : Row}
    (inside : run ∈ runs same order) (perm : run.2.Perm (order.filter (like row))) :
    run.2 = order.filter (like run.1) := by
  obtain ⟨more, own⟩ := (runs_flatMap same order).1 run inside
  have led : run.1 ∈ run.2 := by simp [own]
  rw [← filter_class laws (mem_filter.mp (perm.mem_iff.mp led)).2]
  have kept : run.2.filter (like row) = run.2 :=
    filter_eq_self.mpr fun row mem => (mem_filter.mp (perm.mem_iff.mp mem)).2
  exact Sublist.eq_of_length (kept ▸ (runs_sublist inside).filter _) perm.length_eq

/-- A walk is right exactly when the runs of its keys are the classes and the calls are right
about each class. -/
theorem run_right_iff {right : List Row → CompiledCall → List Value → Prop}
    {same : Row → Row → Bool} (sameLaws : Equivalence fun one other => same one other = true)
    (walks : ∀ one other, plan.same (keyOf one) (keyOf other) = same one other)
    (keyed : ∀ row ∈ order, plan.key row = .ok (keyOf row)) :
    (∃ out, plan.run order = .ok out ∧ RightGroups like plan.calls right order out) ↔
    KeysRight same like order ∧ ∀ row ∈ order, ∀ call ∈ plan.calls, ∃ slot,
      (opened (order.filter (like row))).foldlM (plan.emitAggStep call) [] = .ok slot ∧
        right (order.filter (like row)) call slot := by
  have runs_iff {out : List (OpenGroup Row)} := @run_ok_iff _ plan keyOf order out keyed
  simp only [walks] at runs_iff
  have begins := (runs_flatMap same order).1
  rw [KeysRight, ← runs_right_iff sameLaws laws]
  constructor
  · rintro ⟨out, done, -, slots⟩
    have pairs := runs_iff.mp done
    -- What a group folds is the class of the row that opens it.
    have whole : ∀ run ∈ runs same order, run.2 = order.filter (like run.1) := by
      intro run inside
      obtain ⟨group, held, made⟩ := forall₂_right pairs.flip run inside
      have perm := (slots group held).1
      obtain ⟨_, rfl, -⟩ := groupOf_ok_iff.mp made
      exact run_whole laws inside perm
    have classes := onePerClass_of_whole laws whole
    refine ⟨classes, fun row mem call called => ?_⟩
    obtain ⟨run, inside, joined⟩ := classes.2.2 row mem
    obtain ⟨group, held, made⟩ := forall₂_right pairs.flip run inside
    have checked := (slots group held).2
    obtain ⟨_, rfl, folds⟩ := groupOf_ok_iff.mp made
    have grouped := (whole run inside).trans (filter_class laws joined _)
    exact grouped ▸ forall₂_both folds checked call called
  · rintro ⟨classes, each⟩
    obtain ⟨joined, shown⟩ := @shown_oneEach _ plan _ laws _ _ begins classes
    have made : ∀ run ∈ runs same order,
        ∃ group, groupOf keyOf plan run = .ok group ∧
          group.members.Perm (order.filter (like group.snapshot)) ∧
          Forall₂ (right group.members) plan.calls group.slots := by
      intro run inside
      obtain ⟨leader, whole⟩ := classes.2.1 run inside
      obtain ⟨slots, pairs⟩ := exists_forall₂ (each run.1 leader)
      rw [← whole] at pairs
      refine ⟨⟨keyOf run.1, plan.shown run, run.2, slots⟩, groupOf_ok_iff.mpr ⟨slots, rfl, ?_⟩,
        ?_, ?_⟩
      · exact pairs.imp fun _ _ both => both.1
      · rw [← filter_class laws (joined run inside), ← whole]
      · exact pairs.imp fun _ _ both => both.2
    obtain ⟨out, pairs⟩ := exists_forall₂ made
    refine ⟨out, runs_iff.mpr (pairs.imp fun _ _ both => both.1), ?_, fun group inside => ?_⟩
    · rw [snapshots_eq (pairs.imp fun _ _ both => both.1)]
      exact shown
    · obtain ⟨run, -, -, right⟩ := forall₂_right pairs group inside
      exact right

/-- Where the runs of the keys are the classes, a walk that answers folds each class. -/
theorem run_classes (sameLaws : Equivalence fun one other => same one other = true)
    (walks : ∀ one other, plan.same (keyOf one) (keyOf other) = same one other)
    (keyed : ∀ row ∈ order, plan.key row = .ok (keyOf row)) (keys : KeysRight same like order)
    (done : plan.run order = .ok out) :
    OneEach like order (out.map (·.snapshot)) ∧ ∀ group ∈ out,
      group.members = order.filter (like group.snapshot) ∧ Forall₂ (fun call slot =>
        (opened group.members).foldlM (plan.emitAggStep call) [] = .ok slot)
          plan.calls group.slots := by
  have pairs := (@run_ok_iff _ plan keyOf order out keyed).mp done
  simp only [walks] at pairs
  have classes := (runs_right_iff sameLaws laws).mpr keys
  obtain ⟨joined, shown⟩ := @shown_oneEach _ plan _ laws _ _ (runs_flatMap same order).1 classes
  rw [snapshots_eq pairs]
  refine ⟨shown, fun group held => ?_⟩
  obtain ⟨run, inside, made⟩ := forall₂_right pairs group held
  obtain ⟨slots, rfl, folds⟩ := groupOf_ok_iff.mp made
  refine ⟨?_, folds⟩
  rw [← filter_class laws (joined run inside), ← (classes.2.1 run inside).2]

end Classes

end GroupPlan

open GroupPlan

structure GroupKey where
  target : Nat ⊕ Compiled ColumnReads
  place : Nat := 0
  affinity : Affinity := .blob
  collation : Collation := .binary

namespace GroupKey

def expr (key : GroupKey) : Compiled (Nat ⊕ ColumnReads) :=
  match key.target with
  | .inl position => ⟨[], fun _ => .inl position⟩
  | .inr reads => ⟨reads.params, fun values => .inr (reads.eval values)⟩

def valueOf (read : Nat → Value) : Nat ⊕ ColumnReads → Value
  | .inl position => read position
  | .inr reads => reads.result read

def sortKey (key : GroupKey) : SortKeyColumn := { collation := key.collation }

def same (key : GroupKey) (prev cur : Value) : Bool :=
  if cur = .null then decide (prev = .null)
  else prev ≠ .null && (applyAffinity key.affinity prev).compare
    (applyAffinity key.affinity cur) key.collation == .eq

end GroupKey

def sameKeys : List GroupKey → List Value → List Value → Bool
  | key :: keys, prev :: before, cur :: now => key.same prev cur && sameKeys keys before now
  | _, _, _ => true

/-- A query with its parameters in the order of compilation: those of WHERE, after which stands
`number`, of the computed keys for the sorter, of LIMIT, of the keys for the walk, of HAVING and
the result list outside the calls, and of the arguments twice. Stored values have the affinity of
their column, and a computed key has none. -/
structure GroupQuery (Row : Type) where
  bindings : Bindings
  number : Nat := 0
  limitParams : List ParamKind := []
  resultParams : List ParamKind := []
  read : Row → Nat → Value
  rowidAlias : Option Nat := none
  joined : Bool := false
  keys : List GroupKey
  calls : List AggCall
  holds : Row → Bool := fun _ => true
  settled : ∀ row, ∀ key ∈ keys, ∀ values,
    applyAffinity key.affinity (GroupKey.valueOf (read row) (key.expr.eval values)) =
      GroupKey.valueOf (read row) (key.expr.eval values)

namespace GroupQuery

variable {Row : Type} (query : GroupQuery Row)

section Compiling

def keysBehind (number : Nat) : List (Nat ⊕ ColumnReads) :=
  Compiled.allBehind query.bindings number (query.keys.map (·.expr))

def afterKeys (number : Nat) : Nat :=
  Compiled.lastAfter query.bindings number (query.keys.map (·.expr))

def afterLimit (number : Nat) : Nat := (readParams query.bindings number query.limitParams).2

def afterResult (number : Nat) : Nat := (readParams query.bindings number query.resultParams).2

/-- The arguments are compiled for the rows that open a group, and then for the rows behind. -/
def callsBehind (number : Nat) : List CompiledCall :=
  let args := query.calls.map (·.arg)
  let firsts := Compiled.allBehind query.bindings number args
  let laters := Compiled.allBehind query.bindings
    (Compiled.lastAfter query.bindings number args) args
  (query.calls.zip (firsts.zip laters)).map fun (call, first, later) =>
    { call with first := first, later := later }

def walkNumber : Nat := query.afterLimit (query.afterKeys query.number)

def sorterCalls : List CompiledCall :=
  query.callsBehind (query.afterResult (query.afterKeys query.walkNumber))

end Compiling

def refused : Option Nat := if query.joined then none else query.rowidAlias

def pseudoRead (row : Row) (position : Nat) : Except ScanError Value :=
  if query.refused = some position then .error .cursorTypeMismatch
  else .ok (query.read row position)

def pseudoKey (row : Row) : Except ScanError (List Value) :=
  (query.keysBehind query.walkNumber).mapM fun
    | .inl position => .ok (query.read row position)
    | .inr reads => reads.eval (query.pseudoRead row)

def keyValues (number : Nat) (row : Row) : List Value :=
  (query.keysBehind number).map (GroupKey.valueOf (query.read row))

/-- The sorter's plan. A join does not dedup, and shows the last row of a group. -/
def sorterPlan : GroupPlan Row where
  key := query.pseudoKey
  same := sameKeys query.keys
  read := query.pseudoRead
  calls := query.sorterCalls
  dedups := !query.joined
  keepsFirst := !query.joined

def compareBy (values : Row → List Value) (one other : Row) : Ordering :=
  compareRows (query.keys.map (·.sortKey)) (values one) (values other)

def sorted (rows : List Row) : List Row := rows.insertionSort fun one other =>
  (query.compareBy (query.keyValues query.number) one other).isLE = true

/-- The groups that are flushed, and whether an aggregate without GROUP BY flushes a group of no
rows. -/
def groupedScan (rows : List Row) : Except ScanError (List (OpenGroup Row) × Bool) := do
  let groups ← query.sorterPlan.run (query.sorted (rows.filter query.holds))
  return (groups, query.keys.isEmpty && groups.isEmpty)

/-- The keys by the text of the statement. -/
def textValues (row : Row) : List Value := query.keys.map fun key =>
  GroupKey.valueOf (query.read row) (key.expr.behind query.bindings key.place)

def like (one other : Row) : Bool := query.compareBy query.textValues one other == .eq

def argOf (call : AggCall) (row : Row) : Value :=
  (call.arg.behind query.bindings call.place).result (query.read row)

def copied (call : CompiledCall) (entry : Bool × Row) : Value :=
  (call.copy entry.1).result (query.read entry.2)

def walkSame (one other : Row) : Bool :=
  sameKeys query.keys (query.keyValues query.walkNumber one) (query.keyValues query.walkNumber other)

def Spares (row : Row) (reads : ColumnReads) : Prop :=
  ∀ pos ∈ reads.columnsRead (query.read row), query.refused ≠ some pos

/-- No computed key of the walk reads the rowid's alias in this row. -/
def KeysSpared (row : Row) : Prop :=
  ∀ reads, .inr reads ∈ query.keysBehind query.walkNumber → query.Spares row reads

/-- No argument reads the rowid's alias in the rows of a group. -/
def ArgsSpared (call : CompiledCall) (members : List Row) : Prop :=
  ∀ entry ∈ opened members, query.Spares entry.2 (call.copy entry.1)

/-- The class of a row, in the order of the sorter. -/
def classOf (rows : List Row) (row : Row) : List Row :=
  (query.sorted rows).filter (query.like row)

variable {query}

instance (values : Row → List Value) : Std.TransCmp (query.compareBy values) := transCmp_on values

theorem compareBy_equivalence (values : Row → List Value) :
    Equivalence fun one other => (query.compareBy values one other == .eq) = true := by
  simp only [beq_iff_eq]
  exact ⟨fun _ => Std.ReflCmp.compare_self, Std.OrientedCmp.eq_symm, Std.TransCmp.eq_trans⟩

theorem like_equivalence : Equivalence fun one other => query.like one other = true :=
  compareBy_equivalence query.textValues

/-- The test of the walk is the comparison of the sorter, since applying the affinity of a key
again changes nothing. -/
theorem sameKeys_eq {keys : List GroupKey} {ones others : List Value}
    (left : Forall₂ (fun key value => applyAffinity key.affinity value = value) keys ones)
    (right : Forall₂ (fun key value => applyAffinity key.affinity value = value) keys others) :
    sameKeys keys ones others = (compareRows (keys.map (·.sortKey)) ones others == .eq) := by
  induction left generalizing others with
  | nil => rfl
  | @cons key one keys ones own _ ih =>
    cases right with
    | @cons _ other _ others also right =>
      have same : key.same one other = (key.sortKey.compare one other == .eq) := by
        rw [GroupKey.same, own, also]
        unfold SortKeyColumn.compare GroupKey.sortKey
        split <;> split <;> simp_all
      simp only [sameKeys, ih right, same, map_cons, compareRows, headD_cons, tail_cons]
      cases key.sortKey.compare one other <;> simp

theorem walkSame_eq (one other : Row) : query.walkSame one other =
    (query.compareBy (query.keyValues query.walkNumber) one other == .eq) := by
  have settled (row : Row) : Forall₂ (fun key value => applyAffinity key.affinity value = value)
      query.keys (query.keyValues query.walkNumber row) := by
    have own := query.settled row
    unfold keyValues keysBehind
    generalize query.keys = keys, query.walkNumber = number at own
    induction keys generalizing number with
    | nil => exact .nil
    | cons key rest ih =>
      rw [forall_mem_cons] at own
      exact .cons (own.1 _) (ih _ own.2)
  exact sameKeys_eq (settled one) (settled other)

theorem walkSame_equivalence : Equivalence fun one other => query.walkSame one other = true := by
  simp only [walkSame_eq]
  exact compareBy_equivalence _

theorem eval_pseudoRead {row : Row} {reads : ColumnReads} {value : Value} :
    reads.eval (query.pseudoRead row) = .ok value ↔
      query.Spares row reads ∧ value = reads.result (query.read row) :=
  ColumnReads.eval_iff

theorem pseudoKey_iff {row : Row} {found : List Value} : query.pseudoKey row = .ok found ↔
      query.KeysSpared row ∧ found = query.keyValues query.walkNumber row := by
  unfold pseudoKey KeysSpared keyValues
  induction query.keysBehind query.walkNumber generalizing found with
  | nil => simp [pure, Except.pure]
  | cons target rest ih =>
    simp only [mapM_cons, bind_ok_iff, ih, mem_cons, map_cons]
    cases target with
    | inl pos => simp [pure, Except.pure, eq_comm, GroupKey.valueOf]
    | inr reads =>
      simp only [eval_pseudoRead, Sum.inr.injEq, pure, Except.pure, Except.ok.injEq,
        GroupKey.valueOf]
      constructor
      · rintro ⟨_, ⟨own, rfl⟩, _, ⟨others, rfl⟩, rfl⟩
        exact ⟨fun read inside => inside.elim (fun same => same ▸ own) (others read), rfl⟩
      · rintro ⟨all, rfl⟩
        exact ⟨_, ⟨all reads (.inl rfl), rfl⟩, _, ⟨fun read inside => all read (.inr inside), rfl⟩,
          rfl⟩

/-- A compiled call is a call of the query, with its argument behind some numbers. -/
theorem mem_callsBehind {number : Nat} {call : CompiledCall}
    (called : call ∈ query.callsBehind number) : call.toAggCall ∈ query.calls ∧ ∀ opens,
      ∃ place, call.copy opens = call.arg.behind query.bindings place := by
  have copies (calls : List AggCall) (first later : Nat) : ∀ held ∈ calls.zip
      ((Compiled.allBehind query.bindings first (calls.map (·.arg))).zip
        (Compiled.allBehind query.bindings later (calls.map (·.arg)))), held.1 ∈ calls ∧
      (∃ place, held.2.1 = held.1.arg.behind query.bindings place) ∧
        ∃ place, held.2.2 = held.1.arg.behind query.bindings place := by
    induction calls generalizing first later with
    | nil => simp
    | cons call rest ih =>
      refine forall_mem_cons.mpr ⟨⟨mem_cons_self, ⟨first, rfl⟩, later, rfl⟩, fun held mem => ?_⟩
      obtain ⟨inside, both⟩ := ih _ _ held mem
      exact ⟨.tail _ inside, both⟩
  obtain ⟨held, mem, rfl⟩ := mem_map.mp called
  obtain ⟨inside, first, later⟩ := copies _ _ _ held mem
  refine ⟨inside, fun opens => ?_⟩
  cases opens with
  | true => exact first
  | false => exact later

theorem sorted_perm (rows : List Row) : (query.sorted rows).Perm rows := perm_insertionSort _ rows

theorem sorter_folds {call : CompiledCall} {slot : List Value} {entries : List (Bool × Row)} :
    entries.foldlM (query.sorterPlan.emitAggStep call) [] = .ok slot ↔
      (∀ entry ∈ entries, query.Spares entry.2 (call.copy entry.1)) ∧
        query.sorterPlan.folded call.distinct [] (entries.map (query.copied call)) = some slot :=
  foldlM_emitAggStep_iff fun _ _ => eval_pseudoRead

/-- A grouped query is right exactly when the runs of its keys are the classes, the buffer
answers for every row, and the calls are right about each class. -/
theorem groupedScan_right_iff {rows : List Row}
    {right : List Row → CompiledCall → List Value → Prop} :
    (∃ out, query.groupedScan rows = .ok out ∧
      RightGroups query.like query.sorterCalls right (rows.filter query.holds) out.1 ∧
      (out.2 = true ↔ query.keys = [] ∧ rows.filter query.holds = [])) ↔
    KeysRight query.walkSame query.like (query.sorted (rows.filter query.holds)) ∧
    ∀ row ∈ rows.filter query.holds, query.KeysSpared row ∧ ∀ call ∈ query.sorterCalls,
      query.ArgsSpared call (query.classOf (rows.filter query.holds) row) ∧ ∃ slot,
        query.sorterPlan.folded call.distinct []
          ((opened (query.classOf (rows.filter query.holds) row)).map (query.copied call)) =
            some slot ∧
        right (query.classOf (rows.filter query.holds) row) call slot := by
  unfold groupedScan classOf
  generalize rows.filter query.holds = matched
  have perm := @sorted_perm _ query matched
  have walk (keyed : ∀ row ∈ query.sorted matched,
      query.pseudoKey row = .ok (query.keyValues query.walkNumber row)) :=
    @run_right_iff _ query.sorterPlan (query.keyValues query.walkNumber) query.like like_equivalence
      _ right query.walkSame walkSame_equivalence (fun _ _ => rfl) keyed
  simp only [sorter_folds, and_assoc, exists_and_left] at walk
  constructor
  · rintro ⟨⟨groups, alone⟩, done, good, -⟩
    obtain ⟨_, ran, same⟩ := bind_ok_iff.mp done
    cases same
    -- The run succeeded, so every key was read without an error.
    have keyed : ∀ row ∈ query.sorted matched,
        query.pseudoKey row = .ok (query.keyValues query.walkNumber row) := by
      intro row mem
      obtain ⟨key, found⟩ := key_of_run ran row mem
      exact (pseudoKey_iff.mp found).2 ▸ found
    obtain ⟨keys, each⟩ := (walk keyed).mp ⟨groups, ran, good.of_perm perm.symm⟩
    refine ⟨keys, fun row mem => ⟨?_, each row (perm.mem_iff.mpr mem)⟩⟩
    exact (pseudoKey_iff.mp (keyed row (perm.mem_iff.mpr mem))).1
  · rintro ⟨keys, each⟩
    obtain ⟨groups, ran, good⟩ := (walk fun row mem => pseudoKey_iff.mpr
      ⟨(each row (perm.mem_iff.mp mem)).1, rfl⟩).mpr
        ⟨keys, fun row mem => (each row (perm.mem_iff.mp mem)).2⟩
    have good := good.of_perm perm
    refine ⟨_, bind_ok_iff.mpr ⟨groups, ran, rfl⟩, good, ?_⟩
    obtain ⟨-, inside, covers⟩ := good.1
    simp only [Bool.and_eq_true, List.isEmpty_iff]
    refine and_congr_right fun _ => ⟨?_, ?_⟩
    · rintro rfl
      rw [eq_nil_iff_forall_not_mem]
      intro row mem
      obtain ⟨_, impossible, -⟩ := covers row mem
      cases impossible
    · rintro rfl
      rw [← map_eq_nil_iff]
      exact eq_nil_of_subset_nil inside

def outcome (query : GroupQuery Row) (call : AggCall) (args : List Value) :
    Except QueryError Value :=
  call.function.final query.bindings.lossy call.collation args

/-- One group for each class of rows under WHERE, shown by one of its rows, with each call
folded over the arguments of exactly that class. -/
def GroupsRight (query : GroupQuery Row) (rows : List Row)
    (out : List (OpenGroup Row) × Bool) : Prop :=
  RightGroups query.like query.sorterCalls (fun members call slot =>
      query.outcome call.toAggCall slot =
        query.outcome call.toAggCall (members.map (query.argOf call.toAggCall)))
    (rows.filter query.holds) out.1 ∧
  (out.2 = true ↔ query.keys = [] ∧ rows.filter query.holds = [])

section Plain

/-- Without parameters in its keys, the walk finds the classes. -/
theorem keysRight_of_plain (plain : ∀ key ∈ query.keys, key.expr.params = []) (rows : List Row) :
    KeysRight query.walkSame query.like (query.sorted rows) := by
  have same (number : Nat) : query.keyValues number = query.textValues := by
    funext row
    unfold keyValues keysBehind textValues
    generalize query.keys = keys at plain
    induction keys generalizing number with
    | nil => rfl
    | cons key rest ih =>
      obtain ⟨own, others⟩ := forall_mem_cons.mp plain
      simp only [map_cons, Compiled.allBehind]
      rw [ih _ others]
      simp [Compiled.behind, own, readParams]
  constructor
  · apply @clustered_of_sorted _ (query.compareBy query.textValues)
    have total (one other : Row) := InKeyOrder.total (query.keys.map (·.sortKey))
      (query.textValues one) (query.textValues other)
    unfold sorted
    rw [same]
    refine (insertionSort_pairwise_iff rows total fun _ _ _ => Std.TransCmp.isLE_trans).mpr
      (pairwise_of_forall fun one other => ?_)
    split
    · assumption
    · exact (total one other).resolve_left ‹_›
  · rw [show query.walkSame = query.like from funext₂ fun one other => by
      rw [walkSame_eq, same, like]]
    exact (pairwise_of_forall fun _ _ => rfl).isChain

/-- Without parameters in its argument, a call folds the arguments of the class. -/
theorem copied_of_plain {call : CompiledCall} {number : Nat}
    (called : call ∈ query.callsBehind number) (plain : call.arg.params = [])
    (members : List Row) :
    (opened members).map (query.copied call) = members.map (query.argOf call.toAggCall) := by
  have same (entry : Bool × Row) : query.copied call entry = query.argOf call.toAggCall entry.2 := by
    obtain ⟨place, copy⟩ := (mem_callsBehind called).2 entry.1
    simp [copied, argOf, copy, Compiled.behind, plain, readParams]
  cases members with
  | nil => rfl
  | cons row rest => simp [opened, same]

end Plain

section Runs

/-- `SELECT a, sum(b) FROM t GROUP BY a`, where the first column is the rowid's alias. -/
def sumPerKey (summed : Nat) : GroupQuery (List Value) where
  bindings := noBindings
  read row position := row.getD position .null
  rowidAlias := some 0
  keys := [{ target := .inl 1 }]
  calls := [{ function := .total .sum, arg := ⟨[], fun _ => .column summed .done⟩ }]
  settled _ _ mem _ := by rw [mem_singleton.mp mem]; rfl

def threeRows : List (List Value) :=
  [[.integer 1, .integer 7, .integer 5], [.integer 2, .null, .integer 6],
    [.integer 3, .integer 7, .integer 10]]

theorem sumPerKey_spared (members : List (List Value)) :
    ∀ call ∈ (sumPerKey 2).sorterCalls, (sumPerKey 2).ArgsSpared call members := by
  intro call called entry _
  have own := (mem_callsBehind called).1
  simp only [sumPerKey, mem_singleton] at own
  obtain ⟨place, copy⟩ := (mem_callsBehind called).2 entry.1
  rw [copy, show call.arg = ⟨[], fun _ => .column 2 .done⟩ by rw [own]]
  simp [Spares, Compiled.behind, ColumnReads.columnsRead, refused, sumPerKey]

/-- `SELECT sum(?) FROM t` over two rows: the second row reads the second parameter. -/
example :
    let query : GroupQuery Value :=
      { bindings := ⟨fun number => .integer (10 * number), fun _ => []⟩, read := fun row _ => row,
        keys := [], settled := by simp,
        calls := [⟨.total .sum, ⟨[.anonymous], fun values => .done (values.headD .null)⟩, 0, false,
          .binary⟩] }
    (match query.groupedScan [.null, .null] with
      | .ok out => out.1.map (·.slots)
      | .error _ => []) = [[[.integer 10, .integer 20]]] := by
  decide +kernel

end Runs

section IndexOrder

/-- `Opcode::Column` on the table's cursor: the field of the rowid's alias is NULL. -/
def storedRead (query : GroupQuery Row) (row : Row) (position : Nat) : Value :=
  if query.rowidAlias = some position then .null else query.read row position

def indexCalls (query : GroupQuery Row) : List CompiledCall :=
  query.callsBehind (query.afterResult (query.afterLimit query.number))

def storedKey (query : GroupQuery Row) (row : Row) : List Value :=
  query.keys.map fun key => GroupKey.valueOf (query.storedRead row) (key.expr.eval [])

def indexPlan (query : GroupQuery Row) : GroupPlan Row where
  key row := .ok (query.storedKey row)
  same := sameKeys query.keys
  read row position := .ok (query.read row position)
  calls := query.indexCalls
  keepsFirst := false

/-- `try_compile_index_ordered_group_by`: the walk goes over the rows in index order. -/
def indexOrderedScan (query : GroupQuery Row) (walk : List Row) :
    Except ScanError (List (OpenGroup Row)) :=
  query.indexPlan.run walk

def storedSame (query : GroupQuery Row) (one other : Row) : Bool :=
  sameKeys query.keys (query.storedKey one) (query.storedKey other)

/-- What the path along an index asks of a query, and an index of its table: no WHERE clause,
keys that are bare columns, and one entry for each row. -/
structure IndexWalk (query : GroupQuery Row) (rows walk : List Row) : Prop where
  single : query.joined = false
  all : ∀ row, query.holds row = true
  bare : ∀ key ∈ query.keys, ∃ position, key.target = .inl position
  permuted : walk.Perm rows

variable {rows walk : List Row}

theorem IndexWalk.storedSame_equivalence (index : query.IndexWalk rows walk) :
    Equivalence fun one other => query.storedSame one other = true := by
  have settled (row : Row) : Forall₂ (fun key value => applyAffinity key.affinity value = value)
      query.keys (query.storedKey row) := by
    rw [storedKey, forall₂_map_right_iff, forall₂_same]
    intro key mem
    obtain ⟨position, bare⟩ := index.bare key mem
    have own := query.settled row key mem []
    simp only [GroupKey.expr, bare, GroupKey.valueOf, storedRead] at own ⊢
    split
    · cases key.affinity <;> rfl
    · exact own
  simp only [storedSame, sameKeys_eq (settled _) (settled _)]
  exact compareBy_equivalence query.storedKey

theorem index_folds {call : CompiledCall} {slot : List Value} {entries : List (Bool × Row)} :
    entries.foldlM (query.indexPlan.emitAggStep call) [] = .ok slot ↔
      query.indexPlan.folded call.distinct [] (entries.map (query.copied call)) = some slot := by
  have folds : entries.foldlM (query.indexPlan.emitAggStep call) [] = .ok slot ↔
      (∀ entry ∈ entries, True) ∧
        query.indexPlan.folded call.distinct [] (entries.map (query.copied call)) = some slot := by
    apply foldlM_emitAggStep_iff
    intro entry value
    simpa [indexPlan, copied] using
      @ColumnReads.eval_iff none (query.read entry.2) (call.copy entry.1) value
  simpa using folds

theorem IndexWalk.right_iff (index : query.IndexWalk rows walk)
    {right : List Row → CompiledCall → List Value → Prop} :
    (∃ out, query.indexOrderedScan walk = .ok out ∧
      RightGroups query.like query.indexCalls right rows out) ↔
    KeysRight query.storedSame query.like walk ∧
    ∀ row ∈ rows, ∀ call ∈ query.indexCalls, ∃ slot, query.indexPlan.folded call.distinct []
        ((opened (walk.filter (query.like row))).map (query.copied call)) = some slot ∧
      right (walk.filter (query.like row)) call slot := by
  have walked := @run_right_iff _ query.indexPlan query.storedKey query.like like_equivalence walk
    right query.storedSame index.storedSame_equivalence (fun _ _ => rfl) fun _ _ => rfl
  simp only [index_folds, index.permuted.mem_iff] at walked
  rw [← show query.indexPlan.calls = query.indexCalls from rfl, ← walked]
  exact exists_congr fun out => and_congr_right fun _ =>
    ⟨fun good => good.of_perm index.permuted.symm, fun good => good.of_perm index.permuted⟩

end IndexOrder

section Distinct

def nonNull (values : List Value) : List Value := values.filter (· ≠ .null)

def equalValues (collation : Collation) (one other : Value) : Bool :=
  one.compare other collation == .eq

/-- A DISTINCT call folds one of each class of equal values that are not NULL. -/
def DistinctRight (query : GroupQuery Row) (calls : List CompiledCall) (rows : List Row)
    (out : List (OpenGroup Row)) : Prop :=
  RightGroups query.like calls (fun members call slot => call.distinct = true →
    OneEach (equalValues call.collation) (nonNull (members.map (query.argOf call.toAggCall)))
      (nonNull slot)) rows out

/-- When the arguments as they are compiled come to one of each class of the arguments by the
text. Where they are dedupped, equal ones are the same value and the ephemeral index holds them
all; where they are not, none comes twice. -/
def DistinctKept (dedups : Bool) (collation : Collation) (copies texts : List Value) : Prop :=
  (if dedups then copies.dedup.length ≤ maxEphemeralRows ∧ ∀ one ∈ nonNull copies,
      ∀ other ∈ nonNull copies, equalValues collation one other = true → one = other
    else (nonNull copies).Pairwise fun one other => equalValues collation one other = false) ∧
  nonNull copies ⊆ nonNull texts ∧
  ∀ text ∈ nonNull texts, ∃ copy ∈ nonNull copies, equalValues collation copy text = true

theorem equalValues_equivalence (coll : Collation) :
    Equivalence fun one other => equalValues coll one other = true := by
  simp only [equalValues, beq_iff_eq, Value.compare_eq_iff]
  exact ⟨fun _ => rfl, Eq.symm, Eq.trans⟩

theorem folded_oneEach_iff {plan : GroupPlan Row} {coll : Collation} {copies texts : List Value} :
    (∃ slot, plan.folded true [] copies = some slot ∧
        OneEach (equalValues coll) (nonNull texts) (nonNull slot)) ↔
      DistinctKept plan.dedups coll copies texts := by
  have laws := equalValues_equivalence coll
  unfold folded DistinctKept
  cases plan.dedups with
  | false => simp [OneEach]
  | true =>
    have identity : encodedKey .binary = id := funext encodedKey_binary
    have kept : nonNull (keepNew id [] copies) = keepNew id [] (nonNull copies) :=
      keepNew_filter (fun one other (same : one = other) => same ▸ rfl) [] copies
    have count := @length_keepNew _ _ _ id copies
    have done := @foldlM_distinctStep _ _ _ id [] (Nat.zero_le _) copies
    have mem (value : Value) : value ∈ keepNew id [] (nonNull copies) ↔ value ∈ nonNull copies := by
      refine ⟨fun held => keepNew_subset _ held, fun held => ?_⟩
      obtain ⟨one, inside, same⟩ := @keepNew_covers _ _ _ id [] _ value held
      exact (show one = value from same) ▸ inside
    have right := @keepNew_oneEach_iff _ _ _ id (equalValues coll) (nonNull copies) laws
      fun one _ other _ (same : one = other) => same ▸ laws.refl one
    have apart : (keepNew id [] (nonNull copies)).Pairwise (fun one other =>
          equalValues coll one other = false) ↔ ∀ one ∈ nonNull copies, ∀ other ∈ nonNull copies,
        equalValues coll one other = true → one = other := by
      refine Iff.trans ⟨fun apart => ⟨apart, keepNew_subset _, fun value held => ?_⟩, And.left⟩ right
      exact ⟨value, (mem value).mpr held, laws.refl value⟩
    rw [List.map_id] at count
    simp only [Bool.and_self, if_true, identity, done, count, ← apart]
    constructor
    · rintro ⟨slot, folded, each⟩
      split at folded
      swap
      · cases folded
      cases folded
      rw [kept] at each
      obtain ⟨parted, inside, covers⟩ := each
      refine ⟨⟨‹_›, parted⟩, fun value held => inside ((mem value).mpr held), fun text held => ?_⟩
      obtain ⟨copy, found, equal⟩ := covers text held
      exact ⟨copy, (mem copy).mp found, equal⟩
    · rintro ⟨⟨fits, parted⟩, inside, covers⟩
      refine ⟨_, if_pos fits, kept ▸ ⟨parted, fun value held => inside ((mem value).mp held),
        fun text held => ?_⟩⟩
      obtain ⟨copy, found, equal⟩ := covers text held
      exact ⟨copy, (mem copy).mpr found, equal⟩

theorem distinct_call_iff {plan : GroupPlan Row} {call : CompiledCall} {copies texts : List Value} :
    (∃ slot, plan.folded call.distinct [] copies = some slot ∧ (call.distinct = true →
        OneEach (equalValues call.collation) (nonNull texts) (nonNull slot))) ↔
      (call.distinct = true → DistinctKept plan.dedups call.collation copies texts) := by
  cases call.distinct with
  | false => simp [folded]
  | true => simp only [forall_const, folded_oneEach_iff]

/-- `SELECT a, count(DISTINCT b) FROM t GROUP BY a`. -/
def countPerKey : GroupQuery (List Value) where
  bindings := noBindings
  read row position := row.getD position .null
  keys := [{ target := .inl 0 }]
  calls := [{ function := .count, arg := ⟨[], fun _ => .column 1 .done⟩, distinct := true }]
  settled _ _ mem _ := by rw [mem_singleton.mp mem]; rfl

def fourRows : List (List Value) :=
  [[.integer 7, .integer 5], [.null, .integer 6], [.integer 7, .integer 6], [.integer 7, .integer 5]]

end Distinct

section BothPlans

variable {out : List (OpenGroup Row)}

/-- What the calls come to for the rows of a group, where the accumulators take their arguments. -/
def results (query : GroupQuery Row) (plan : GroupPlan Row) (members : List Row) :
    List (Option (Except QueryError Value)) :=
  plan.calls.map fun call =>
    (plan.folded call.distinct [] ((opened members).map (query.copied call))).map
      (query.outcome call.toAggCall)

def finals (query : GroupQuery Row) (plan : GroupPlan Row) (group : OpenGroup Row) :
    List (Except QueryError Value) :=
  zipWith (fun call slot => query.outcome call.toAggCall slot) plan.calls group.slots

/-- A group of the sorter's plan and one along the index fold the same rows to the same values. -/
def Matches (query : GroupQuery Row) (one other : OpenGroup Row) : Prop :=
  one.members.Perm other.members ∧
    query.finals query.sorterPlan one = query.finals query.indexPlan other

def SameGroups (query : GroupQuery Row) (ones others : List (OpenGroup Row)) : Prop :=
  (∀ one ∈ ones, ∃ other ∈ others, query.Matches one other) ∧
    ∀ other ∈ others, ∃ one ∈ ones, query.Matches one other

/-- Every plain column that is shown has the value of a row of the group. -/
def PlainRight (query : GroupQuery Row) (plain : List Nat) (out : List (OpenGroup Row)) : Prop :=
  ∀ group ∈ out, ∀ pos ∈ plain, ∃ row ∈ group.members,
    query.storedRead group.snapshot pos = query.read row pos

theorem finals_eq {plan : GroupPlan Row} {group : OpenGroup Row}
    (folds : Forall₂ (fun call slot => plan.folded call.distinct []
      ((opened group.members).map (query.copied call)) = some slot) plan.calls group.slots) :
    (query.finals plan group).map some = query.results plan group.members := by
  unfold finals results
  generalize plan.calls = calls, group.slots = slots at folds
  induction folds with
  | nil => rfl
  | cons here _ ih => rw [zipWith_cons_cons, map_cons, map_cons, ih, here, Option.map_some]

variable {rows walk : List Row}

theorem IndexWalk.plain (index : query.IndexWalk rows walk) :
    ∀ key ∈ query.keys, key.expr.params = [] := by
  intro key mem
  obtain ⟨position, bare⟩ := index.bare key mem
  rw [GroupKey.expr, bare]

theorem IndexWalk.keysSpared (index : query.IndexWalk rows walk) (row : Row) :
    query.KeysSpared row := by
  intro reads mem
  have bare := index.bare
  unfold keysBehind at mem
  generalize query.keys = keys, query.walkNumber = number at bare mem
  induction keys generalizing number with
  | nil => cases mem
  | cons key rest ih =>
    rw [forall_mem_cons] at bare
    obtain ⟨⟨position, own⟩, others⟩ := bare
    simp only [map_cons, Compiled.allBehind, mem_cons] at mem
    rcases mem with here | later
    · simp [GroupKey.expr, own, Compiled.behind] at here
    · exact ih _ others later

theorem IndexWalk.matched (index : query.IndexWalk rows walk) : rows.filter query.holds = rows :=
  filter_eq_self.mpr fun row _ => index.all row

/-- The groups of the sorter's plan are the classes. -/
theorem IndexWalk.sorter_classes (index : query.IndexWalk rows walk)
    {out : List (OpenGroup Row) × Bool} (done : query.groupedScan rows = .ok out) :
    OneEach query.like rows (out.1.map (·.snapshot)) ∧ ∀ group ∈ out.1,
      group.members = query.classOf rows group.snapshot ∧
      (∀ call ∈ query.sorterCalls, query.ArgsSpared call group.members) ∧
      (query.finals query.sorterPlan group).map some =
        query.results query.sorterPlan group.members := by
  obtain ⟨groups, ran, same⟩ := bind_ok_iff.mp done
  cases same
  rw [index.matched] at ran
  have keyed : ∀ row ∈ query.sorted rows,
      query.pseudoKey row = .ok (query.keyValues query.walkNumber row) :=
    fun row _ => pseudoKey_iff.mpr ⟨index.keysSpared row, rfl⟩
  obtain ⟨each, folded⟩ := run_classes like_equivalence walkSame_equivalence (fun _ _ => rfl) keyed
    (keysRight_of_plain index.plain rows) ran
  refine ⟨oneEach_of_perm (sorted_perm rows) each, fun group mem => ?_⟩
  obtain ⟨members, folds⟩ := folded group mem
  refine ⟨members, fun call called => ?_, ?_⟩
  · obtain ⟨slot, -, fold⟩ := forall₂_right folds.flip call called
    exact (sorter_folds.mp fold).1
  · exact finals_eq (folds.imp fun _ _ fold => (sorter_folds.mp fold).2)

/-- The groups along an index are the classes where the runs of the stored keys are. -/
theorem IndexWalk.index_classes (index : query.IndexWalk rows walk)
    (keys : KeysRight query.storedSame query.like walk)
    (done : query.indexOrderedScan walk = .ok out) :
    OneEach query.like rows (out.map (·.snapshot)) ∧ ∀ group ∈ out,
      group.members = walk.filter (query.like group.snapshot) ∧
      (query.finals query.indexPlan group).map some =
        query.results query.indexPlan group.members := by
  obtain ⟨each, folded⟩ := run_classes like_equivalence index.storedSame_equivalence
    (fun _ _ => rfl) (fun _ _ => rfl) keys done
  refine ⟨oneEach_of_perm index.permuted each, fun group mem => ?_⟩
  obtain ⟨members, folds⟩ := folded group mem
  exact ⟨members, finals_eq (folds.imp fun _ _ fold => index_folds.mp fold)⟩

theorem results_reached {plan : GroupPlan Row} {members : List Row} :
    none ∉ query.results plan members ↔ ∀ call ∈ plan.calls, ∃ slot,
      plan.folded call.distinct [] ((opened members).map (query.copied call)) = some slot := by
  simp [results, Option.eq_none_iff_forall_ne_some]

/-- Where every group along an index folds a class of rows, its runs are the classes. -/
theorem IndexWalk.keysRight (index : query.IndexWalk rows walk)
    (done : query.indexOrderedScan walk = .ok out)
    (classes : ∀ group ∈ out, ∃ row, group.members.Perm (rows.filter (query.like row))) :
    KeysRight query.storedSame query.like walk := by
  have pairs := (@run_ok_iff _ query.indexPlan query.storedKey walk out fun _ _ => rfl).mp done
  apply (runs_right_iff index.storedSame_equivalence like_equivalence).mp
  refine onePerClass_of_whole like_equivalence fun run inside => ?_
  obtain ⟨group, held, made⟩ := forall₂_right pairs.flip run inside
  obtain ⟨row, perm⟩ := classes group held
  obtain ⟨_, rfl, -⟩ := groupOf_ok_iff.mp made
  exact run_whole like_equivalence inside (perm.trans (index.permuted.symm.filter _))

end BothPlans

end GroupQuery

end SqliteRs
