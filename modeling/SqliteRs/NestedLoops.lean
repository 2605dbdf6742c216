import Mathlib.Data.List.Basic
import Mathlib.Logic.Function.Basic

/-!
Nested loops over numbered levels. A loop tries every row of its level, and tests
that a row passes may set flags that a loop further out reads when it is done: an
outer loop whose flag is still down runs a second body in which a span of levels
stands on no row. The flags can be done away with: what a nest emits, and which
flags it sets, depends on the rows alone.
-/

namespace SqliteRs

open List Function

variable {τ ν Row Out : Type}

/-- The row that each level stands on; none for a level that stands on no row. -/
abbrev Slots (Row : Type) := Nat → Option Row

/-- One test of a level: what is tested, if anything, and the flag that passing it sets. -/
structure LevelCheck (τ : Type) where
  constraint : Option τ
  setsMatched : Option Nat

inductive LoopNest (τ ν : Type) where
  | leaf (final : ν)
  | scan (level : Nat) (checks : List (LevelCheck τ)) (body : LoopNest τ ν)
  | outer (level first last : Nat) (main rest : LoopNest τ ν)

structure Iteration (τ ν Row Out : Type) where
  rows : Nat → List Row
  test : τ → Slots Row → Bool
  emit : ν → Slots Row → List Out

def maskLevels (first last : Nat) (slots : Slots Row) : Slots Row :=
  fun level => if first ≤ level ∧ level ≤ last then none else slots level

namespace LevelCheck

def passes (test : τ → Slots Row → Bool) (slots : Slots Row) (check : LevelCheck τ) : Bool :=
  check.constraint.all fun condition => test condition slots

def mark (check : LevelCheck τ) (flags : Nat → Bool) : Nat → Bool :=
  match check.setsMatched with
  | some owner => Function.update flags owner true
  | none => flags

theorem mark_eq (check : LevelCheck τ) (flags : Nat → Bool) (level : Nat) :
    check.mark flags level = (flags level || check.setsMatched == some level) := by
  unfold mark
  cases check.setsMatched with
  | none => simp
  | some owner =>
    by_cases here : level = owner
    · simp [here]
    · have other : owner ≠ level := fun same => here same.symm
      simp [update_of_ne here, other]

end LevelCheck

section Running

variable (iteration : Iteration τ ν Row Out)

/-- The tests of a level in order. The first that fails ends them, and the flags set
before it stay set. -/
def runChecks (slots : Slots Row) : List (LevelCheck τ) → (Nat → Bool) → Bool × (Nat → Bool)
  | [], flags => (true, flags)
  | check :: rest, flags =>
    if check.passes iteration.test slots then runChecks slots rest (check.mark flags)
    else (false, flags)

def scanRows (visit : Row → (Nat → Bool) → List Out × (Nat → Bool)) :
    List Row → (Nat → Bool) → List Out × (Nat → Bool)
  | [], flags => ([], flags)
  | row :: rows, flags =>
    let (out, between) := visit row flags
    let (more, last) := scanRows visit rows between
    (out ++ more, last)

namespace LoopNest

def run : LoopNest τ ν → Slots Row → (Nat → Bool) → List Out × (Nat → Bool)
  | .leaf final, slots, flags => (iteration.emit final slots, flags)
  | .scan level checks body, slots, flags =>
    scanRows (fun row flags =>
      let slots := Function.update slots level (some row)
      let (passed, flags) := runChecks iteration slots checks flags
      if passed then body.run slots flags else ([], flags)) (iteration.rows level) flags
  | .outer level first last main rest, slots, flags =>
    let (out, flags) := main.run slots (Function.update flags level false)
    if flags level then (out, flags)
    else
      let (more, flags) := rest.run (maskLevels first last slots) flags
      (out ++ more, flags)

def meaning : LoopNest τ ν → Slots Row → List Out × (Nat → Bool)
  | .leaf final, slots => (iteration.emit final slots, fun _ => false)
  | .scan level checks body, slots =>
    let visit := fun row =>
      let slots := Function.update slots level (some row)
      let (passed, marks) := runChecks iteration slots checks fun _ => false
      if passed then
        let (out, more) := body.meaning slots
        (out, fun level => marks level || more level)
      else ([], marks)
    ((iteration.rows level).flatMap fun row => (visit row).1,
      fun level' => (iteration.rows level).any fun row => (visit row).2 level')
  | .outer level first last main rest, slots =>
    let (out, marks) := main.meaning slots
    if marks level then (out, marks)
    else
      let (more, others) := rest.meaning (maskLevels first last slots)
      (out ++ more, fun level => marks level || others level)

/-- Every way to position the levels that the loops can reach. -/
def tried (rows : Nat → List Row) : LoopNest τ ν → Slots Row → List (Slots Row)
  | .leaf _, slots => [slots]
  | .scan level _ body, slots =>
    (rows level).flatMap fun row => body.tried rows (Function.update slots level (some row))
  | .outer _ first last main rest, slots =>
    main.tried rows slots ++ rest.tried rows (maskLevels first last slots)

/-- Whether the loops get through to a body with the levels positioned as in `final`. -/
def gives : LoopNest τ ν → Slots Row → Slots Row → Bool
  | .leaf _, _, _ => true
  | .scan level checks body, slots, final =>
    let slots := Function.update slots level (final level)
    (runChecks iteration slots checks fun _ => false).1 && body.gives slots final
  | .outer level first last main rest, slots, final =>
    if (final level).isSome then main.gives slots final
    else !(main.meaning iteration slots).2 level && rest.gives (maskLevels first last slots) final

def Moves : LoopNest τ ν → Nat → Prop
  | .leaf _, _ => False
  | .scan level _ body, other => other = level ∨ body.Moves other
  | .outer _ first last main rest, other =>
    main.Moves other ∨ (first ≤ other ∧ other ≤ last) ∨ rest.Moves other

/-- A level keeps its row, or its NULLs, further in. -/
def Settled : LoopNest τ ν → Prop
  | .leaf _ => True
  | .scan level _ body => ¬ body.Moves level ∧ body.Settled
  | .outer level first last main rest =>
    (∃ checks body, main = .scan level checks body) ∧ (first ≤ level ∧ level ≤ last) ∧
      ¬ rest.Moves level ∧ main.Settled ∧ rest.Settled

def owners : LoopNest τ ν → List Nat
  | .leaf _ => []
  | .scan _ _ body => body.owners
  | .outer level _ _ main rest => level :: (main.owners ++ rest.owners)

def Apart : LoopNest τ ν → Prop
  | .leaf _ => True
  | .scan _ _ body => body.Apart
  | .outer level _ _ main rest => level ∉ main.owners ∧ main.Apart ∧ rest.Apart

end LoopNest

end Running

section Meaning

variable {iteration : Iteration τ ν Row Out}

theorem runChecks_eq (iteration : Iteration τ ν Row Out) (slots : Slots Row)
    (checks : List (LevelCheck τ)) (flags : Nat → Bool) :
    (runChecks iteration slots checks flags).1 = (runChecks iteration slots checks fun _ => false).1 ∧
      ∀ level, (runChecks iteration slots checks flags).2 level =
        (flags level || (runChecks iteration slots checks fun _ => false).2 level) := by
  induction checks generalizing flags with
  | nil => simp [runChecks]
  | cons check rest ih =>
    unfold runChecks
    split
    · have now := ih (check.mark flags)
      have lowered := ih (check.mark fun _ => false)
      refine ⟨now.1.trans lowered.1.symm, fun level => ?_⟩
      rw [now.2, lowered.2, LevelCheck.mark_eq, LevelCheck.mark_eq]
      simp [Bool.or_assoc]
    · simp

theorem runChecks_passed (slots : Slots Row) (checks : List (LevelCheck τ)) (flags : Nat → Bool) :
    (runChecks iteration slots checks flags).1 =
      checks.all fun check => check.passes iteration.test slots := by
  induction checks generalizing flags with
  | nil => rfl
  | cons check rest ih =>
    unfold runChecks
    rw [all_cons]
    split
    · rename_i passed
      rw [ih, passed, Bool.true_and]
    · rename_i failed
      rw [Bool.eq_false_iff.mpr failed, Bool.false_and]

theorem scanRows_eq {visit : Row → (Nat → Bool) → List Out × (Nat → Bool)}
    {seen : Row → List Out × (Nat → Bool)} {inner : List Nat}
    (step : ∀ row flags, (visit row flags).1 = (seen row).1 ∧
      ∀ level ∉ inner, (visit row flags).2 level = (flags level || (seen row).2 level))
    (rows : List Row) (flags : Nat → Bool) :
    (scanRows visit rows flags).1 = rows.flatMap (fun row => (seen row).1) ∧
      ∀ level ∉ inner, (scanRows visit rows flags).2 level =
        (flags level || rows.any fun row => (seen row).2 level) := by
  induction rows generalizing flags with
  | nil => simp [scanRows]
  | cons row rows ih =>
    have first := step row flags
    have later := ih (visit row flags).2
    constructor
    · simp only [scanRows, flatMap_cons]
      rw [first.1, later.1]
    intro level outside
    simp only [scanRows, any_cons]
    rw [later.2 level outside, first.2 level outside, Bool.or_assoc]

theorem LoopNest.run_eq_meaning (nest : LoopNest τ ν) (apart : nest.Apart) (slots : Slots Row)
    (flags : Nat → Bool) : (nest.run iteration slots flags).1 = (nest.meaning iteration slots).1 ∧
      ∀ level ∉ nest.owners, (nest.run iteration slots flags).2 level =
        (flags level || (nest.meaning iteration slots).2 level) := by
  induction nest generalizing slots flags with
  | leaf final => simp [run, meaning]
  | scan level checks body ih =>
    apply scanRows_eq
    intro row flags
    have tests := runChecks_eq iteration (update slots level (some row)) checks flags
    dsimp only
    rw [tests.1]
    split
    · have below := ih apart (update slots level (some row))
        (runChecks iteration (update slots level (some row)) checks flags).2
      refine ⟨below.1, fun level outside => ?_⟩
      rw [below.2 level outside, tests.2]
      simp [Bool.or_assoc]
    · exact ⟨rfl, fun level _ => tests.2 level⟩
  | outer level first last main rest mainIh restIh =>
    obtain ⟨own, mainApart, restApart⟩ := apart
    have inside := mainIh mainApart slots (update flags level false)
    -- The flag of this loop is down at the start, so it ends as the marks say.
    have flag : (main.run iteration slots (update flags level false)).2 level =
        (main.meaning iteration slots).2 level := by
      rw [inside.2 level own]
      simp
    simp only [run, meaning, flag, owners]
    split
    · refine ⟨inside.1, fun other outside => ?_⟩
      simp only [mem_cons, mem_append, not_or] at outside
      rw [inside.2 other outside.2.1, update_of_ne outside.1]
    have after := restIh restApart (maskLevels first last slots)
      (main.run iteration slots (update flags level false)).2
    constructor
    · dsimp only
      rw [inside.1, after.1]
    intro other outside
    simp only [mem_cons, mem_append, not_or] at outside
    rw [after.2 other outside.2.2, inside.2 other outside.2.1, update_of_ne outside.1, Bool.or_assoc]

end Meaning

section Tried

variable {iteration : Iteration τ ν Row Out} {rows : Nat → List Row} {slots final : Slots Row}
  {level : Nat} {nest : LoopNest τ ν}

theorem LoopNest.tried_kept (kept : ¬ nest.Moves level)
    (mem : final ∈ nest.tried rows slots) : final level = slots level := by
  induction nest generalizing slots with
  | leaf number => rw [mem_singleton.mp mem]
  | scan other checks body ih =>
    obtain ⟨row, -, inside⟩ := mem_flatMap.mp mem
    rw [ih (fun moved => kept (.inr moved)) inside]
    exact update_of_ne (fun same => kept (.inl same)) ..
  | outer other first last main rest mainIh restIh =>
    rcases mem_append.mp mem with inside | behind
    · exact mainIh (fun moved => kept (.inl moved)) inside
    · rw [restIh (fun moved => kept (.inr (.inr moved))) behind]
      exact if_neg fun masked => kept (.inr (.inl masked))

theorem LoopNest.tried_none (empty : rows level = []) (start : slots level = none)
    (mem : final ∈ nest.tried rows slots) : final level = none := by
  induction nest generalizing slots with
  | leaf number => rwa [mem_singleton.mp mem]
  | scan other checks body ih =>
    obtain ⟨row, here, inside⟩ := mem_flatMap.mp mem
    apply ih _ inside
    rw [update_of_ne, start]
    rintro rfl
    rw [empty] at here
    cases here
  | outer other first last main rest mainIh restIh =>
    rcases mem_append.mp mem with inside | behind
    · exact mainIh start inside
    · apply restIh _ behind
      rw [maskLevels, start, ite_self]

theorem LoopNest.Settled.moves_owners (settled : nest.Settled) :
    ∀ owner ∈ nest.owners, nest.Moves owner := by
  induction nest with
  | leaf number => exact fun owner mem => nomatch mem
  | scan level checks body ih => exact fun owner mem => .inr (ih settled.2 owner mem)
  | outer level first last main rest mainIh restIh =>
    obtain ⟨⟨checks, body, rfl⟩, -, -, mainSettled, restSettled⟩ := settled
    intro owner mem
    rcases mem_cons.mp mem with rfl | below
    · exact .inl (.inl rfl)
    rcases mem_append.mp below with inside | behind
    · exact .inl (mainIh mainSettled owner inside)
    · exact .inr (.inr (restIh restSettled owner behind))

theorem LoopNest.Settled.apart (settled : nest.Settled) : nest.Apart := by
  induction nest with
  | leaf number => trivial
  | scan level checks body ih => exact ih settled.2
  | outer level first last main rest mainIh restIh =>
    obtain ⟨⟨checks, body, rfl⟩, -, -, mainSettled, restSettled⟩ := settled
    exact ⟨fun mem => mainSettled.1 (mainSettled.2.moves_owners level mem), mainIh mainSettled,
      restIh restSettled⟩

/-- Loops that emit one value for each row emit it for the rows that they get through to. -/
theorem LoopNest.meaning_eq_tried {place : Slots Row → Out}
    (emits : ∀ number slots, iteration.emit number slots = [place slots])
    (settled : nest.Settled) (slots : Slots Row) : (nest.meaning iteration slots).1 =
      ((nest.tried iteration.rows slots).filter (nest.gives iteration slots)).map place := by
  induction nest generalizing slots with
  | leaf number => simp [meaning, tried, gives, emits]
  | scan level checks body ih =>
    simp only [meaning, tried, filter_flatMap, map_flatMap]
    apply flatMap_congr
    intro row _
    have here : ∀ final ∈ body.tried iteration.rows (update slots level (some row)),
        gives iteration (.scan level checks body) slots final =
          ((runChecks iteration (update slots level (some row)) checks fun _ => false).1 &&
            body.gives iteration (update slots level (some row)) final) := by
      intro final mem
      rw [gives, tried_kept settled.1 mem, update_self]
    rw [filter_congr here]
    split
    · rename_i passed
      simp only [passed, Bool.true_and]
      exact ih settled.2 _
    · rename_i failed
      simp [failed]
  | outer level first last main rest mainIh restIh =>
    obtain ⟨scans, span, kept, mainSettled, restSettled⟩ := settled
    have positioned : ∀ final ∈ main.tried iteration.rows slots, (final level).isSome = true := by
      obtain ⟨checks, body, rfl⟩ := scans
      intro final mem
      obtain ⟨row, -, below⟩ := mem_flatMap.mp mem
      rw [tried_kept mainSettled.1 below, update_self]
      rfl
    have inside : ∀ final ∈ main.tried iteration.rows slots,
        gives iteration (.outer level first last main rest) slots final =
          main.gives iteration slots final := by
      intro final mem
      rw [gives, if_pos (positioned final mem)]
    have behind : ∀ final ∈ rest.tried iteration.rows (maskLevels first last slots),
        gives iteration (.outer level first last main rest) slots final =
          (!(main.meaning iteration slots).2 level &&
            rest.gives iteration (maskLevels first last slots) final) := by
      intro final mem
      have masked : maskLevels first last slots level = none := if_pos span
      rw [gives, tried_kept kept mem, masked]
      rfl
    rw [tried, filter_append, filter_congr inside, filter_congr behind, map_append,
      ← mainIh mainSettled, meaning]
    cases flag : (main.meaning iteration slots).2 level with
    | true => simp [flag]
    | false => simp [flag, restIh restSettled]

end Tried

end SqliteRs
