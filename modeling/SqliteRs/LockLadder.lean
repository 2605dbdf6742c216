import SqliteRs.Vfs

/-!
The journal-mode lock ladder of the main file. A level is held as byte ranges:
SHARED is a read lock on the shared range, RESERVED and PENDING add a write lock
on their own byte and EXCLUSIVE turns the shared range into a write lock. A move
between levels takes one rung at a time and stops at the rung it reached. Processes
move at the same time, by `fcntl` calls that the lock table answers or that fail. One
sees only its own locks change, so what a move ends with is proved for one process.
-/

namespace SqliteRs

inductive LockLevel where
  | unlocked
  | shared
  | reserved
  | pending
  | exclusive
  deriving DecidableEq, Repr

namespace LockLevel

def rank : LockLevel → Nat
  | .unlocked => 0
  | .shared => 1
  | .reserved => 2
  | .pending => 3
  | .exclusive => 4

instance : LT LockLevel := ⟨fun left right => left.rank < right.rank⟩

instance (left right : LockLevel) : Decidable (left < right) :=
  inferInstanceAs (Decidable (left.rank < right.rank))

end LockLevel

abbrev Ladder : Type := Vfs LockLevel VfsError Unit

def fcntlLock (region : Region) (kind : LockKind) : Ladder :=
  Vfs.setLock id region kind

def stepUp : Ladder := do
  match ← Action.get with
  | .unlocked =>
    fcntlLock .pending .read
    fcntlLock .pending .unlock
    fcntlLock .shared .read
    Action.modify fun _ => .shared
  | .shared =>
    fcntlLock .reserved .write
    Action.modify fun _ => .reserved
  | .reserved =>
    fcntlLock .pending .write
    Action.modify fun _ => .pending
  | .pending =>
    fcntlLock .shared .write
    Action.modify fun _ => .exclusive
  | .exclusive => pure ()

def stepDown : Ladder := do
  match ← Action.get with
  | .exclusive =>
    fcntlLock .shared .read
    Action.modify fun _ => .pending
  | .pending =>
    fcntlLock .pending .unlock
    Action.modify fun _ => .reserved
  | .reserved =>
    fcntlLock .reserved .unlock
    Action.modify fun _ => .shared
  | .shared =>
    fcntlLock .shared .unlock
    Action.modify fun _ => .unlocked
  | .unlocked => pure ()

/-- The upward loop. Each rung raises the level, so the ladder's four rungs bound it. -/
def climb (target : LockLevel) : Nat → Ladder
  | 0 => pure ()
  | rungs + 1 => do
      let level ← Action.get
      if level < target then
        stepUp
        climb target rungs
      else pure ()

def descend (target : LockLevel) : Nat → Ladder
  | 0 => pure ()
  | rungs + 1 => do
      let level ← Action.get
      if target < level then
        stepDown
        descend target rungs
      else pure ()

def setLevel (target : LockLevel) : Ladder := do
  climb target 4
  descend target 4

def checkReserved {State : Type} : Vfs State VfsError Bool :=
  Vfs.probeLock id .reserved

section Rungs

variable {holds : ∀ {Result : Type}, Vfs LockLevel VfsError Result → Prop}
  (pure : ∀ {Result : Type} (res : Result), holds (Pure.pure res)) (get : holds Action.get)
  (bind : ∀ {Result Next : Type} {act : Vfs LockLevel VfsError Result}
    {next : Result → Vfs LockLevel VfsError Next}, holds act → (∀ res, holds (next res)) →
      holds (act >>= next))
include pure get bind

theorem climb_holds (up : holds stepUp) (target : LockLevel) (rungs : Nat) :
    holds (climb target rungs) := by
  induction rungs with
  | zero => exact pure _
  | succ rungs ih =>
    refine bind get fun level => ?_
    split
    · exact bind up fun _ => ih
    · exact pure _

theorem descend_holds (down : holds stepDown) (target : LockLevel) (rungs : Nat) :
    holds (descend target rungs) := by
  induction rungs with
  | zero => exact pure _
  | succ rungs ih =>
    refine bind get fun level => ?_
    split
    · exact bind down fun _ => ih
    · exact pure _

theorem setLevel_holds (up : holds stepUp) (down : holds stepDown) (target : LockLevel) :
    holds (setLevel target) :=
  bind (climb_holds pure get bind up target 4) fun _ =>
    descend_holds pure get bind down target 4

end Rungs

section Inherited

variable {holds : ∀ {Result : Type}, Vfs LockLevel VfsError Result → Prop}
  (inherited : Action.Inherited holds) (lock : ∀ region kind, holds (fcntlLock region kind))
include inherited lock

theorem stepUp_inherits : holds stepUp := by
  refine inherited.bind inherited.get ?_
  intro level
  cases level with
  | unlocked =>
    refine inherited.bind (lock _ _) fun _ => ?_
    refine inherited.bind (lock _ _) fun _ => ?_
    exact inherited.bind (lock _ _) fun _ => inherited.modify _
  | exclusive => exact inherited.pure _
  | shared | reserved | pending => exact inherited.bind (lock _ _) fun _ => inherited.modify _

theorem stepDown_inherits : holds stepDown := by
  refine inherited.bind inherited.get ?_
  intro level
  cases level with
  | unlocked => exact inherited.pure _
  | shared | reserved | pending | exclusive =>
    exact inherited.bind (lock _ _) fun _ => inherited.modify _

theorem setLevel_inherits (target : LockLevel) : holds (setLevel target) :=
  setLevel_holds inherited.pure inherited.get inherited.bind (stepUp_inherits inherited lock)
    (stepDown_inherits inherited lock) target

end Inherited

theorem setLevel_makes {allowed : Call → Prop} (locks : ∀ region kind, allowed (.setLock region kind))
    (target : LockLevel) : Makes allowed (setLevel target) :=
  setLevel_inherits Action.Only.inherited
    (fun region kind => Makes.ask id (.setLock region kind) (locks region kind)) target

theorem setLevel_spares {path : Path} (target : LockLevel) : SparesPath path (setLevel target) :=
  setLevel_makes (fun _ _ => trivial) target

open List Function

def moved (owns : Region → Bool → Prop) (region : Region) (kind : LockKind) :
    Region → Bool → Prop :=
  fun other write =>
    if other = region then kind = bif write then .write else .read else owns other write

namespace LockLevel

def Held (owns : Region → Bool → Prop) : LockLevel → Prop
  | .unlocked => True
  | .shared => ∃ write, owns .shared write
  | .reserved => (∃ write, owns .shared write) ∧ owns .reserved true
  | .pending => (∃ write, owns .shared write) ∧ owns .reserved true ∧ owns .pending true
  | .exclusive => owns .shared true ∧ owns .reserved true ∧ owns .pending true

variable {owns : Region → Bool → Prop}

theorem Held.reads {level : LockLevel} (held : level.Held owns) (least : 1 ≤ level.rank) :
    ∃ write, owns .shared write := by
  cases level with
  | unlocked => cases least
  | shared => exact held
  | reserved | pending => exact held.1
  | exclusive => exact ⟨true, held.1⟩

theorem Held.reserves {level : LockLevel} (held : level.Held owns) (least : 2 ≤ level.rank) :
    owns .reserved true := by
  cases level with
  | unlocked | shared => simp [rank] at least
  | reserved => exact held.2
  | pending | exclusive => exact held.2.1

end LockLevel

/-- What a process sees of its calls: the lock is set as asked, or the call fails. -/
def ownLocks : System VfsCalls (Region → Bool → Prop) where
  step owns request after reply :=
    match request, reply with
    | .setLock region kind, .ok _ => after = moved owns region kind
    | _, _ => after = owns

/-- A part of a move along the ladder ends at a level whose locks are held, also if it fails. -/
def KeepsLevel {Result : Type} (act : Vfs LockLevel VfsError Result) : Prop :=
  ∀ owns level, level.Held owns →
    act.Always ownLocks (fun _ _ => True) (fun owns level _ => level.Held owns) level owns

theorem KeepsLevel.bind {Result Next : Type} {act : Vfs LockLevel VfsError Result}
    {next : Result → Vfs LockLevel VfsError Next} (first : KeepsLevel act)
    (later : ∀ res, KeepsLevel (next res)) : KeepsLevel (act >>= next) := by
  intro owns level held
  rw [Action.always_bind]
  refine (first owns level held).mono fun owns level res held => ?_
  cases res with
  | ok value => exact later value owns level held
  | error error => exact held

theorem always_rung (level next : LockLevel) {owns : Region → Bool → Prop} {region : Region}
    {kind : LockKind} (held : level.Held owns) (reached : next.Held (moved owns region kind)) :
    (do fcntlLock region kind
        Action.modify fun _ => next : Ladder).Always ownLocks (fun _ _ => True)
      (fun owns level _ => level.Held owns) level owns := by
  refine ⟨trivial, fun after reply taken => ?_⟩
  cases reply with
  | ok value =>
    cases taken
    exact reached
  | error fault =>
    cases taken
    exact held

theorem stepUp_keepsLevel : KeepsLevel stepUp := by
  intro owns level held
  cases level with
  | unlocked =>
    -- PENDING is only probed on the way to SHARED.
    refine ⟨trivial, fun probed first _ => ?_⟩
    cases first with
    | error fault => trivial
    | ok value =>
      refine ⟨trivial, fun dropped second _ => ?_⟩
      cases second with
      | error fault => trivial
      | ok value => exact always_rung .unlocked .shared trivial ⟨false, rfl⟩
  | shared => exact always_rung _ .reserved held ⟨held, rfl⟩
  | reserved => exact always_rung _ .pending held ⟨held.1, held.2, rfl⟩
  | pending => exact always_rung _ .exclusive held ⟨rfl, held.2⟩
  | exclusive => exact held

theorem stepDown_keepsLevel : KeepsLevel stepDown := by
  intro owns level held
  cases level with
  | unlocked => trivial
  | shared => exact always_rung _ .unlocked held trivial
  | reserved => exact always_rung _ .shared held held.1
  | pending => exact always_rung _ .reserved held ⟨held.1, held.2.1⟩
  | exclusive => exact always_rung _ .pending held ⟨⟨false, rfl⟩, held.2⟩

theorem setLevel_keepsLevel (target : LockLevel) : KeepsLevel (setLevel target) :=
  setLevel_holds (fun _ _ _ held => held) (fun _ _ held => held) KeepsLevel.bind
    stepUp_keepsLevel stepDown_keepsLevel target

/-- The processes at one file, with the locks each has. A program that is done is a lock
object at rest, with its level and the result of its last `set_level`. -/
structure Lockers where
  table : Nat → Region → Bool → Prop
  program : Nat → Program VfsCalls (LockLevel × Except VfsError Unit)

namespace Lockers

inductive Step : Lockers → Lockers → Prop
  | start {state : Lockers} {proc : Nat} {level : LockLevel} {result : Except VfsError Unit}
      (target : LockLevel) (rests : state.program proc = .done (level, result)) :
      Step state { state with program := update state.program proc (setLevel target level) }
  | granted {state : Lockers} {proc : Nat} {region : Region} {kind : LockKind}
      {resume : Except VfsError Unit → Program VfsCalls (LockLevel × Except VfsError Unit)}
      (waits : state.program proc = .call (.setLock region kind) resume)
      (free : kind ≠ .unlock → ∀ other ≠ proc, ∀ write, state.table other region write →
        kind = .read ∧ write = false) :
      Step state ⟨update state.table proc (moved (state.table proc) region kind),
        update state.program proc (resume (.ok ()))⟩
  | failed {state : Lockers} {proc : Nat} {region : Region} {kind : LockKind}
      {resume : Except VfsError Unit → Program VfsCalls (LockLevel × Except VfsError Unit)}
      (error : VfsError) (waits : state.program proc = .call (.setLock region kind) resume) :
      Step state { state with program := update state.program proc (resume (.error error)) }

/-- A process with these locks is on its way to a level that it holds. -/
def Settles (program : Program VfsCalls (LockLevel × Except VfsError Unit))
    (owns : Region → Bool → Prop) : Prop :=
  program.Always ownLocks (fun _ _ => True) (fun owns res => res.1.Held owns) owns

structure Sound (state : Lockers) : Prop where
  apart : ∀ one other, one ≠ other → ∀ region write, state.table one region true →
    ¬ state.table other region write
  settles : ∀ proc, Settles (state.program proc) (state.table proc)

theorem Sound.step {state after : Lockers} (sound : state.Sound) (step : Step state after) :
    after.Sound := by
  obtain ⟨apart, settles⟩ := sound
  -- Only the process that moves has a new program.
  have others {proc : Nat} {program} (own : Settles program (state.table proc)) (other) :
      Settles (update state.program proc program other) (state.table other) :=
    (forall_update_iff state.program fun other program => Settles program (state.table other)).mpr
      ⟨own, fun other _ => settles other⟩ other
  cases step with
  | @start proc level result target rests =>
    have held := settles proc
    rw [rests] at held
    exact ⟨apart, others (setLevel_keepsLevel target _ level held)⟩
  | @failed proc region kind resume error waits =>
    have waiting := settles proc
    rw [waits] at waiting
    exact ⟨apart, others (waiting.2 _ _ rfl)⟩
  | @granted proc region kind resume waits free =>
    refine ⟨fun one other differ place write => ?_, fun other => ?_⟩
    · have old := apart one other differ place write
      by_cases mine : one = proc
      · subst mine
        simp only [update_self, update_of_ne differ.symm, moved]
        split
        · rintro rfl held
          subst place
          cases (free (by decide) other differ.symm write held).1
        · exact old
      · by_cases theirs : other = proc
        · subst theirs
          simp only [update_of_ne mine, update_self, moved]
          split
          · rintro held rfl
            subst place
            cases (free (by cases write <;> decide) one differ true held).2
          · exact old
        · simpa only [update_of_ne mine, update_of_ne theirs] using old
    · by_cases same : other = proc
      · have waiting := settles proc
        rw [waits] at waiting
        simp only [same, update_self]
        exact waiting.2 _ _ rfl
      · simp only [update_of_ne same]
        exact settles other

def holds (state : Lockers) (proc : Nat) (level : LockLevel) : Prop :=
  level.Held (state.table proc)

/-- At no time of a run do two processes hold RESERVED or more, or one EXCLUSIVE and another
SHARED or more. A lock object at rest holds the level it records, also after a failure. -/
theorem lockers_exclude {start state : Lockers}
    (fresh : ∀ proc region write, ¬ start.table proc region write)
    (rests : ∀ proc, start.program proc = .done (.unlocked, .ok ()))
    (ran : Relation.ReflTransGen Step start state) :
    (∀ one other, one ≠ other → ∀ level higher : LockLevel, 2 ≤ level.rank → 2 ≤ higher.rank →
        ¬ (state.holds one level ∧ state.holds other higher)) ∧
      (∀ one other, one ≠ other → ∀ level : LockLevel, 1 ≤ level.rank →
        ¬ (state.holds one .exclusive ∧ state.holds other level)) ∧
      ∀ proc level result, state.program proc = .done (level, result) →
        state.holds proc level := by
  have sound : state.Sound := by
    induction ran with
    | refl =>
      refine ⟨fun one _ _ region _ held => absurd held (fresh one region true), fun proc => ?_⟩
      rw [rests]
      trivial
    | tail _ step ih => exact ih.step step
  refine ⟨fun one other differ level higher least above both => ?_,
    fun one other differ level least both => ?_, fun proc level result rests => ?_⟩
  · exact sound.apart one other differ _ _ (both.1.reserves least) (both.2.reserves above)
  · obtain ⟨write, read⟩ := both.2.reads least
    exact sound.apart one other differ _ _ both.1.1 read
  · have held := sound.settles proc
    rw [rests] at held
    exact held

/-- Process 1 climbs to RESERVED. Process 2 wants it too, gets as far as SHARED and is refused. -/
theorem one_reserves_beside_reader : ∃ state : Lockers, state.holds 1 .reserved ∧
    state.program 2 = .done (.shared, .error (.locked .main)) ∧ state.holds 2 .shared ∧
      ¬ state.holds 2 .reserved := by
  have first := ((((Relation.ReflTransGen.single (@Step.start
    ⟨fun _ _ _ => False, fun _ => .done (.unlocked, .ok ())⟩ 1 _ _ .reserved rfl)).tail
    (@Step.granted _ 1 .pending .read _ rfl fun _ _ _ _ none => none.elim)).tail
    (@Step.granted _ 1 .pending .unlock _ rfl fun none => absurd rfl none)).tail
    (@Step.granted _ 1 .shared .read _ rfl fun _ other differ _ => by simp [differ])).tail
    (@Step.granted _ 1 .reserved .write _ rfl fun _ other differ _ => by simp [differ])
  have ran := ((((first.tail (@Step.start _ 2 _ _ .reserved rfl)).tail
    (@Step.granted _ 2 .pending .read _ rfl fun _ other _ write => by
      cases write <;> by_cases one : other = 1 <;> simp [one, moved])).tail
    (@Step.granted _ 2 .pending .unlock _ rfl fun none => absurd rfl none)).tail
    (@Step.granted _ 2 .shared .read _ rfl fun _ other differ write => by
      cases write <;> by_cases one : other = 1 <;> simp [one, differ, moved])).tail
    (@Step.failed _ 2 .reserved .write _ (.locked .main) rfl)
  obtain ⟨alone, -, rests⟩ := lockers_exclude (fun _ _ _ => id) (fun _ => rfl) ran
  have reserved := rests 1 _ _ rfl
  exact ⟨_, reserved, rfl, rests 2 _ _ rfl,
    fun both => alone 1 2 (by decide) _ _ (by decide) (by decide) ⟨reserved, both⟩⟩

end Lockers

end SqliteRs
