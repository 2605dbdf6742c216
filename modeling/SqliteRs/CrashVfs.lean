import SqliteRs.Vfs

/-!
A machine that may crash. Besides the world its processes see, it keeps for each
path every content a crash may leave: unsynced writes may be torn, a sync leaves
only what was written, and creating and deleting a file are atomic, deletion at
once durable. After a crash nobody holds a lock.
-/

namespace SqliteRs

open List Option World Vfs Program SqliteRs.Action

open ByteFile

variable {State Error : Type}

structure Machine where
  world : World
  disk : Path → Option Bytes → Prop
  history : List Call

/-- The contents a crash may leave at a path after a call, from those before it. -/
def imagesAfter (world : World) (path : Path) (images : Option Bytes → Prop) :
    Call → Option Bytes → Prop
  | .createOrOpenWrite target, image =>
    images image ∨ (target = path ∧ world.present path = false ∧ image = some [])
  | .delete target, image => if target = path then image = none else images image
  | .writeAt file offset data, image =>
    images image ∨ (file = world.handle path ∧
      ∃ before after, images (some before) ∧ image = some after ∧
        TornWrite before offset data after)
  | .truncate file length, image =>
    images image ∨ (file = world.handle path ∧
      ∃ before after, images (some before) ∧ image = some after ∧
        TornTruncate before length after)
  | .sync file, image =>
    images image ∧ (file = world.handle path → image = world.content path)
  | _, image => images image

def crashAnswer (proc : Nat) (machine : Machine) (call : Call) :
    Machine × Except VfsError call.Reply :=
  ({ world := (unixAnswer proc machine.world call).1
     disk := fun path => imagesAfter machine.world path (machine.disk path) call
     history := machine.history ++ [call] }, (unixAnswer proc machine.world call).2)

def crashVfs (proc : Nat) : Server VfsCalls Machine := ⟨crashAnswer proc⟩

namespace Machine

def boot (world : World) : Machine :=
  { world, disk := fun path image => image = world.content path, history := [] }

structure Crash (machine : Machine) (world : World) : Prop where
  left : ∀ path, machine.disk path (world.content path)
  unlocked : world.locks = []

end Machine

variable {Result : Type}

theorem exec_crashVfs (proc : Nat)
    (action : Vfs State Error Result) (state : State) (machine after : Machine) (last : State)
    (res : Except Error Result)
    (ran : action.exec (crashVfs proc) state machine = ⟨after, last, res⟩) :
    action.exec (unixVfs proc) state machine.world = ⟨after.world, last, res⟩ := by
  have mapped := Program.run_map (crashVfs proc) (unixVfs proc) Machine.world
    (fun _ _ => rfl) (action state) machine
  simp only [Action.exec, Outcome.mk.injEq] at ran ⊢
  obtain ⟨world, last, res⟩ := ran
  rw [← mapped]
  exact ⟨by rw [← world], last, res⟩

theorem always_of_unix {proc : Nat}
    {action : Vfs State Error Result} {state last : State} {machine : Machine} {after : World}
    {res : Except Error Result}
    (ran : action.exec (unixVfs proc) state machine.world = ⟨after, last, res⟩) :
    Always (crashVfs proc).toSystem (fun _ _ => True)
      (fun reached kept answer => reached.world = after ∧ kept = last ∧ answer = res)
      action state machine := by
  apply Always.of_run
  have seen := exec_crashVfs proc action state machine _ _ _ rfl
  rw [ran, Outcome.mk.injEq] at seen
  exact ⟨seen.1.symm, seen.2.1.symm, seen.2.2.symm⟩

theorem imagesAfter_spares (world : World) (path : Path) (images : Option Bytes → Prop)
    (call : Call) (spares : call.Spares path) (image : Option Bytes)
    (left : imagesAfter world path images call image) : images image := by
  cases call with
  | createOrOpenWrite target =>
    rcases left with old | ⟨same, _⟩
    · exact old
    · exact absurd same spares
  | delete target =>
    rw [imagesAfter, if_neg spares] at left
    exact left
  | writeAt | truncate =>
    rcases left with old | ⟨rfl, _⟩
    · exact old
    · exact absurd rfl spares
  | sync file => exact left.1
  | «exists» | openRead | openWrite | size | readAt | setLock | probeLock | randomNonce =>
    exact left

theorem crashVfs_possible (proc : Nat) (machine : Machine) (call : Call) (after : Machine)
    (reply : Except VfsError call.Reply)
    (taken : (crashVfs proc).toSystem.step machine call after reply) : call.Plausible reply := by
  have possible := unixAnswer_possible proc machine.world call
  have answered : crashAnswer proc machine call = (after, reply) := taken
  rw [crashAnswer, Prod.mk.injEq] at answered
  rw [answered.2] at possible
  exact possible

theorem always_crash_ask {proc : Nat} {guard : Machine → Call → Prop}
    {wrap : VfsError → Error} {call : Call}
    {post : Machine → State → Except Error call.Reply → Prop} {state : State} {machine : Machine} :
    Always (crashVfs proc).toSystem guard post (ask wrap call) state machine ↔
      guard machine call ∧ post (crashAnswer proc machine call).1 state
        ((unixAnswer proc machine.world call).2.mapError wrap) := by
  refine Iff.trans (Action.always_request (I := VfsCalls)) ?_
  constructor
  · rintro ⟨here, ends⟩
    exact ⟨here, ends _ _ rfl⟩
  rintro ⟨here, ends⟩
  refine ⟨here, ?_⟩
  rintro after reply taken
  have answered : crashAnswer proc machine call = (after, reply) := taken
  rw [Prod.mk.injEq] at answered
  rw [← answered.1, ← answered.2]
  exact ends

section Calls

variable {State Error : Type} {proc : Nat} {guard : Machine → Call → Prop}
  {wrap : VfsError → Error} {state : State} {machine : Machine} {path : Path} {file : Handle}
  {post : Machine → State → Except Error Handle → Prop}

theorem always_openRead :
    Always (crashVfs proc).toSystem guard post (openRead wrap path) state machine ↔
      guard machine (.openRead path) ∧ post (crashAnswer proc machine (.openRead path)).1 state
        ((openExistingFile machine.world path).mapError wrap) := always_crash_ask

theorem always_openWrite :
    Always (crashVfs proc).toSystem guard post (openWrite wrap path) state machine ↔
      guard machine (.openWrite path) ∧ post (crashAnswer proc machine (.openWrite path)).1 state
        ((openExistingFile machine.world path).mapError wrap) := always_crash_ask

theorem always_createOrOpenWrite :
    Always (crashVfs proc).toSystem guard post (createOrOpenWrite wrap path) state
        machine ↔ guard machine (.createOrOpenWrite path) ∧
        post (crashAnswer proc machine (.createOrOpenWrite path)).1 state
          (.ok ((crashAnswer proc machine (.createOrOpenWrite path)).1.world.handle path)) := by
  refine Iff.trans always_crash_ask ?_
  have answered : (unixAnswer proc machine.world (.createOrOpenWrite path)).2 =
      .ok ((unixAnswer proc machine.world (.createOrOpenWrite path)).1.handle path) := by
    simp only [unixAnswer]
    split
    · rfl
    · rfl
  rw [answered]
  rfl

variable {post : Machine → State → Except Error Unit → Prop}

theorem always_delete :
    Always (crashVfs proc).toSystem guard post (delete wrap path) state machine ↔
      guard machine (.delete path) ∧ post (crashAnswer proc machine (.delete path)).1 state
        (.ok ()) := always_crash_ask

theorem always_size {post : Machine → State → Except Error Nat → Prop} :
    Always (crashVfs proc).toSystem guard post (size wrap file) state machine ↔
      guard machine (.size file) ∧ post (crashAnswer proc machine (.size file)).1 state
        (.ok (machine.world.inode file).length) := always_crash_ask

variable {off length : Nat} {region : Region}

theorem always_readAt {post : Machine → State → Except Error Bytes → Prop} :
    Always (crashVfs proc).toSystem guard post (readAt wrap file off length) state
        machine ↔
      guard machine (.readAt file off length) ∧
        post (crashAnswer proc machine (.readAt file off length)).1 state
          (.ok (readAt (machine.world.inode file) off length)) := always_crash_ask

theorem always_writeAt {data : Bytes} :
    Always (crashVfs proc).toSystem guard post (writeAt wrap file off data) state
        machine ↔ guard machine (.writeAt file off data) ∧
        post (crashAnswer proc machine (.writeAt file off data)).1 state (.ok ()) :=
  always_crash_ask

theorem always_truncate : Always (crashVfs proc).toSystem guard post (truncate wrap file length) state
        machine ↔ guard machine (.truncate file length) ∧
        post (crashAnswer proc machine (.truncate file length)).1 state (.ok ()) :=
  always_crash_ask

theorem always_sync :
    Always (crashVfs proc).toSystem guard post (sync wrap file) state machine ↔
      guard machine (.sync file) ∧ post (crashAnswer proc machine (.sync file)).1 state
        (.ok ()) := always_crash_ask

theorem always_setLock {kind : LockKind} :
    Always (crashVfs proc).toSystem guard post (setLock wrap region kind) state
        machine ↔
      guard machine (.setLock region kind) ∧
        post (crashAnswer proc machine (.setLock region kind)).1 state
          ((machine.world.setLock proc region kind).2.mapError wrap) := always_crash_ask

theorem always_probeLock {post : Machine → State → Except Error Bool → Prop} :
    Always (crashVfs proc).toSystem guard post (probeLock wrap region) state
        machine ↔
      guard machine (.probeLock region) ∧ post (crashAnswer proc machine (.probeLock region)).1 state
          (.ok (machine.world.conflicts proc region true)) := always_crash_ask

theorem always_randomNonce {post : Machine → State → Except Error UInt32 → Prop} :
    Always (crashVfs proc).toSystem guard post (randomNonce wrap) state machine ↔
      guard machine .randomNonce ∧ post (crashAnswer proc machine .randomNonce).1 state
        (.ok (machine.world.nonces 0)) := always_crash_ask

end Calls

section

variable (proc : Nat) (machine : Machine) (path : Path) (file : Handle) (bytes : Bytes)
  (found : machine.world.content path = some bytes) (onPath : machine.world.handle path = file)

include proc machine path file bytes found onPath

theorem content_crash_write (offset : Nat) (data : Bytes) :
    (crashAnswer proc machine (.writeAt file offset data)).1.world.content path =
      some (writeAt bytes offset data) := by
  subst onPath
  obtain ⟨present, inode⟩ := (machine.world.content_eq_some_iff bytes path).mp found
  rw [← inode]
  exact content_store_same _ _ _ present

theorem content_crash_truncate (length : Nat) :
    (crashAnswer proc machine (.truncate file length)).1.world.content path =
      some (truncate bytes length) := by
  subst onPath
  obtain ⟨present, inode⟩ := (machine.world.content_eq_some_iff bytes path).mp found
  rw [← inode]
  exact content_store_same _ _ _ present

end

theorem content_crash_create (proc : Nat) (machine : Machine) (path : Path) :
    (crashAnswer proc machine (.createOrOpenWrite path)).1.world.content path =
      some ((machine.world.content path).getD []) := by
  simp only [crashAnswer, unixAnswer]
  by_cases present : machine.world.present path = true
  · rw [if_pos present, machine.world.content_of_present path present, getD_some]
  have absent := (machine.world.content_eq_none_iff path).mpr (by simpa using present)
  rw [if_neg present, absent]
  exact machine.world.content_create path

namespace Machine

def Faithful (machine : Machine) : Prop :=
  ∀ path, machine.disk path (machine.world.content path)

theorem faithful_boot (world : World) : (boot world).Faithful := fun _ => rfl

/-- A change of an inode leaves a path with what it had, or with the changed bytes. -/
theorem content_store {world : World} {path : Path} {file : Handle} {images : Option Bytes → Prop}
    {torn : Bytes → Bytes → Prop} {update : Bytes → Bytes} (held : images (world.content path))
    (whole : ∀ bytes, torn bytes (update bytes)) :
    images ((world.store file (update (world.inode file))).content path) ∨
      file = world.handle path ∧ ∃ before after, images (some before) ∧
        (world.store file (update (world.inode file))).content path = some after ∧
        torn before after := by
  by_cases current : file = world.handle path
  · subst current
    cases found : world.content path with
    | none =>
      left
      rw [content_eq_none_iff] at found
      rw [(content_eq_none_iff (world.store ..) path).mpr found,
        ← (world.content_eq_none_iff path).mpr found]
      exact held
    | some bytes =>
      obtain ⟨present, rfl⟩ := (world.content_eq_some_iff bytes path).mp found
      exact .inr ⟨rfl, _, _, found ▸ held, content_store_same _ _ _ present, whole _⟩
  · have same : (world.store file (update (world.inode file))).content path =
        world.content path := by
      simp [World.content, present_store, handle_store, inode_store, Ne.symm current]
    rw [same]
    exact .inl held

theorem Faithful.step {machine : Machine} (faithful : machine.Faithful) (proc : Nat)
    (call : Call) : (crashAnswer proc machine call).1.Faithful := by
  intro path
  have before := faithful path
  by_cases spared : call.Spares path
  · have same := (unixAnswer_spares proc path machine.world call spared).content
    simp only [crashAnswer, same]
    cases call with
    | createOrOpenWrite target => exact Or.inl before
    | delete target =>
      rw [imagesAfter, if_neg spared]
      exact before
    | writeAt | truncate => exact Or.inl before
    | sync file => exact ⟨before, fun _ => rfl⟩
    | _ => exact before
  cases call with
  | createOrOpenWrite target =>
    obtain rfl : target = path := not_not.mp spared
    simp only [crashAnswer, unixAnswer]
    by_cases present : machine.world.present target = true
    · rw [if_pos present]
      exact Or.inl before
    · rw [if_neg present, content_create]
      exact Or.inr ⟨rfl, Bool.not_eq_true _ ▸ present, rfl⟩
  | delete target =>
    obtain rfl : target = path := not_not.mp spared
    simp [crashAnswer, unixAnswer, imagesAfter]
  | writeAt file offset data => exact content_store before fun bytes => tornWrite_whole bytes _ _
  | truncate file length => exact content_store before fun bytes => tornTruncate_whole bytes _
  | _ => exact absurd trivial spared

theorem Faithful.crash {machine : Machine} (faithful : machine.Faithful) :
    machine.Crash { machine.world with locks := [] } :=
  ⟨faithful, rfl⟩

variable {Result : Type}

theorem faithful_cut (proc calls : Nat) (program : Program VfsCalls Result)
    (world : World) : (cut (crashVfs proc) calls program (boot world)).2.Faithful := by
  apply Runs.invariant _ (Program.runs_cut _ _ _ _) (faithful_boot world)
  intro machine call after reply taken faithful
  have answered : crashAnswer proc machine call = (after, reply) := taken
  have next := faithful.step proc call
  rw [answered] at next
  exact next

theorem content_cut_spared (proc calls : Nat)
    (program : Program VfsCalls Result) (world : World) (path : Path)
    (spared : ∀ call ∈ (cut (crashVfs proc) calls program (boot world)).2.history,
      call.Spares path) : (cut (crashVfs proc) calls program (boot world)).2.world.content path =
      world.content path := by
  let inv : Machine → Prop := fun machine =>
    (∀ call ∈ machine.history, call.Spares path) → machine.world.content path = world.content path
  have kept : ∀ machine call after reply, (crashVfs proc).toSystem.step machine call after reply →
      inv machine → inv after := by
    intro machine call after reply taken same spared
    have answered : crashAnswer proc machine call = (after, reply) := taken
    cases answered
    have before := same fun call mem => spared call (mem_append_left _ mem)
    have last := unixAnswer_spares proc path machine.world call
      (spared call (mem_append_right _ mem_cons_self))
    exact last.content.trans before
  exact Runs.invariant kept (Program.runs_cut (crashVfs proc) calls program (boot world))
    (fun _ => rfl) spared

end Machine

end SqliteRs
