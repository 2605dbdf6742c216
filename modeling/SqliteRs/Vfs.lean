import SqliteRs.ByteFile
import SqliteRs.IoProgram

/-!
The virtual file system of the Unix backend. A database is four files: the main
file and its `-journal`, `-wal` and `-shm` companions. An open handle names an
inode, so it keeps reading the same bytes after its path is deleted or created
again. Byte-range locks belong to a process: a request conflicts only with the
locks of other processes, and a process replaces or drops its own.

Every lock the source takes covers one of the ranges of `Region`, which are
disjoint. Descriptors are shared per inode in the source, so no close releases
a lock here. The in-memory backend is the case without a `-shm` file.
-/

namespace SqliteRs

open SqliteRs.Action

inductive Path where
  | main
  | journal
  | wal
  | shm
  deriving DecidableEq, Repr

inductive VfsError where
  | notFound (path : Path)
  | locked (path : Path)
  | io (path : Path)
  deriving DecidableEq, Repr

/-- The lock bytes of the main file and of the `-shm` file. -/
inductive Region where
  | pending
  | reserved
  | shared
  | walWrite
  | walCheckpoint
  | walRead (slot : Nat)
  deriving DecidableEq, Repr

def Region.path : Region → Path
  | .pending | .reserved | .shared => .main
  | .walWrite | .walCheckpoint | .walRead _ => .shm

inductive LockKind where
  | read
  | write
  | unlock
  deriving DecidableEq, Repr

structure Handle where
  path : Path
  generation : Nat
  deriving DecidableEq, Repr

inductive Call where
  | exists (path : Path)
  | openRead (path : Path)
  | openWrite (path : Path)
  | createOrOpenWrite (path : Path)
  | delete (path : Path)
  | size (file : Handle)
  | readAt (file : Handle) (offset length : Nat)
  | writeAt (file : Handle) (offset : Nat) (data : Bytes)
  | truncate (file : Handle) (length : Nat)
  | sync (file : Handle)
  | setLock (region : Region) (kind : LockKind)
  | probeLock (region : Region)
  | randomNonce
  deriving DecidableEq

def Call.Reply : Call → Type
  | .exists _ => Bool
  | .openRead _ => Handle
  | .openWrite _ => Handle
  | .createOrOpenWrite _ => Handle
  | .delete _ => Unit
  | .size _ => Nat
  | .readAt _ _ _ => Bytes
  | .writeAt _ _ _ => Unit
  | .truncate _ _ => Unit
  | .sync _ => Unit
  | .setLock _ _ => Unit
  | .probeLock _ => Bool
  | .randomNonce => UInt32

abbrev VfsCalls : Interface := ⟨Call, Call.Reply, VfsError⟩

abbrev Vfs (State Error Result : Type) : Type := Action VfsCalls State Error Result

def ask {State Error : Type} (wrap : VfsError → Error) (call : Call) :
    Vfs State Error call.Reply :=
  Action.request (I := VfsCalls) wrap call

namespace Vfs

variable {State Error : Type} (wrap : VfsError → Error)

def fileExists (path : Path) : Vfs State Error Bool := ask wrap (.exists path)

def openRead (path : Path) : Vfs State Error Handle := ask wrap (.openRead path)

def openWrite (path : Path) : Vfs State Error Handle := ask wrap (.openWrite path)

def createOrOpenWrite (path : Path) : Vfs State Error Handle := ask wrap (.createOrOpenWrite path)

def delete (path : Path) : Vfs State Error Unit := ask wrap (.delete path)

def size (file : Handle) : Vfs State Error Nat := ask wrap (.size file)

def readAt (file : Handle) (offset length : Nat) : Vfs State Error Bytes :=
  ask wrap (.readAt file offset length)

def writeAt (file : Handle) (offset : Nat) (data : Bytes) : Vfs State Error Unit :=
  ask wrap (.writeAt file offset data)

def truncate (file : Handle) (length : Nat) : Vfs State Error Unit :=
  ask wrap (.truncate file length)

def sync (file : Handle) : Vfs State Error Unit := ask wrap (.sync file)

def setLock (region : Region) (kind : LockKind) : Vfs State Error Unit :=
  ask wrap (.setLock region kind)

def probeLock (region : Region) : Vfs State Error Bool := ask wrap (.probeLock region)

def randomNonce : Vfs State Error UInt32 := ask wrap .randomNonce

end Vfs

structure HeldLock where
  process : Nat
  region : Region
  write : Bool
  deriving DecidableEq, Repr

structure World where
  present : Path → Bool
  generation : Path → Nat
  inode : Handle → Bytes
  locks : List HeldLock
  nonces : Nat → UInt32

namespace World

def handle (world : World) (path : Path) : Handle := ⟨path, world.generation path⟩

def content (world : World) (path : Path) : Option Bytes :=
  if world.present path then some (world.inode (world.handle path)) else none

def store (world : World) (file : Handle) (bytes : Bytes) : World :=
  { world with inode := fun other => if other = file then bytes else world.inode other }

def create (world : World) (path : Path) : World :=
  let next : Handle := ⟨path, world.generation path + 1⟩
  { world with
    present := fun other => if other = path then true else world.present other
    generation := fun other => if other = path then next.generation else world.generation other
    inode := fun other => if other = next then [] else world.inode other }

def unlink (world : World) (path : Path) : World :=
  { world with present := fun other => if other = path then false else world.present other }

def conflicts (world : World) (proc : Nat) (region : Region) (write : Bool) : Bool :=
  world.locks.any fun held =>
    held.region = region ∧ held.process ≠ proc ∧ (write ∨ held.write)

def release (world : World) (proc : Nat) (region : Region) : World :=
  { world with
    locks := world.locks.filter fun held => ¬ (held.process = proc ∧ held.region = region) }

def grant (world : World) (proc : Nat) (region : Region) (write : Bool) : World :=
  { world.release proc region with
    locks := ⟨proc, region, write⟩ :: (world.release proc region).locks }

def setLock (world : World) (proc : Nat) (region : Region) :
    LockKind → World × Except VfsError Unit
  | .unlock => (world.release proc region, .ok ())
  | .read =>
    if world.conflicts proc region false then (world, .error (.locked region.path))
    else (world.grant proc region false, .ok ())
  | .write =>
    if world.conflicts proc region true then (world, .error (.locked region.path))
    else (world.grant proc region true, .ok ())

end World

def openExistingFile (world : World) (path : Path) : Except VfsError Handle :=
  if world.present path then .ok (world.handle path) else .error (.notFound path)

def unixAnswer (proc : Nat) (world : World) :
    (request : Call) → World × Except VfsError request.Reply
  | .exists path => (world, .ok (world.present path))
  | .openRead path => (world, openExistingFile world path)
  | .openWrite path => (world, openExistingFile world path)
  | .createOrOpenWrite path =>
    if world.present path then (world, .ok (world.handle path))
    else (world.create path, .ok ((world.create path).handle path))
  | .delete path => (world.unlink path, .ok ())
  | .size file => (world, .ok (world.inode file).length)
  | .readAt file offset length => (world, .ok (ByteFile.readAt (world.inode file) offset length))
  | .writeAt file offset data =>
    (world.store file (ByteFile.writeAt (world.inode file) offset data), .ok ())
  | .truncate file length =>
    (world.store file (ByteFile.truncate (world.inode file) length), .ok ())
  | .sync _ => (world, .ok ())
  | .setLock region kind => world.setLock proc region kind
  | .probeLock region => (world, .ok (world.conflicts proc region true))
  | .randomNonce =>
    ({ world with nonces := fun index => world.nonces (index + 1) }, .ok (world.nonces 0))

def unixVfs (proc : Nat) : Server VfsCalls World := ⟨unixAnswer proc⟩

theorem exec_ask {State Error : Type} (proc : Nat) (wrap : VfsError → Error) (call : Call)
    (state : State) (world : World) :
    (ask wrap call : Vfs State Error _).exec (unixVfs proc) state world =
      ⟨(unixAnswer proc world call).1, state, (unixAnswer proc world call).2.mapError wrap⟩ :=
  Action.exec_request (I := VfsCalls) _ _ _ wrap call

section Execution

variable {State Error : Type} (proc : Nat) (wrap : VfsError → Error) (state : State)
  (world : World)

@[simp] theorem exec_fileExists (path : Path) :
    (Vfs.fileExists wrap path).exec (unixVfs proc) state world =
      ⟨world, state, .ok (world.present path)⟩ := exec_ask _ _ _ _ _

@[simp] theorem exec_openRead (path : Path) :
    (Vfs.openRead wrap path).exec (unixVfs proc) state world =
      ⟨world, state, (openExistingFile world path).mapError wrap⟩ := exec_ask _ _ _ _ _

@[simp] theorem exec_openWrite (path : Path) :
    (Vfs.openWrite wrap path).exec (unixVfs proc) state world =
      ⟨world, state, (openExistingFile world path).mapError wrap⟩ := exec_ask _ _ _ _ _

theorem exec_createOrOpenWrite (path : Path) :
    (Vfs.createOrOpenWrite wrap path).exec (unixVfs proc) state world =
      ⟨if world.present path then world else world.create path, state,
        .ok ((if world.present path then world else world.create path).handle path)⟩ := by
  refine (exec_ask proc wrap (.createOrOpenWrite path) state world).trans ?_
  by_cases present : world.present path = true
  all_goals
    simp only [unixAnswer, present]
    rfl

@[simp] theorem exec_delete (path : Path) :
    (Vfs.delete wrap path).exec (unixVfs proc) state world =
      ⟨world.unlink path, state, .ok ()⟩ := exec_ask _ _ _ _ _

@[simp] theorem exec_size (file : Handle) :
    (Vfs.size wrap file).exec (unixVfs proc) state world =
      ⟨world, state, .ok (world.inode file).length⟩ := exec_ask _ _ _ _ _

@[simp] theorem exec_readAt (file : Handle) (off length : Nat) :
    (Vfs.readAt wrap file off length).exec (unixVfs proc) state world =
      ⟨world, state, .ok (ByteFile.readAt (world.inode file) off length)⟩ :=
  exec_ask _ _ _ _ _

@[simp] theorem exec_writeAt (file : Handle) (off : Nat) (data : Bytes) :
    (Vfs.writeAt wrap file off data).exec (unixVfs proc) state world =
      ⟨world.store file (ByteFile.writeAt (world.inode file) off data), state, .ok ()⟩ :=
  exec_ask _ _ _ _ _

@[simp] theorem exec_truncate (file : Handle) (length : Nat) :
    (Vfs.truncate wrap file length).exec (unixVfs proc) state world =
      ⟨world.store file (ByteFile.truncate (world.inode file) length), state, .ok ()⟩ :=
  exec_ask _ _ _ _ _

@[simp] theorem exec_sync (file : Handle) :
    (Vfs.sync wrap file).exec (unixVfs proc) state world = ⟨world, state, .ok ()⟩ :=
  exec_ask _ _ _ _ _

@[simp] theorem exec_probeLock (region : Region) :
    (Vfs.probeLock wrap region).exec (unixVfs proc) state world =
      ⟨world, state, .ok (world.conflicts proc region true)⟩ := exec_ask _ _ _ _ _

@[simp] theorem exec_randomNonce :
    (Vfs.randomNonce wrap).exec (unixVfs proc) state world =
      ⟨{ world with nonces := fun index => world.nonces (index + 1) }, state,
        .ok (world.nonces 0)⟩ := exec_ask _ _ _ _ _

end Execution

namespace World

variable (world : World) (file other : Handle) (bytes : Bytes) (path target : Path)
  (proc : Nat) (region : Region) (write : Bool) {before after : World}

@[simp] theorem inode_store :
    (world.store file bytes).inode other = if other = file then bytes else world.inode other := rfl

@[simp] theorem present_store : (world.store file bytes).present = world.present := rfl

@[simp] theorem handle_store : (world.store file bytes).handle path = world.handle path := rfl

theorem store_self : world.store file (world.inode file) = world := by
  simp only [store]
  congr 1
  funext other
  by_cases same : other = file
  · simp [same]
  · simp [same]

theorem store_store (later : Bytes) :
    (world.store file bytes).store file later = world.store file later := by
  simp only [store]
  congr 1
  funext other
  by_cases same : other = file
  · simp [same]
  · simp [same]

@[simp] theorem handle_path : (world.handle path).path = path := rfl

theorem content_of_present (present : world.present path = true) :
    world.content path = some (world.inode (world.handle path)) := by
  simp [content, present]

theorem content_eq_some_iff : world.content path = some bytes ↔
      world.present path = true ∧ world.inode (world.handle path) = bytes := by
  by_cases present : world.present path = true <;> simp [content]

theorem content_eq_none_iff : world.content path = none ↔ world.present path = false := by
  by_cases present : world.present path = true <;> simp [content]

theorem content_store_same (present : world.present path = true) :
    (world.store (world.handle path) bytes).content path = some bytes := by
  simp [content, present]

theorem content_store_other (differ : file.path ≠ path) :
    (world.store file bytes).content path = world.content path := by
  have apart : world.handle path ≠ file := by
    intro same
    exact differ (by rw [← same]; rfl)
  simp [content, apart]

@[simp] theorem present_create : (world.create path).present path = true := by
  simp [create]

@[simp] theorem inode_create : (world.create path).inode ((world.create path).handle path) = [] := by
  simp [create, handle]

@[simp] theorem content_create : (world.create path).content path = some [] := by
  simp [content, create, handle]

@[simp] theorem content_unlink : (world.unlink path).content path = none := by
  simp [content, unlink]

theorem content_unlink_other (differ : target ≠ path) :
    (world.unlink path).content target = world.content target := by
  simp [content, unlink, handle, differ]

theorem setLock_files (kind : LockKind) : (world.setLock proc region kind).1.present = world.present ∧
      (world.setLock proc region kind).1.generation = world.generation ∧
      (world.setLock proc region kind).1.inode = world.inode := by
  cases kind with
  | unlock => exact ⟨rfl, rfl, rfl⟩
  | read | write =>
    simp only [setLock]
    split <;> exact ⟨rfl, rfl, rfl⟩

/-- Nothing about a path changed: its entry, and the bytes of all its inodes. -/
structure SamePath (path : Path) (before after : World) : Prop where
  present : after.present path = before.present path
  generation : after.generation path = before.generation path
  inode : ∀ number, after.inode ⟨path, number⟩ = before.inode ⟨path, number⟩

theorem SamePath.refl (path : Path) (world : World) : SamePath path world world :=
  ⟨rfl, rfl, fun _ => rfl⟩

theorem SamePath.trans {path : Path} {first second third : World}
    (left : SamePath path first second) (right : SamePath path second third) :
    SamePath path first third :=
  ⟨right.present.trans left.present, right.generation.trans left.generation,
    fun num => (right.inode num).trans (left.inode num)⟩

theorem SamePath.handle {path : Path} (same : SamePath path before after) :
    after.handle path = before.handle path := by
  simp [World.handle, same.generation]

theorem SamePath.inode_of {path : Path} (same : SamePath path before after)
    (file : Handle) (on : file.path = path) : after.inode file = before.inode file := by
  subst on
  exact same.inode file.generation

theorem SamePath.content {path : Path}
    (same : SamePath path before after) : after.content path = before.content path := by
  simp [World.content, same.present, same.handle, same.inode_of (before.handle path) rfl]

theorem samePath_store (differ : file.path ≠ path) : SamePath path world (world.store file bytes) := by
  refine ⟨rfl, rfl, ?_⟩
  intro num
  have apart : (⟨path, num⟩ : Handle) ≠ file := by
    rintro rfl
    exact differ rfl
  simp [apart]

theorem samePath_create (differ : target ≠ path) : SamePath path world (world.create target) := by
  have apart : path ≠ target := Ne.symm differ
  refine ⟨by simp [create, apart], by simp [create, apart], ?_⟩
  simp [create, apart]

theorem samePath_unlink (differ : target ≠ path) : SamePath path world (world.unlink target) :=
  ⟨by simp [unlink, Ne.symm differ], rfl, fun _ => rfl⟩

theorem samePath_setLock (kind : LockKind) :
    SamePath path world (world.setLock proc region kind).1 := by
  obtain ⟨present, generation, inode⟩ := world.setLock_files proc region kind
  exact ⟨by rw [present], by rw [generation], fun _ => by rw [inode]⟩

end World

def Call.Spares (path : Path) : Call → Prop
  | .createOrOpenWrite target => target ≠ path
  | .delete target => target ≠ path
  | .writeAt file _ _ => file.path ≠ path
  | .truncate file _ => file.path ≠ path
  | _ => True

instance (path : Path) : (call : Call) → Decidable (call.Spares path)
  | .createOrOpenWrite target => inferInstanceAs (Decidable (target ≠ path))
  | .delete target => inferInstanceAs (Decidable (target ≠ path))
  | .writeAt file _ _ => inferInstanceAs (Decidable (file.path ≠ path))
  | .truncate file _ => inferInstanceAs (Decidable (file.path ≠ path))
  | .exists _ | .openRead _ | .openWrite _ | .size _ | .readAt _ _ _ => isTrue trivial
  | .sync _ | .setLock _ _ | .probeLock _ | .randomNonce => isTrue trivial

def Call.ReadOnly : Call → Prop
  | .exists _ | .openRead _ | .openWrite _ | .size _ | .readAt _ _ _ => True
  | .setLock _ _ | .probeLock _ | .randomNonce => True
  | _ => False

theorem Call.ReadOnly.spares {call : Call} (readOnly : call.ReadOnly) (path : Path) :
    call.Spares path := by
  cases call with
  | createOrOpenWrite | delete | writeAt | truncate => exact readOnly.elim
  | _ => trivial

theorem unixAnswer_spares (proc : Nat) (path : Path) (world : World) (call : Call)
    (spares : call.Spares path) : World.SamePath path world (unixAnswer proc world call).1 := by
  cases call with
  | createOrOpenWrite target =>
    simp only [unixAnswer]
    split
    · exact .refl path world
    · exact world.samePath_create path target spares
  | delete target => exact world.samePath_unlink path target spares
  | writeAt file off data | truncate file length => exact world.samePath_store file _ path spares
  | setLock region kind => exact world.samePath_setLock path proc region kind
  | randomNonce => exact ⟨rfl, rfl, fun _ => rfl⟩
  | «exists» | openRead | openWrite | size | readAt | sync | probeLock => exact .refl path world

/-- The handle of an open names its path; nothing else is asked of an answer. -/
def Call.Plausible : (call : Call) → Except VfsError call.Reply → Prop
  | .openRead path, .ok file => file.path = path
  | .openWrite path, .ok file => file.path = path
  | .createOrOpenWrite path, .ok file => file.path = path
  | _, _ => True

theorem openExistingFile_path (world : World) (path : Path) (file : Handle)
    (opened : openExistingFile world path = .ok file) : file.path = path := by
  simp only [openExistingFile] at opened
  split at opened
  · cases opened
    rfl
  · cases opened

theorem unixAnswer_possible (proc : Nat) (world : World) (call : Call) :
    call.Plausible (unixAnswer proc world call).2 := by
  cases call with
  | openRead path | openWrite path =>
    cases opened : openExistingFile world path with
    | error error => simp only [unixAnswer, opened, Call.Plausible]
    | ok file =>
      simp only [unixAnswer, opened]
      exact openExistingFile_path world path file opened
  | createOrOpenWrite path =>
    by_cases present : world.present path = true
    · simp [unixAnswer, present, Call.Plausible, World.handle_path]
    · simp [unixAnswer, present, Bool.false_eq_true, Call.Plausible, World.handle_path]
  | _ => trivial

/-- An action all of whose calls are allowed, whoever answers them. -/
abbrev Makes {State Error Result : Type} (allowed : Call → Prop) (action : Vfs State Error Result) :
    Prop :=
  Action.Only (I := VfsCalls) allowed Call.Plausible action

abbrev SparesPath {State Error Result : Type} (path : Path) (action : Vfs State Error Result) :
    Prop :=
  Makes (Call.Spares path) action

namespace Makes

variable {State Error Next : Type} {allowed : Call → Prop} {next : Handle → Vfs State Error Next}

theorem ask (wrap : VfsError → Error) (call : Call) (here : allowed call) :
    Makes allowed (SqliteRs.ask wrap call : Vfs State Error call.Reply) :=
  Only.request (I := VfsCalls) wrap call here

theorem openWrite_bind {wrap : VfsError → Error} {target : Path}
    (here : allowed (.openWrite target))
    (rest : ∀ file, file.path = target → Makes allowed (next file)) :
    Makes allowed (Vfs.openWrite wrap target >>= next) :=
  Only.request_bind (I := VfsCalls) here rest

theorem createOrOpenWrite_bind {wrap : VfsError → Error} {target : Path}
    (here : allowed (.createOrOpenWrite target))
    (rest : ∀ file, file.path = target → Makes allowed (next file)) :
    Makes allowed (Vfs.createOrOpenWrite wrap target >>= next) :=
  Only.request_bind (I := VfsCalls) here rest

theorem spares {Result : Type} {act : Vfs State Error Result}
    (reads : Makes Call.ReadOnly act) {path : Path} : SparesPath path act :=
  Only.mono reads fun _ readOnly => readOnly.spares path

end Makes

variable {State Error Result : Type} {act : Vfs State Error Result} {proc : Nat}
  {world final : World} {state last : State} {res : Except Error Result}

theorem Makes.keeps {allowed : Call → Prop} (makes : Makes allowed act) {inv : World → Prop}
    (kept : ∀ world call, allowed call → inv world → inv (unixAnswer proc world call).1)
    (ran : act.exec (unixVfs proc) state world = ⟨final, last, res⟩)
    (holds : inv world) : inv final := by
  have always : Always (unixVfs proc).toSystem
      (fun before call => inv before ∧ allowed call) (fun before _ _ => inv before) act state
      world := by
    apply Only.always makes
    · rintro before call answered reply taken
      have possible := unixAnswer_possible proc before call
      rw [show unixAnswer proc before call = (answered, reply) from taken] at possible
      exact possible
    · rintro before call answered reply here still taken
      have next := kept before call here still
      rw [show unixAnswer proc before call = (answered, reply) from taken] at next
      exact next
    · exact holds
  have ended := always.exec
  rw [ran] at ended
  exact ended

theorem SparesPath.after {path : Path} (spares : SparesPath path act)
    (ran : act.exec (unixVfs proc) state world = ⟨final, last, res⟩) :
    World.SamePath path world final :=
  Makes.keeps spares (fun before call spared same =>
    World.SamePath.trans same (unixAnswer_spares proc path before call spared)) ran
    (.refl path world)

/-- An action that takes and drops locks leaves every file as it is. -/
def SparesFiles {State Error Result : Type} (action : Vfs State Error Result) : Prop :=
  ∀ path, SparesPath path action

theorem SparesFiles.after (spares : SparesFiles act)
    (ran : act.exec (unixVfs proc) state world = ⟨final, last, res⟩) (path : Path) :
    World.SamePath path world final :=
  SparesPath.after (spares path) ran

end SqliteRs
