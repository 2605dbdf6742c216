import SqliteRs.LockLadder

/-!
The `-shm` file: the published frame count, the backfill counter, five reader
marks, and the lock bytes of the writer, the checkpointer and the readers. A
slot is occupied when its lock is held; the mark of a free slot means nothing.
A database without a `-shm` file has nothing to coordinate through.
-/

namespace SqliteRs

open World Makes Call

open ByteFile

namespace WalIndex

def mxFrameOffset : Nat := 16

def readMarkBaseOffset : Nat := 100

def readMarkUnused : UInt32 := 0xFFFFFFFF

def minShmLen : Nat := readMarkBaseOffset + 20

def shmRegionSize : Nat := 32 * 1024

def maxShmLen : Nat := shmRegionSize * 8

def readMarkOffset (slot : Nat) : Nat := readMarkBaseOffset + slot * 4

def readerSlots : List Nat := [1, 2, 3, 4]

def freshShmBytes : Bytes :=
  zeros readMarkBaseOffset ++ (List.replicate 5 (le32Bytes readMarkUnused)).flatten ++
    zeros (shmRegionSize - minShmLen)

variable {State : Type}

def openShmShared : Vfs State VfsError Handle := Vfs.openWrite id .shm

def validateShmLen (file : Handle) : Vfs State VfsError Unit := do
  let len ← Vfs.size id file
  if len < minShmLen then Action.throw (.io .shm)
  else if maxShmLen < len then Action.throw (.io .shm)
  else pure ()

def readU32At (file : Handle) (offset : Nat) : Vfs State VfsError UInt32 := do
  let buf ← Vfs.readAt id file offset 4
  if buf.length = 4 then pure (le32 buf) else Action.throw (.io .shm)

def writeU32At (file : Handle) (offset : Nat) (value : UInt32) : Vfs State VfsError Unit :=
  Vfs.writeAt id file offset (le32Bytes value)

def mxFrame (file : Handle) : Vfs State VfsError UInt32 := readU32At file mxFrameOffset

def setReadMark (file : Handle) (slot : Nat) (value : UInt32) : Vfs State VfsError Unit :=
  writeU32At file (readMarkOffset slot) value

/-- Claims the first free slot and publishes the current frame count as its mark. -/
def claimSlots (file : Handle) : List Nat → Vfs State VfsError Nat
  | [] => Action.throw (.locked .shm)
  | slot :: rest => do
      match ← Action.attempt (Vfs.setLock id (.walRead slot) .write) with
      | .ok () =>
        let frame ← mxFrame file
        setReadMark file slot frame
        Vfs.setLock id (.walRead slot) .read
        pure slot
      | .error (.locked _) => claimSlots file rest
      | .error error => Action.throw error

def claimWalReadLock : Vfs State VfsError (Option Nat) := do
  match ← Action.attempt openShmShared with
  | .ok file =>
    validateShmLen file
    let slot ← claimSlots file readerSlots
    pure (some slot)
  | .error (.notFound _) => pure none
  | .error error => Action.throw error

/-- The lock guards of the writer and the checkpointer: claimed only if the file exists. -/
def claimShmLock (region : Region) : Vfs State VfsError (Option Region) := do
  if ← Vfs.fileExists id .shm then
    let file ← openShmShared
    validateShmLen file
    Vfs.setLock id region .write
    pure (some region)
  else pure none

def claimWalWriteLock : Vfs State VfsError (Option Region) := claimShmLock .walWrite

def dropGuard : Option Region → Vfs State VfsError Unit
  | none => pure ()
  | some region => do
      let _ ← Action.attempt (Vfs.setLock id region .unlock : Vfs State VfsError Unit)
      pure ()

def publishWalMxFrame (frame : UInt32) : Vfs State VfsError Unit := do
  if ← Vfs.fileExists id .shm then
    let file ← openShmShared
    writeU32At file mxFrameOffset frame
  else pure ()

def openWalShm : Vfs State VfsError (Option Handle) := do
  if ← Vfs.fileExists id .shm then
    let file ← openShmShared
    validateShmLen file
    pure (some file)
  else pure none

def claimWriteLock : Vfs State VfsError Unit := Vfs.setLock id .walWrite .write

def publishMxFrame (shm : Handle) (frame : UInt32) : Vfs State VfsError Unit :=
  writeU32At shm mxFrameOffset frame

end WalIndex

namespace WalIndex

/-- The calls of the index functions: of all files they write only the index, inside its fixed
part. -/
def IndexCall : Call → Prop
  | .writeAt file offset data => file.path = .shm ∧ offset + data.length ≤ minShmLen
  | call => call.ReadOnly

theorem indexCall_of_readOnly (call : Call) (readOnly : call.ReadOnly) : IndexCall call := by
  cases call with
  | writeAt file off data => exact readOnly.elim
  | _ => exact readOnly

theorem IndexCall.spares {path : Path} (differ : Path.shm ≠ path) (call : Call)
    (index : IndexCall call) : call.Spares path := by
  cases call with
  | writeAt file off data =>
    rw [Spares, index.1]
    exact differ
  | createOrOpenWrite | delete | truncate => exact index.elim
  | _ => trivial

section Calls

variable {State : Type} {allowed : Call → Prop}

theorem setLock_makes (region : Region) (kind : LockKind) :
    Makes ReadOnly (Vfs.setLock id region kind : Vfs State VfsError Unit) :=
  Makes.ask id (.setLock region kind) trivial

theorem validateShmLen_makes (file : Handle) :
    Makes ReadOnly (validateShmLen file : Vfs State VfsError Unit) := by
  refine Action.Only.bind (Makes.ask id (.size file) trivial) ?_
  intro len
  split
  · exact Action.Only.throw _
  split
  · exact Action.Only.throw _
  · exact Action.Only.pure _

theorem readU32At_makes (file : Handle) (off : Nat) :
    Makes ReadOnly (readU32At file off : Vfs State VfsError UInt32) := by
  refine Action.Only.bind (Makes.ask id (.readAt file off 4) trivial) ?_
  intro buf
  split
  · exact Action.Only.pure _
  · exact Action.Only.throw _

theorem writeU32At_makes (file : Handle) (off : Nat) (value : UInt32)
    (onShm : file.path = .shm) (inside : off + 4 ≤ minShmLen) :
    Makes IndexCall (writeU32At file off value : Vfs State VfsError Unit) :=
  Makes.ask id (.writeAt file off (le32Bytes value)) ⟨onShm, inside⟩

theorem writeU32At_spares {path : Path} (file : Handle) (off : Nat) (value : UInt32)
    (differ : file.path ≠ path) :
    SparesPath path (writeU32At file off value : Vfs State VfsError Unit) :=
  Makes.ask id (.writeAt file off (le32Bytes value)) differ

theorem readMark_inside (slot : Nat) (few : slot ≤ 4) : readMarkOffset slot + 4 ≤ minShmLen := by
  simp only [readMarkOffset, minShmLen]
  omega

theorem claimSlots_makes (file : Handle) (onShm : file.path = .shm) (slots : List Nat)
    (few : ∀ slot ∈ slots, slot ≤ 4) :
    Makes IndexCall (claimSlots file slots : Vfs State VfsError Nat) := by
  induction slots with
  | nil => exact Action.Only.throw _
  | cons slot rest ih =>
    have lock : ∀ kind, Makes IndexCall
        (Vfs.setLock id (.walRead slot) kind : Vfs State VfsError Unit) :=
      fun kind => Action.Only.mono (setLock_makes _ kind) indexCall_of_readOnly
    refine Action.Only.bind (Action.Only.attempt (lock .write)) ?_
    intro claimed
    split
    · refine Action.Only.bind
        (Action.Only.mono (readU32At_makes file _) indexCall_of_readOnly) fun frame => ?_
      refine Action.Only.bind (writeU32At_makes file _ frame onShm
        (readMark_inside slot (few slot List.mem_cons_self))) fun _ => ?_
      exact Action.Only.bind (lock .read) fun _ => Action.Only.pure _
    · exact ih fun other mem => few other (.tail _ mem)
    · exact Action.Only.throw _

theorem claimWalReadLock_makes :
    Makes IndexCall (claimWalReadLock : Vfs State VfsError (Option Nat)) := by
  refine Action.Only.attempt_request_bind (I := VfsCalls) trivial ?_ ?_
  · intro file onShm
    refine Action.Only.bind
      (Action.Only.mono (validateShmLen_makes file) indexCall_of_readOnly) fun _ => ?_
    exact Action.Only.bind (claimSlots_makes file onShm readerSlots (by decide))
      fun _ => Action.Only.pure _
  · intro error
    cases error with
    | notFound missing => exact Action.Only.pure _
    | locked | io => exact Action.Only.throw _

theorem ifExists_makes {Result : Type} {found : Handle → Vfs State VfsError Result}
    {missing : Vfs State VfsError Result} (looks : allowed (.exists .shm))
    (opens : allowed (.openWrite .shm))
    (whenFound : ∀ file, file.path = .shm → Makes allowed (found file))
    (whenMissing : Makes allowed missing) :
    Makes allowed (do
      if ← Vfs.fileExists id .shm then
        let file ← openShmShared
        found file
      else missing) := by
  refine Action.Only.bind (Makes.ask id (.exists .shm) looks) ?_
  intro there
  split
  · exact openWrite_bind opens whenFound
  · exact whenMissing

theorem claimShmLock_makes (region : Region) :
    Makes ReadOnly (claimShmLock region : Vfs State VfsError (Option Region)) := by
  refine ifExists_makes trivial trivial (fun file _ => ?_) (Action.Only.pure _)
  refine Action.Only.bind (validateShmLen_makes file) fun _ => ?_
  exact Action.Only.bind (setLock_makes _ _) fun _ => Action.Only.pure _

theorem dropGuard_makes (held : Option Region) :
    Makes ReadOnly (dropGuard held : Vfs State VfsError Unit) := by
  cases held with
  | none => exact Action.Only.pure _
  | some region =>
    exact Action.Only.bind (Action.Only.attempt (setLock_makes _ _)) fun _ => Action.Only.pure _

theorem publishWalMxFrame_makes (frame : UInt32) :
    Makes IndexCall (publishWalMxFrame frame : Vfs State VfsError Unit) :=
  ifExists_makes trivial trivial
    (fun file onShm => writeU32At_makes file _ _ onShm (by decide)) (Action.Only.pure _)

theorem openWalShm_makes : Makes ReadOnly (openWalShm : Vfs State VfsError (Option Handle)) := by
  refine ifExists_makes trivial trivial (fun file _ => ?_) (Action.Only.pure _)
  exact Action.Only.bind (validateShmLen_makes file) fun _ => Action.Only.pure _

theorem makes_spares {Error Result : Type} {act : Vfs State Error Result}
    (makes : Makes IndexCall act) {path : Path} (differ : Path.shm ≠ path) : SparesPath path act :=
  Action.Only.mono makes fun call index => IndexCall.spares differ call index

end Calls

theorem openWalShm_path {State : Type} (proc : Nat) (world after : World) (state last : State)
    (found : Option Handle)
    (ran : (openWalShm : Vfs State VfsError (Option Handle)).exec (unixVfs proc) state world =
      ⟨after, last, .ok found⟩) : ∀ shm ∈ found, shm.path = .shm := by
  simp only [openWalShm, Action.exec_bind, exec_fileExists] at ran
  split at ran
  · rename_i present
    simp only [openShmShared, Action.exec_bind, exec_openWrite, openExistingFile, present, if_true,
      Except.mapError] at ran
    split at ran
    · cases ran
      intro shm mem
      cases mem
      rfl
    · cases ran
  · cases ran
    simp

def ShmUsable : Option Bytes → Prop
  | none => True
  | some bytes => minShmLen ≤ bytes.length ∧ bytes.length ≤ maxShmLen

theorem shmUsable_write (bytes : Bytes) (off : Nat) (data : Bytes)
    (usable : ShmUsable (some bytes)) (inside : off + data.length ≤ minShmLen) :
    ShmUsable (some (writeAt bytes off data)) := by
  by_cases none : data = []
  · rw [none]
    exact usable
  have length := length_writeAt bytes off data none
  rw [ShmUsable] at usable ⊢
  omega

theorem indexCall_usable (proc : Nat) (world : World) (call : Call) (index : IndexCall call)
    (usable : ShmUsable (world.content .shm)) :
    ShmUsable ((unixAnswer proc world call).1.content .shm) := by
  by_cases spared : call.Spares .shm
  · rw [(unixAnswer_spares proc .shm world call spared).content]
    exact usable
  cases call with
  | writeAt file off data =>
    rw [unixAnswer]
    by_cases present : world.present .shm = true
    · by_cases same : file = world.handle .shm
      · rw [same, content_store_same _ _ _ present]
        rw [world.content_of_present .shm present] at usable
        exact shmUsable_write _ _ _ usable index.2
      have still : (world.store file (writeAt (world.inode file) off data)).content .shm =
          world.content .shm := by
        simp [World.content, present_store, handle_store, inode_store, Ne.symm same]
      rw [still]
      exact usable
    · have absent : (world.store file (writeAt (world.inode file) off data)).content .shm =
          none := by
        simp [World.content, present]
      rw [absent]
      trivial
  | createOrOpenWrite | delete | truncate => exact index.elim
  | _ => exact absurd trivial spared

theorem claimWalReadLock_usable {State : Type} (proc : Nat) (world after : World)
    (state last : State) (slot : Option Nat)
    (ran : (claimWalReadLock : Vfs State VfsError (Option Nat)).exec (unixVfs proc) state world =
      ⟨after, last, .ok slot⟩) : ShmUsable (after.content .shm) := by
  simp only [claimWalReadLock, Action.exec_bind, Action.exec_attempt, openShmShared, exec_openWrite,
    openExistingFile] at ran
  by_cases present : world.present .shm = true
  · simp only [present, if_true, Except.mapError] at ran
    rw [Action.exec_bind_ok] at ran
    rcases ran with ⟨checked, kept, _, valid, ran⟩
    simp only [validateShmLen, Action.exec_bind, exec_size] at valid
    split at valid
    · cases valid
    rename_i long
    split at valid
    · cases valid
    rename_i short
    cases valid
    rw [Action.exec_bind_ok] at ran
    rcases ran with ⟨claimed, keptToo, taken, claim, ran⟩
    cases ran
    apply keeps (claimSlots_makes _ rfl readerSlots (by decide))
      (fun before call => indexCall_usable proc before call) claim
    rw [world.content_of_present .shm present]
    exact ⟨Nat.not_lt.mp long, Nat.not_lt.mp short⟩
  · simp only [present] at ran
    cases ran
    rw [(content_eq_none_iff _ _).mpr (Bool.not_eq_true _ ▸ present)]
    trivial

end WalIndex

end SqliteRs
