import SqliteRs.JournalFlush

/-!
Recovery of a hot journal on a machine that may crash again. An open writes the saved
pages back, truncates, syncs and deletes the journal; a crash on the way leaves
files from which the next open restores the same database.
-/

namespace SqliteRs

open SqliteRs.Action Call

open ByteFile WalIndex

structure Beside (wal : Option Bytes) (machine : Machine) : Prop where
  walContent : machine.world.content .wal = wal
  walDisk : ∀ image, machine.disk .wal image → image = wal
  shm : ShmUsable (machine.world.content .shm)
  shmDisk : ∀ image, machine.disk .shm image → ShmUsable image

/-- Calls that leave the `-wal` file alone and the index usable. -/
def AwayFromWal (call : Call) : Prop := call.Spares .wal ∧ (call.Spares .shm ∨ IndexCall call)

theorem awayFromWal_of_readOnly {call : Call} (readOnly : call.ReadOnly) : AwayFromWal call :=
  ⟨readOnly.spares .wal, Or.inl (readOnly.spares .shm)⟩

structure Surroundings (proc : Nat) (wal : Option Bytes) (machine : Machine) : Prop
    extends Beside wal machine where
  alone : machine.world.Alone proc

namespace Beside

variable {wal : Option Bytes} {machine : Machine}

theorem tornShm {before after : Bytes} {off : Nat} {data : Bytes}
    (usable : ShmUsable (some before)) (inside : off + data.length ≤ minShmLen)
    (torn : TornWrite before off data after) : ShmUsable (some after) := by
  have grows := torn.grows
  have bounded := torn.bounded
  rw [ShmUsable] at usable ⊢
  omega

theorem step (beside : Beside wal machine) (proc : Nat) (call : Call)
    (away : AwayFromWal call) : Beside wal (crashAnswer proc machine call).1 := by
  rcases away with ⟨walSpared, shmSpared⟩
  have walSame := unixAnswer_spares proc .wal machine.world call walSpared
  have shmPart : ShmUsable ((crashAnswer proc machine call).1.world.content .shm) ∧
      ∀ image, (crashAnswer proc machine call).1.disk .shm image → ShmUsable image := by
    by_cases spared : call.Spares .shm
    · have shmSame := unixAnswer_spares proc .shm machine.world call spared
      constructor
      · have usable := beside.shm
        rw [← shmSame.content] at usable
        exact usable
      · intro image left
        exact beside.shmDisk image (imagesAfter_spares _ _ _ call spared image left)
    · have index := shmSpared.resolve_left spared
      cases call with
      | writeAt file off data =>
        refine ⟨indexCall_usable proc _ _ index beside.shm, ?_⟩
        rintro image (left | ⟨_, before, after, left, rfl, torn⟩)
        · exact beside.shmDisk image left
        · exact tornShm (beside.shmDisk _ left) index.2 torn
      | createOrOpenWrite | delete | truncate => exact index.elim
      | _ => exact absurd trivial spared
  exact
    { walContent := walSame.content.trans beside.walContent
      walDisk := fun image left =>
        beside.walDisk image (imagesAfter_spares _ _ _ call walSpared image left)
      shm := shmPart.1
      shmDisk := shmPart.2 }

end Beside

theorem Surroundings.step {proc : Nat} {wal : Option Bytes} {machine : Machine}
    (around : Surroundings proc wal machine) (call : Call) (away : AwayFromWal call) :
    Surroundings proc wal (crashAnswer proc machine call).1 :=
  { toBeside := around.toBeside.step proc call away
    alone := around.alone.answer call }

section Replay

variable {proc : Nat} {source : Handle} {pageSize : UInt32} {orig : Bytes}
  {saved : List UInt32} {machine : Machine}

/-- The main file is a given one, durably, and there is no journal. -/
structure Intact (source : Handle) (orig : Bytes) (machine : Machine) : Prop where
  handle : machine.world.handle .main = source
  main : machine.world.content .main = some orig
  disk : ∀ image, machine.disk .main image → image = some orig
  journal : machine.world.content .journal = none
  journalDisk : ∀ image, machine.disk .journal image → image = none

theorem Committed.intact (phase : Committed source .full saved orig machine)
    (edits : saved ≠ []) : Intact source orig machine :=
  { handle := phase.handle
    main := phase.main
    disk := phase.disk rfl
    journal := (phase.journal edits).1
    journalDisk := (phase.journal edits).2 }

theorem Intact.step (intact : Intact source orig machine) (proc : Nat) (call : Call)
    (main : call.Spares .main) (journal : call.Spares .journal) :
    Intact source orig (crashAnswer proc machine call).1 := by
  have mainSame := unixAnswer_spares proc .main machine.world call main
  have journalSame := unixAnswer_spares proc .journal machine.world call journal
  exact
    { handle := mainSame.handle.trans intact.handle
      main := mainSame.content.trans intact.main
      disk := fun image left =>
        intact.disk image (imagesAfter_spares _ _ _ call main image left)
      journal := journalSame.content.trans intact.journal
      journalDisk := fun image left =>
        intact.journalDisk image (imagesAfter_spares _ _ _ call journal image left) }

/-- Where recovery stands: writing back what was saved, or done with it. -/
inductive RecoveryPhase (source : Handle) (pageSize : UInt32) (orig : Bytes)
    (saved : List UInt32) (machine : Machine) : Prop
  | replaying (phase : Writing source pageSize .full orig saved machine)
  | restored (phase : Intact source orig machine)

def RecoveryStep (source : Handle) (pageSize : UInt32) (orig : Bytes) (saved : List UInt32)
    (machine : Machine) (call : Call) : Prop :=
  RecoveryPhase source pageSize orig saved machine ∧ AwayFromWal call

theorem replayRecords_phases (bytes : Bytes) (hdr : JournalHeader)
    (size : hdr.pageSize = pageSize) (remaining index : Nat) (machine : Machine) (file : Bytes)
    (phase : Writing source pageSize .full orig saved machine)
    (found : machine.world.content .main = some file)
    (known : ∀ record ∈ acceptedRecords bytes hdr remaining index,
      record.1 ∈ saved ∧ record.2.length = pageSize.toNat) : Always (crashVfs proc).toSystem
      (RecoveryStep source pageSize orig saved) (fun after _ res => res = .ok () ∧
        Writing source pageSize .full orig saved after ∧
        after.world.content .main = some (writePages pageSize file
          (acceptedRecords bytes hdr remaining index)))
      (replayRecords bytes hdr source remaining index) () machine := by
  subst size
  induction remaining generalizing index machine file with
  | zero => exact ⟨rfl, phase, found⟩
  | succ remaining ih =>
    rw [replayRecords]
    rw [acceptedRecords] at known ⊢
    cases accepted : validRecordAt bytes hdr index with
    | none => exact ⟨rfl, phase, found⟩
    | some record =>
      rcases record with ⟨pageNum, pageData⟩
      rw [accepted] at known
      rcases known (pageNum, pageData) List.mem_cons_self with ⟨mem, sized⟩
      have away : AwayFromWal
          (.writeAt source (pageOffset hdr.pageSize pageNum) pageData) := by
        simp [AwayFromWal, Spares, phase.onMain]
      rw [always_bind, always_writeAt]
      refine ⟨⟨.replaying phase, away⟩, ?_⟩
      have written := phase.write proc (pageOffset hdr.pageSize pageNum) pageData
        fun index _ low high => Or.inl ⟨pageNum, mem, low, by rw [← sized]; exact high⟩
      have content := content_crash_write proc machine .main source file found phase.handle
        (pageOffset hdr.pageSize pageNum) pageData
      exact ih (index + 1) _ _ content written fun other later => known other (.tail _ later)

theorem recoverHotJournal_phases (phase : Writing source pageSize .full orig saved machine)
    (whole : (headerCount orig).toNat * pageSize.toNat = orig.length) (edits : saved ≠ []) :
    Always (crashVfs proc).toSystem (RecoveryStep source pageSize orig saved)
      (fun after _ res => res = .ok () ∧ Intact source orig after)
      (recoverHotJournal source) () machine := by
  rcases phase.journal with none | ⟨bytes, found, saves, _⟩
  · exact absurd none edits
  -- Up to the replay only reads happen, and these keep the phase.
  have quiet : ∀ (machine : Machine) (call : Call),
      Writing source pageSize .full orig saved machine → call.ReadOnly →
      Writing source pageSize .full orig saved (crashAnswer proc machine call).1 := by
    intro before call still readOnly
    apply still.step proc call (readOnly.spares .main) (readOnly.spares .journal)
    rintro file _ rfl
    exact readOnly
  rcases (machine.world.content_eq_some_iff bytes .journal).mp found with ⟨present, inode⟩
  rw [recoverHotJournal, always_bind, always_openRead, openExistingFile, if_pos present]
  refine ⟨⟨.replaying phase, awayFromWal_of_readOnly trivial⟩, ?_⟩
  have opened := quiet machine (.openRead .journal) phase trivial
  simp only [Except.mapError, Continue]
  rw [always_bind, always_size]
  refine ⟨⟨.replaying opened, awayFromWal_of_readOnly trivial⟩, ?_⟩
  have measured := quiet _ (.size (machine.world.handle .journal)) opened trivial
  simp only [Continue]
  rw [always_bind, always_readAt]
  refine ⟨⟨.replaying measured, awayFromWal_of_readOnly trivial⟩, ?_⟩
  have loaded := quiet _ (.readAt (machine.world.handle .journal) 0
    (machine.world.inode (machine.world.handle .journal)).length) measured trivial
  rcases saves with ⟨hot, inside, hdr, parsed, size, count, records⟩
  have read : readAt (machine.world.inode (machine.world.handle .journal)) 0
      (machine.world.inode (machine.world.handle .journal)).length = bytes := by
    rw [readAt_zero_length, inode]
  rcases loaded.main with ⟨file, onDisk, agrees⟩
  have known : ∀ record ∈ acceptedRecords bytes hdr hdr.nRec.toNat 0,
      record.1 ∈ saved ∧ record.2.length = pageSize.toNat := by
    intro record accepted
    have mem : record ∈ savedPages pageSize orig saved := records ▸ accepted
    refine ⟨?_, savedPages_sized inside record mem⟩
    rcases List.mem_map.mp mem with ⟨pageNum, isSaved, rfl⟩
    exact isSaved
  have openedWorld : (crashAnswer proc machine (.openRead .journal)).1.world = machine.world :=
    rfl
  have measuredWorld : (crashAnswer proc (crashAnswer proc machine (.openRead .journal)).1
      (.size (machine.world.handle .journal))).1.world = machine.world := rfl
  simp only [Continue, openedWorld, measuredWorld, read]
  rw [always_bind, always_free, recover, always_bind, always_check, parsed]
  simp only [Continue]
  rw [always_bind]
  apply Always.mono (replayRecords_phases bytes hdr size hdr.nRec.toNat 0 _ file
    loaded onDisk known)
  rintro replayed ⟨⟩ res ⟨rfl, written, content⟩
  have restored : recoveredMain bytes hdr file = orig :=
    recoveredMain_restores ⟨hot, inside, hdr, parsed, size, count, records⟩ parsed whole agrees
  simp only [Continue, always_pure, Except.mapError]
  rw [size, count, whole, always_bind, always_truncate]
  have away : ∀ call : Call, call.Spares .wal → call.Spares .shm → AwayFromWal call :=
    fun _ wal shm => ⟨wal, Or.inl shm⟩
  refine ⟨⟨.replaying written, away _ ?_ ?_⟩, ?_⟩
  · simp [Spares, written.onMain]
  · simp [Spares, written.onMain]
  -- The journal goes only once the restored file is synced: a crash before that replays again.
  have cut := written.truncate proc
  have cutContent := content_crash_truncate proc replayed .main source _ content written.handle
    orig.length
  rw [recoveredMain, journalRecords, size, count, whole] at restored
  rw [restored] at cutContent
  simp only [Continue]
  rw [always_bind, always_sync]
  refine ⟨⟨.replaying cut, away _ trivial trivial⟩, ?_⟩
  have synced := cut.sync proc
  simp only [Continue]
  rw [always_delete]
  refine ⟨⟨.replaying synced, away _ (by simp [Spares]) (by simp [Spares])⟩, rfl, ?_⟩
  refine (synced.delete proc cutContent ?_ edits).intact edits
  rintro _ image ⟨_, durable⟩
  rw [durable cut.handle.symm]
  exact cutContent

end Replay

section Opening

variable {proc : Nat} {source : Handle} {pageSize : UInt32} {orig : Bytes}
  {saved : List UInt32} {wal : Option Bytes}

def Restored (proc : Nat) (source : Handle) (orig : Bytes) (wal : Option Bytes)
    (machine : Machine) : Prop :=
  Intact source orig machine ∧ Surroundings proc wal machine

/-- The saved pages are being written back, and the process is alone. -/
def Replaying (proc : Nat) (source : Handle) (pageSize : UInt32) (orig : Bytes)
    (saved : List UInt32) (wal : Option Bytes) (machine : Machine) : Prop :=
  Writing source pageSize .full orig saved machine ∧ Surroundings proc wal machine

def OpenPhase (proc : Nat) (source : Handle) (pageSize : UInt32) (orig : Bytes)
    (saved : List UInt32) (wal : Option Bytes) (machine : Machine) : Prop :=
  RecoveryPhase source pageSize orig saved machine ∧ Surroundings proc wal machine

theorem restored_kept (machine : Machine) (call : Call) (index : IndexCall call)
    (holds : Restored proc source orig wal machine) :
    Restored proc source orig wal (crashAnswer proc machine call).1 :=
  ⟨holds.1.step proc call (index.spares (by decide)) (index.spares (by decide)),
    holds.2.step call ⟨index.spares (by decide), Or.inr index⟩⟩

theorem replaying_kept (machine : Machine) (call : Call) (index : IndexCall call)
    (holds : Replaying proc source pageSize orig saved wal machine) :
    Replaying proc source pageSize orig saved wal (crashAnswer proc machine call).1 := by
  constructor
  · apply holds.1.step proc call (index.spares (by decide)) (index.spares (by decide))
    rintro file _ rfl
    exact index
  · exact holds.2.step call ⟨index.spares (by decide), Or.inr index⟩

theorem openPhase_of_restored {machine : Machine}
    (holds : Restored proc source orig wal machine) :
    OpenPhase proc source pageSize orig saved wal machine :=
  ⟨.restored holds.1, holds.2⟩

theorem openPhase_of_replaying {machine : Machine}
    (holds : Replaying proc source pageSize orig saved wal machine) :
    OpenPhase proc source pageSize orig saved wal machine :=
  ⟨.replaying holds.1, holds.2⟩

theorem recoverIfHot_phases
    (whole : (headerCount orig).toNat * pageSize.toNat = orig.length) (edits : saved ≠ [])
    (level : LockLevel) (machine : Machine)
    (holds : Replaying proc source pageSize orig saved wal machine) :
    Always (crashVfs proc).toSystem
      (fun machine _ => OpenPhase proc source pageSize orig saved wal machine)
      (fun after _ res => res = .ok () ∧ Restored proc source orig wal after)
      (Pager.recoverIfHot true source) level machine := by
  rw [Pager.recoverIfHot, if_pos rfl, always_bind, always_probeLock]
  refine ⟨openPhase_of_replaying holds, ?_⟩
  have probed := replaying_kept machine (.probeLock .reserved) trivial holds
  simp only [holds.2.alone.conflicts, Continue, Bool.false_eq_true, if_false]
  have raised := setLevel_granted (fun _ here => here.2.alone) replaying_kept .exclusive level _
    probed
  rw [always_bind, always_zoom]
  apply (raised.weaken fun _ _ allowed => openPhase_of_replaying allowed.1).mono
  rintro locked raisedLevel res ⟨still, done, rfl⟩
  simp only [Continue]
  rw [always_bind, always_free]
  have surrounded : ∀ before call after reply,
      RecoveryStep source pageSize orig saved before call → Surroundings proc wal before →
      (crashVfs proc).toSystem.step before call after reply →
      Surroundings proc wal after := by
    intro before call after reply allowed around taken
    have answered : crashAnswer proc before call = (after, reply) := taken
    have next := around.step call allowed.2
    rw [answered] at next
    exact next
  have replayed := (recoverHotJournal_phases still.1 whole edits).carry surrounded still.2
  apply (replayed.weaken fun _ _ allowed => ⟨allowed.1.1, allowed.2⟩).mono
  rintro restored ⟨⟩ res ⟨⟨rfl, intact⟩, around⟩
  simp only [Continue]
  have lowered := setLevel_granted (fun _ here => here.2.alone) restored_kept .shared raisedLevel
    restored (⟨intact, around⟩ : Restored proc source orig wal restored)
  rw [always_zoom]
  apply (lowered.weaken fun _ _ allowed => openPhase_of_restored allowed.1).mono
  rintro after last res ⟨ended, done, rfl⟩
  exact ⟨rfl, ended⟩

variable (overlay : ∃ pages, walOverlay pageSize wal = .ok pages)
  (page1 : pageSize.toNat ≤ orig.length)
include overlay page1

theorem finishOpen_restored : Succeeds (crashVfs proc).toSystem
      (Quietly (Restored proc source orig wal)) (Restored proc source orig wal)
      (Pager.finishOpen pageSize source) := by
  apply finishOpen_granted (fun _ holds => holds.2.alone) restored_kept (fun _ holds => holds.2.shm)
  · intro machine holds
    rw [holds.2.walContent]
    exact overlay
  · intro machine holds
    rw [← holds.1.handle, mainPage_eq_filePage _ _ _ orig holds.1.main]
    exact filePage_one pageSize orig page1

theorem openLocked_phases (edits : saved ≠ []) (hot : Bool)
    (whole : hot = true → (headerCount orig).toNat * pageSize.toNat = orig.length)
    (level : LockLevel) (machine : Machine)
    (holds : if hot then Replaying proc source pageSize orig saved wal machine
      else Restored proc source orig wal machine) :
    Always (crashVfs proc).toSystem
      (fun machine _ => OpenPhase proc source pageSize orig saved wal machine)
      (fun after _ res => (∃ pager, res = .ok pager) ∧ Restored proc source orig wal after)
      (Pager.openLocked pageSize hot source) level machine := by
  have rest : ∀ level machine, Restored proc source orig wal machine →
      Always (crashVfs proc).toSystem
        (fun machine _ => OpenPhase proc source pageSize orig saved wal machine)
        (fun after _ res => (∃ pager, res = .ok pager) ∧ Restored proc source orig wal after)
        (Pager.finishOpen pageSize source) level machine := by
    intro level machine restored
    apply ((finishOpen_restored overlay page1 level machine restored).weaken
      fun _ _ allowed => openPhase_of_restored allowed.1).mono
    rintro after last res ⟨still, ended⟩
    exact ⟨ended, still⟩
  rw [Pager.openLocked, always_bind, always_zoom]
  cases hot with
  | true =>
    have locked := setLevel_granted (fun _ here => here.2.alone) replaying_kept .shared level
      machine holds
    apply (locked.weaken fun _ _ allowed => openPhase_of_replaying allowed.1).mono
    rintro shared level res ⟨still, done, rfl⟩
    simp only [Continue]
    rw [always_bind]
    apply Always.mono (recoverIfHot_phases (whole rfl) edits level shared still)
    rintro recovered level res ⟨rfl, restored⟩
    exact rest level recovered restored
  | false =>
    have locked := setLevel_granted (fun _ here => here.2.alone) restored_kept .shared level
      machine holds
    apply (locked.weaken fun _ _ allowed => openPhase_of_restored allowed.1).mono
    rintro shared level res ⟨still, done, rfl⟩
    exact rest level shared still

theorem openPager_phases
    (whole : (headerCount orig).toNat * pageSize.toNat = orig.length) (edits : saved ≠ [])
    (hot : Bool) (machine : Machine)
    (isHot : hotJournal machine.world = hot)
    (holds : if hot then Replaying proc source pageSize orig saved wal machine
      else Restored proc source orig wal machine) :
    Always (crashVfs proc).toSystem
      (fun machine _ => OpenPhase proc source pageSize orig saved wal machine)
      (fun after _ res => (∃ pager, res = .ok pager) ∧ Restored proc source orig wal after)
      (Pager.openPager pageSize) () machine := by
  -- What holds at the start is an invariant of the calls that only look.
  let start (machine : Machine) : Prop :=
    if hot then Replaying proc source pageSize orig saved wal machine
    else Restored proc source orig wal machine
  have kept : ∀ machine call, IndexCall call → start machine →
      start (crashAnswer proc machine call).1 := by
    cases hot with
    | true => exact replaying_kept
    | false => exact restored_kept
  have phase : ∀ machine, start machine →
      OpenPhase proc source pageSize orig saved wal machine := by
    cases hot with
    | true => exact fun _ => openPhase_of_replaying
    | false => exact fun _ => openPhase_of_restored
  have located : ∀ machine, start machine →
      machine.world.present .main = true ∧ machine.world.handle .main = source := by
    cases hot with
    | true =>
      rintro machine ⟨writing, _⟩
      rcases writing.main with ⟨file, found, _⟩
      exact ⟨((machine.world.content_eq_some_iff file .main).mp found).1, writing.handle⟩
    | false =>
      rintro machine ⟨intact, _⟩
      exact ⟨((machine.world.content_eq_some_iff orig .main).mp intact.main).1, intact.handle⟩
  rw [Pager.openPager, always_bind]
  apply ((reads_always kept journalIsHot_makes () machine holds).weaken
    fun _ _ allowed => phase _ allowed.1).mono
  rintro looked ⟨⟩ res ⟨still, ran⟩
  rw [exec_journalIsHot, isHot, Outcome.mk.injEq] at ran
  rcases ran with ⟨_, _, rfl⟩
  rcases located looked still with ⟨present, handle⟩
  simp only [Continue]
  rw [always_bind, always_openWrite, openExistingFile, if_pos present, handle]
  refine ⟨phase _ still, ?_⟩
  have opened := kept looked (.openWrite .main) trivial still
  simp only [Except.mapError, Continue]
  rw [always_bind, always_owning, always_attempt]
  apply Always.mono (openLocked_phases overlay page1 edits hot (fun _ => whole) .unlocked _ opened)
  rintro after level res ⟨⟨pager, rfl⟩, restored⟩
  exact ⟨⟨pager, rfl⟩, restored⟩

end Opening

end SqliteRs
