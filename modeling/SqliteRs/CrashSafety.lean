import SqliteRs.JournalRecovery
import SqliteRs.WalDurability

/-!
Crash safety of a rollback-journal commit. A transaction is opened, edited and
flushed on a machine that crashes at any call. From every crash after the journal
was synced, through any number of crashed recoveries, the next open restores the
database as it was; after the journal is deleted a crash leaves the new one. An
earlier crash leaves some sectors of the journal. Recovery trusts the record count of
the header and a checksum that samples one byte in 200, so the main file then survives
exactly if every record still accepted repeats the page it is written to.
-/

namespace SqliteRs

open Pager Machine

open OrderedMap

open Option

open ByteFile WalIndex

def openAndEdit (writer : Nat) (pageSize : UInt32) (level : SynchronousMode)
    (transaction : Transaction) (start : World) : Option (World × Pager) :=
  match (Pager.openPager pageSize).exec (unixVfs writer) () start with
  | ⟨opened, _, .ok pager⟩ =>
    let edited := (Pager.perform transaction).exec (unixVfs writer) (pager.setSynchronous level)
      opened
    some (edited.world, edited.state)
  | ⟨_, _, .error _⟩ => none

def flushCrash (writer : Nat) (pager : Pager) (world : World) (calls : Nat) : Machine :=
  (Program.cut (crashVfs writer) calls (Pager.flush pager) (Machine.boot world)).2

def openCrash (reader : Nat) (pageSize : UInt32) (world : World) (calls : Nat) : Machine :=
  (Program.cut (crashVfs reader) calls (Pager.openPager pageSize ()) (Machine.boot world)).2

inductive RecoveryCrashes (pageSize : UInt32) (first : World) : World → Prop
  | none : RecoveryCrashes pageSize first first
  | again {world left : World} (before : RecoveryCrashes pageSize first world)
      (reader calls : Nat) (crashed : (openCrash reader pageSize world calls).Crash left) :
      RecoveryCrashes pageSize first left

def Pager.reads (proc : Nat) (pager : Pager) (world : World) (pageNum : UInt32) :
    Except PageError Bytes :=
  ((Pager.readPage pageNum).exec (unixVfs proc) pager world).result

section Restorable

variable {world : World}

structure Restorable (pageSize : UInt32) (orig : Bytes) (saved : List UInt32)
    (wal : Option Bytes) (world : World) : Prop where
  unlocked : world.locks = []
  walContent : world.content .wal = wal
  shm : ShmUsable (world.content .shm)
  files : (∃ journalBytes file, world.content .journal = some journalBytes ∧
      JournalSaves pageSize orig saved journalBytes ∧ world.content .main = some file ∧
      AgreesOutside (Covered pageSize orig saved) orig file) ∨
    (world.content .main = some orig ∧ world.content .journal = none)

variable {pageSize : UInt32} {orig : Bytes} {saved : List UInt32} {wal : Option Bytes}

theorem Restorable.surroundings
    (restorable : Restorable pageSize orig saved wal world) (proc : Nat) :
    Surroundings proc wal (Machine.boot world) :=
  { alone := fun held mem => by simp [boot, restorable.unlocked] at mem
    walContent := restorable.walContent
    walDisk := fun image left => left.trans restorable.walContent
    shm := restorable.shm
    shmDisk := fun image left => by rw [left]; exact restorable.shm }

theorem RecoveryPhase.restorable {src : Handle} {machine : Machine} {left : World}
    (phase : RecoveryPhase src pageSize orig saved machine) (beside : Beside wal machine)
    (edits : saved ≠ []) (crashed : machine.Crash left) : Restorable pageSize orig saved wal left := by
  refine ⟨crashed.unlocked, beside.walDisk _ (crashed.left .wal),
    beside.shmDisk _ (crashed.left .shm), ?_⟩
  rcases phase with writing | intact
  · rcases writing.journal with none | ⟨bytes, _, saves, durable⟩
    · exact absurd none edits
    rcases writing.disk _ (crashed.left .main) with ⟨file, main, agrees⟩
    exact Or.inl ⟨bytes, file, durable (by decide) _ (crashed.left .journal), saves, main, agrees⟩
  · exact Or.inr ⟨intact.disk _ (crashed.left .main), intact.journalDisk _ (crashed.left .journal)⟩

variable (overlay : ∃ pages, walOverlay pageSize wal = .ok pages)
  (page1 : pageSize.toNat ≤ orig.length)
  (whole : (headerCount orig).toNat * pageSize.toNat = orig.length) (edits : saved ≠ [])
include overlay page1 whole edits

theorem Restorable.open_phases
    (restorable : Restorable pageSize orig saved wal world) (proc : Nat) :
    Action.Always (crashVfs proc).toSystem (fun machine _ =>
        OpenPhase proc (world.handle .main) pageSize orig saved wal machine)
      (fun after _ res => (∃ pager, res = .ok pager) ∧
        Restored proc (world.handle .main) orig wal after)
      (Pager.openPager pageSize) () (Machine.boot world) := by
  have around := restorable.surroundings proc
  rcases restorable.files with ⟨bytes, file, journal, saves, main, agrees⟩ | ⟨main, journal⟩
  · apply openPager_phases overlay page1 whole edits true
    · simp only [hotJournal, boot, journal]
      exact saves.hot
    refine ⟨⟨rfl, Or.inr ⟨bytes, journal, saves, ?_⟩, ⟨file, main, agrees⟩, ?_, ?_, ?_⟩, around⟩
    · exact fun _ image left => left.trans journal
    · exact fun image left => ⟨file, left.trans main, agrees⟩
    · exact fun none => absurd none edits
    · simp [Deleted, boot]
  · apply openPager_phases overlay page1 whole edits false
    · simp [hotJournal, boot, journal]
    · exact ⟨⟨rfl, main, fun image left => left.trans main, journal,
        fun image left => left.trans journal⟩, around⟩

theorem Restorable.crash {world left : World}
    (restorable : Restorable pageSize orig saved wal world) (reader calls : Nat)
    (crashed : (openCrash reader pageSize world calls).Crash left) :
    Restorable pageSize orig saved wal left := by
  have always := restorable.open_phases overlay page1 whole edits reader
  have ended := Program.Always.mono always fun _ _ ends =>
    (openPhase_of_restored ends.2 : OpenPhase reader (world.handle .main) pageSize orig saved wal _)
  have phase := ended.invariant (Program.runs_cut _ calls _ _)
  exact phase.1.restorable phase.2.toBeside edits crashed

theorem Restorable.crashes {first left : World} (restorable : Restorable pageSize orig saved wal first)
    (crashes : RecoveryCrashes pageSize first left) : Restorable pageSize orig saved wal left := by
  induction crashes with
  | none => exact restorable
  | again before reader calls crashed ih =>
    exact ih.crash overlay page1 whole edits reader calls crashed

theorem Restorable.reopen (restorable : Restorable pageSize orig saved wal world) (reader : Nat) :
    ∃ after fresh, (Pager.openPager pageSize).exec (unixVfs reader) () world =
        ⟨after, (), .ok fresh⟩ ∧ after.content .main = some orig ∧ after.content .journal = none ∧
      after.content .wal = wal := by
  have always := restorable.open_phases overlay page1 whole edits reader
  have ended := always.exec
  generalize ran : (openPager pageSize).exec (crashVfs reader) () (boot world) = outcome at ended
  rcases outcome with ⟨after, ⟨⟩, res⟩
  rcases ended with ⟨⟨fresh, rfl⟩, intact, around⟩
  exact ⟨after.world, fresh, exec_crashVfs reader _ () _ _ _ _ ran, intact.main, intact.journal,
    around.walContent⟩

end Restorable

section Flush

variable {writer : Nat} {pageSize : UInt32} {level : SynchronousMode} {transaction : Transaction}
  {start world : World} {pager : Pager} {orig : Bytes}

theorem openAndEdit_some
    (prepared : openAndEdit writer pageSize level transaction start = some (world, pager)) :
    pager.Current world ∧ pager.pageSize = pageSize ∧ pager.synchronous = level ∧
      ShmUsable (world.content .shm) ∧
      ∀ orig, world.content .main = some orig → pageSize.toNat ≤ orig.length := by
  simp only [openAndEdit] at prepared
  generalize openRun : (openPager pageSize).exec (unixVfs writer) () start = opening
    at prepared
  rcases opening with ⟨opened, ⟨⟩, error | fresh⟩
  · cases prepared
  have isOpen := openPager_ok writer start opened pageSize fresh openRun
  have begun := isOpen.current.withSynchronous level
  rcases perform_quiet transaction writer opened (fresh.setSynchronous level) begun.sound
    with ⟨edited, outcome, performed, base, sound⟩
  simp only [performed] at prepared
  rcases prepared with ⟨rfl, rfl⟩
  refine ⟨begun.edited base sound, ?_, ?_, isOpen.shm, ?_⟩
  · rw [base]
    exact isOpen.size
  · rw [base]
    rfl
  intro orig main
  rcases isOpen.mode with ⟨page1, read, _⟩
  rw [isOpen.source, mainPage_eq_filePage _ _ _ orig main, filePage_eq_ok_iff] at read
  rcases read with ⟨_, rfl, sized⟩
  rw [length_readAt] at sized
  omega

theorem flushCall_awayFromWal {src : Handle} (onMain : src.path = .main) (call : Call)
    (allowed : FlushCall src call ∨ LockCall call) : AwayFromWal call := by
  cases call with
  | readAt | randomNonce | setLock => exact awayFromWal_of_readOnly trivial
  | sync file => exact ⟨trivial, Or.inl trivial⟩
  | createOrOpenWrite path | delete path =>
    obtain rfl : path = .journal := allowed.resolve_right fun lock => lock
    simp [AwayFromWal, Call.Spares]
  | writeAt file off data =>
    rcases (allowed.resolve_right fun lock => lock : file = src ∨ file.path = .journal)
      with rfl | onJournal
    · simp [AwayFromWal, Call.Spares, onMain]
    · simp [AwayFromWal, Call.Spares, onJournal]
  | _ => exact (allowed.elim id id).elim

variable (writer) in
theorem flushCrash_phase (current : pager.Current world) (usable : ShmUsable (world.content .shm))
    (legacy : pager.journalMode = .legacy) (main : world.content .main = some orig) (calls : Nat) :
    pager.Flushing orig (world.content .journal) (flushCrash writer pager world calls) ∧
      Beside (world.content .wal) (flushCrash writer pager world calls) := by
  have begun : pager.Journals orig (world.content .journal) (boot world) :=
    { handle := current.source.symm
      main := main
      journal := .untouched
      disk := fun image left => left.trans main
      unsynced := by simp [Synced, boot]
      kept := by simp [Deleted, boot] }
  have beside : Beside (world.content .wal) (boot world) :=
    { walContent := rfl
      walDisk := fun _ left => left
      shm := usable
      shmDisk := fun image left => by rw [left]; exact usable }
  have flushed := flush_phases writer pager (boot world) begun rfl legacy
    current.dirty_sized
  have kept : ∀ machine call after reply, pager.FlushStep orig (world.content .journal) machine call →
      Beside (world.content .wal) machine →
      (crashVfs writer).toSystem.step machine call after reply →
      Beside (world.content .wal) after := by
    intro machine call after reply allowed still taken
    have answered : crashAnswer writer machine call = (after, reply) := taken
    have next := still.step writer call (flushCall_awayFromWal current.onMain call allowed.2)
    rw [answered] at next
    exact next
  have carried := (flushed.carry kept beside).weaken fun _ _ allowed =>
    And.intro allowed.1.1 allowed.2
  have reached := Program.Always.invariant carried
    (Program.runs_cut (crashVfs writer) calls (flush pager) (boot world))
  exact reached

end Flush

section Reading

variable {pageSize : UInt32} {world before after : World} {pager fresh : Pager}
  {orig : Bytes}

theorem Opened.reads_eq {file : Bytes} (opened : Opened pageSize before after fresh)
    (main : after.content .main = some file) (reader : Nat) (pageNum : UInt32) :
    fresh.reads reader after pageNum =
      (fresh.walPages.get pageNum).elim (filePage file pageSize pageNum) .ok := by
  rcases exec_readPage reader after fresh opened.sound pageNum with ⟨cache, read, _⟩
  rw [reads, read]
  simp [view_eq, opened.dirty, get_empty, elim_none, below_eq, opened.source, opened.size,
    mainPage_eq_filePage after pageSize pageNum file main]

theorem Opened.overlay_eq (opened : Opened pageSize before after fresh)
    (current : pager.Current world) (size : pager.pageSize = pageSize)
    (same : after.content .wal = world.content .wal) : fresh.walPages = pager.walPages := by
  have left := opened.overlay
  have right := current.overlay
  rw [size] at right
  rw [same, right] at left
  exact (Except.ok.inj left).symm

theorem Pager.Current.below_eq_filePage (current : pager.Current world)
    (main : world.content .main = some orig) (pageNum : UInt32) : pager.below world pageNum =
      (pager.walPages.get pageNum).elim (filePage orig pager.pageSize pageNum) .ok := by
  rw [below_eq, current.source, mainPage_eq_filePage world _ _ orig main]

theorem Pager.Current.committed_page (current : pager.Current world)
    (main : world.content .main = some orig)
    (nonzero : ∀ entry ∈ pager.dirty.entries, entry.1 ≠ 0) (pageNum : UInt32) (page : Bytes)
    (uncovered : pager.walPages.get pageNum = none) (viewed : pager.view world pageNum = .ok page) :
    filePage (pager.committedMain orig) pager.pageSize pageNum = .ok page := by
  have fits : ∀ entry ∈ pager.dirty.entries, entry.1 ≠ 0 ∧ entry.2.length = pager.pageSize.toNat :=
    fun entry mem => ⟨nonzero entry mem, current.dirty_sized entry mem⟩
  rw [filePage_eq_ok_iff, committedMain]
  rw [view_eq] at viewed
  cases edited : pager.dirty.get pageNum with
  | some stored =>
    have mem := (get_eq_some_iff pager.dirty pageNum stored).mp edited
    rw [edited] at viewed
    cases viewed
    rcases fits (pageNum, page) mem with ⟨some, sized⟩
    rw [← last_write_entries] at edited
    exact ⟨some, readAt_writePages pager.pageSize pageNum some fits page edited orig, sized⟩
  | none =>
    rw [edited, elim_none, current.below_eq_filePage main, uncovered, elim_none,
      filePage_eq_ok_iff] at viewed
    rcases viewed with ⟨some, read, sized⟩
    rw [← last_write_entries] at edited
    refine ⟨some, ?_, sized⟩
    by_cases empty : pager.pageSize.toNat = 0
    · rw [empty] at sized ⊢
      rw [List.length_eq_zero_iff.mp sized, readAt]
      simp
    rw [readAt_writePages_other pager.pageSize pageNum some fits edited orig ?_]
    · exact read
    · rw [← read, length_readAt] at sized
      omega

end Reading

section Claim

variable (writer : Nat) (pageSize : UInt32) (transaction : Transaction) (start world : World)
  (pager : Pager) (orig : Bytes) (calls : Nat) (left : World)

/-- A crash at any call of a flush in full mode, on a database whose file length is its page count
times its page size. After the journal was synced and before it is deleted, any number of crashed
recoveries later, an open succeeds and gives back every page and the length of the file; after the
journal was deleted the files are the new ones. -/
theorem flush_survives_crashes
    (prepared : openAndEdit writer pageSize .full transaction start = some (world, pager))
    (legacy : pager.journalMode = .legacy) (main : world.content .main = some orig)
    (whole : (headerCount orig).toNat * pageSize.toNat = orig.length)
    (crashed : (flushCrash writer pager world calls).Crash left) :
    ((flushCrash writer pager world calls).Synced →
      ¬ (flushCrash writer pager world calls).Deleted →
      ∀ last, RecoveryCrashes pageSize left last → ∀ reader, ∃ after fresh,
        (Pager.openPager pageSize).exec (unixVfs reader) () last = ⟨after, (), .ok fresh⟩ ∧
        after.content .main = some orig ∧ after.content .journal = none ∧
        ∀ pageNum, fresh.reads reader after pageNum = pager.below world pageNum) ∧
    ((flushCrash writer pager world calls).Deleted →
      left.content .main = some (pager.committedMain orig) ∧ left.content .journal = none ∧
      ∀ reader, ∃ after fresh,
        (Pager.openPager pageSize).exec (unixVfs reader) () left = ⟨after, (), .ok fresh⟩ ∧
        after.content .main = some (pager.committedMain orig) ∧
        ∀ pageNum page, pager.walPages.get pageNum = none → pager.view world pageNum = .ok page →
          fresh.reads reader after pageNum = .ok page) := by
  rcases openAndEdit_some prepared with ⟨current, rfl, full, usable, long⟩
  have page1 := long orig main
  rcases flushCrash_phase writer current usable legacy main calls with ⟨phase, beside⟩
  have overlay : ∃ pages, walOverlay pager.pageSize (world.content .wal) = .ok pages :=
    ⟨pager.walPages, current.overlay⟩
  rw [Pager.Flushing, full] at phase
  constructor
  · intro synced kept last crashes reader
    -- Of the phases only the writing of saved pages has a synced and undeleted journal.
    have replayable : RecoveryPhase pager.source pager.pageSize orig (pager.toJournal orig)
        (flushCrash writer pager world calls) ∧ pager.toJournal orig ≠ [] := by
      rcases phase with journaling | writing | committed
      · exact absurd synced journaling.unsynced
      · exact ⟨.replaying writing, fun none => writing.unsynced none synced⟩
      by_cases none : pager.toJournal orig = []
      · exact absurd synced (committed.unsynced none)
      · exact absurd (committed.deleted.mpr none) kept
    rcases replayable with ⟨recovery, edits⟩
    have first := recovery.restorable beside edits crashed
    have restorable := first.crashes overlay page1 whole edits crashes
    rcases restorable.reopen overlay page1 whole edits reader with
      ⟨after, fresh, ran, mainAfter, journalAfter, walAfter⟩
    have opened := openPager_ok reader last after pager.pageSize fresh ran
    refine ⟨after, fresh, ran, mainAfter, journalAfter, fun pageNum => ?_⟩
    rw [opened.reads_eq mainAfter, opened.overlay_eq current rfl walAfter,
      current.below_eq_filePage main]
  · intro deleted
    rcases phase with journaling | writing | committed
    · exact absurd deleted journaling.kept
    · exact absurd deleted writing.kept
    have edits := committed.deleted.mp deleted
    have intact := committed.intact edits
    have newMain := intact.disk _ (crashed.left .main)
    have noJournal := intact.journalDisk _ (crashed.left .journal)
    have grown : pager.pageSize.toNat ≤ (pager.committedMain orig).length :=
      Nat.le_trans page1 (le_length_writePages _ _ _)
    have unlocked : ∀ reader, left.Alone reader := by
      intro reader held member
      simp [crashed.unlocked] at member
    have walLeft := beside.walDisk _ (crashed.left .wal)
    have shmLeft := beside.shmDisk _ (crashed.left .shm)
    refine ⟨newMain, noJournal, fun reader => ?_⟩
    rcases openPager_alone reader left (unlocked reader) shmLeft (walLeft ▸ overlay) newMain
      (by rw [noJournal]; rfl) grown with ⟨after, fresh, ran⟩
    have opened := openPager_ok reader left after pager.pageSize fresh ran
    have walAfter := opened.sameWal.content.trans walLeft
    rcases opened.main _ newMain with ⟨recovered, unchanged, mainAfter⟩
    rw [noJournal] at unchanged
    cases unchanged
    refine ⟨after, fresh, ran, mainAfter, fun pageNum page uncovered viewed => ?_⟩
    rw [opened.reads_eq mainAfter, opened.overlay_eq current rfl walAfter, uncovered]
    exact current.committed_page main (entries_nonzero pager committed.nonzero) pageNum page
      uncovered viewed

end Claim

section Example

def rollbackPage1 (fill : UInt8) : Bytes :=
  List.replicate 18 0 ++ ([1, 1] ++ (List.replicate 11 0 ++ (1 :: List.replicate 480 fill)))

def rollbackDatabase : World :=
  { present := fun path => path = .main
    generation := fun _ => 0
    inode := fun file => if file.path = .main then rollbackPage1 0 else []
    locks := []
    nonces := fun _ => 7 }

def journalSync : Call → Bool
  | .sync file => file.path = .journal
  | _ => false

/-- A crash with the new page already in the main file, undone by the next open. -/
theorem written_page_is_restored :
    ∃ world pager left,
      openAndEdit 1 512 .full fillPage1 rollbackDatabase = some (world, pager) ∧
      (flushCrash 1 pager world 11).Crash left ∧ left.content .main = some (rollbackPage1 7) ∧
      ∃ after fresh,
        (Pager.openPager 512).exec (unixVfs 2) () left = ⟨after, (), .ok fresh⟩ ∧
        after.content .main = some (rollbackPage1 0) ∧ after.content .journal = none ∧
        ∀ pageNum, fresh.reads 2 after pageNum = pager.below world pageNum := by
  have evaluated : (openAndEdit 1 512 .full fillPage1 rollbackDatabase).map (fun ready =>
      (ready.2.journalMode, ready.1.content .main,
        (flushCrash 1 ready.2 ready.1 11).history.any journalSync,
        decide (Call.delete .journal ∈ (flushCrash 1 ready.2 ready.1 11).history),
        (flushCrash 1 ready.2 ready.1 11).world.content .main)) =
      some (.legacy, some (rollbackPage1 0), true, false, some (rollbackPage1 7)) := by
    decide +kernel
  have whole : (headerCount (rollbackPage1 0)).toNat * (512 : UInt32).toNat =
      (rollbackPage1 0).length := by decide +kernel
  rcases Option.map_eq_some_iff.mp evaluated with ⟨⟨world, pager⟩, prepared, facts⟩
  simp only [Prod.mk.injEq, List.any_eq_true, decide_eq_false_iff_not] at facts
  rcases facts with ⟨legacy, main, ⟨call, made, isSync⟩, kept, written⟩
  have synced : (flushCrash 1 pager world 11).Synced := by
    cases call with
    | sync file => exact ⟨file, of_decide_eq_true isSync, made⟩
    | _ => cases isSync
  have crashed := (faithful_cut 1 11 (flush pager) world).crash
  have survives := flush_survives_crashes 1 512 fillPage1 rollbackDatabase world pager
    (rollbackPage1 0) 11 _ prepared legacy main whole crashed
  exact ⟨world, pager, _, prepared, crashed, written, survives.1 synced kept _ .none 2⟩

end Example

open List

/-- A file of which only some 512-byte sectors reached the disk; the others read as zeros. -/
def keepFrom (kept : Nat → Bool) : Nat → Bytes → Bytes
  | _, [] => []
  | index, byte :: rest => (if kept (index / 512) then byte else 0) :: keepFrom kept (index + 1) rest

def keepSectors (kept : Nat → Bool) (bytes : Bytes) : Bytes := keepFrom kept 0 bytes

/-- A world left by a crash in which only some sectors of the journal reached the disk. -/
structure HalfWritten (machine : Machine) (kept : Nat → Bool) (left : World) : Prop where
  unlocked : left.locks = []
  journal : left.content .journal = (machine.world.content .journal).map (keepSectors kept)
  others : ∀ path, path ≠ .journal → left.content path = machine.world.content path

def halfWrittenWorld (machine : Machine) (kept : Nat → Bool) : World :=
  { machine.world with
    locks := []
    inode := fun file =>
      if file.path = .journal then keepSectors kept (machine.world.inode file)
      else machine.world.inode file }

theorem halfWritten_world (machine : Machine) (kept : Nat → Bool) :
    HalfWritten machine kept (halfWrittenWorld machine kept) := by
  constructor
  · rfl
  · simp only [World.content, halfWrittenWorld, World.handle]
    split <;> rfl
  · intro path other
    simp [World.content, halfWrittenWorld, World.handle, if_neg other]

section Replay

/-- Where recovery writes each record; page number zero goes to page 1. -/
def recordTargets (records : List (UInt32 × Bytes)) : List (UInt32 × Bytes) :=
  records.map fun record => (if record.1 = 0 then 1 else record.1, record.2)

/-- Replaying the journal rewrites no page with anything but its content. -/
def JournalHarmless (journal : Option Bytes) (main : Bytes) : Prop :=
  ∀ journalBytes, journal = some journalBytes → hotBytes journalBytes = true →
    ∃ header, JournalHeader.parse journalBytes = .ok header ∧
      header.initialPageCount.toNat * header.pageSize.toNat = main.length ∧
      ∀ pageNum page,
        OrderedMap.lastWrite pageNum (recordTargets (journalRecords journalBytes header)) =
          some page →
        pageNum.toNat ≤ header.initialPageCount.toNat →
        filePage main header.pageSize pageNum = .ok page

theorem validRecordAt_sized (journalBytes : Bytes) (header : JournalHeader) (index : Nat)
    (record : UInt32 × Bytes) (valid : validRecordAt journalBytes header index = some record) :
    record.2.length = header.pageSize.toNat := by
  simp only [validRecordAt] at valid
  split at valid
  · cases valid
  rename_i long
  split at valid
  · cases valid
  cases valid
  apply length_readAt_of_le
  simp only [recordLen] at long ⊢
  omega

theorem acceptedRecords_sized (journalBytes : Bytes) (header : JournalHeader)
    (remaining index : Nat) : ∀ record ∈ acceptedRecords journalBytes header remaining index,
      record.2.length = header.pageSize.toNat := by
  induction remaining generalizing index with
  | zero => intro record mem; cases mem
  | succ remaining ih =>
    intro record mem
    rw [acceptedRecords] at mem
    cases valid : validRecordAt journalBytes header index with
    | none =>
      rw [valid] at mem
      cases mem
    | some first =>
      rw [valid] at mem
      rcases mem_cons.mp mem with rfl | later
      · exact validRecordAt_sized journalBytes header index record valid
      · exact ih (index + 1) record later

theorem writePages_recordTargets (pageSize : UInt32) (records : List (UInt32 × Bytes)) (file : Bytes) :
    writePages pageSize file (recordTargets records) = writePages pageSize file records := by
  induction records generalizing file with
  | nil => rfl
  | cons record rest ih =>
    have sameOffset : pageOffset pageSize (if record.1 = 0 then 1 else record.1) =
        pageOffset pageSize record.1 := by
      by_cases zero : record.1 = 0
      · simp [zero, pageOffset]
      · simp [zero]
    rw [recordTargets, map_cons, ← recordTargets, writePages, foldl_cons, ← writePages, sameOffset, ih]
    rfl

theorem recordTargets_fit (pageSize : UInt32) (records : List (UInt32 × Bytes))
    (sized : ∀ record ∈ records, record.2.length = pageSize.toNat) :
    ∀ target ∈ recordTargets records, target.1 ≠ 0 ∧ target.2.length = pageSize.toNat := by
  intro target mem
  rcases mem_map.mp mem with ⟨record, isRecord, rfl⟩
  refine ⟨?_, sized record isRecord⟩
  by_cases zero : record.1 = 0
  · simp [zero]
  · simp [zero]

theorem pageOffset_le (pageSize pageNum count : UInt32) (nonzero : pageNum ≠ 0)
    (bounded : pageNum.toNat ≤ count.toNat) :
    pageOffset pageSize pageNum + pageSize.toNat ≤ count.toNat * pageSize.toNat := by
  have positive : pageNum.toNat ≠ 0 := fun zero => nonzero (UInt32.toNat_inj.mp zero)
  calc pageOffset pageSize pageNum + pageSize.toNat
      = (pageNum.toNat - 1 + 1) * pageSize.toNat := by rw [pageOffset, Nat.add_mul, Nat.one_mul]
    _ ≤ count.toNat * pageSize.toNat := Nat.mul_le_mul_right _ (by omega)

theorem page_of_index {pageSize count : UInt32} {index : Nat}
    (inside : index < count.toNat * pageSize.toNat) :
    ∃ pageNum : UInt32, pageNum ≠ 0 ∧ pageNum.toNat ≤ count.toNat ∧
      pageOffset pageSize pageNum ≤ index ∧ index < pageOffset pageSize pageNum + pageSize.toNat ∧
      pageOffset pageSize pageNum + pageSize.toNat ≤ count.toNat * pageSize.toNat := by
  have positive : 0 < pageSize.toNat := Nat.pos_of_mul_pos_left (Nat.zero_lt_of_lt inside)
  have before : index / pageSize.toNat < count.toNat := Nat.div_lt_of_lt_mul (by rwa [Nat.mul_comm])
  have small := count.toNat_lt
  have num : (UInt32.ofNat (index / pageSize.toNat + 1)).toNat = index / pageSize.toNat + 1 :=
    UInt32.toNat_ofNat_of_lt (by rw [UInt32.size]; omega)
  have off : pageOffset pageSize (UInt32.ofNat (index / pageSize.toNat + 1)) =
      index / pageSize.toNat * pageSize.toNat := by
    rw [pageOffset, num, Nat.add_sub_cancel]
  have split := Nat.div_add_mod index pageSize.toNat
  have rest := Nat.mod_lt index positive
  have fits := Nat.mul_le_mul_right pageSize.toNat before
  rw [Nat.succ_mul] at fits
  rw [Nat.mul_comm] at split
  refine ⟨UInt32.ofNat (index / pageSize.toNat + 1), ?_, by omega, by omega, by omega, by omega⟩
  intro zero
  rw [zero] at num
  simp at num

variable (journalBytes : Bytes) (hdr : JournalHeader) (main : Bytes)

theorem recoveredMain_eq_iff : recoveredMain journalBytes hdr main = main ↔
      hdr.initialPageCount.toNat * hdr.pageSize.toNat = main.length ∧ ∀ pageNum page,
        OrderedMap.lastWrite pageNum (recordTargets (journalRecords journalBytes hdr)) = some page →
        pageNum.toNat ≤ hdr.initialPageCount.toNat → filePage main hdr.pageSize pageNum = .ok page := by
  have fits := recordTargets_fit hdr.pageSize (journalRecords journalBytes hdr)
    (acceptedRecords_sized journalBytes hdr hdr.nRec.toNat 0)
  rw [recoveredMain, ← writePages_recordTargets]
  have long := le_length_writePages hdr.pageSize
    (recordTargets (journalRecords journalBytes hdr)) main
  constructor
  · intro same
    have length : hdr.initialPageCount.toNat * hdr.pageSize.toNat = main.length := by
      rw [← congrArg List.length same, length_truncate]
    refine ⟨length, fun pageNum page written bounded => ?_⟩
    have mem := OrderedMap.mem_of_last_write pageNum page _ written
    rcases fits _ mem with ⟨nonzero, sized⟩
    have read := readAt_writePages hdr.pageSize pageNum nonzero fits page written main
    rw [filePage_eq_ok_iff]
    refine ⟨nonzero, ?_, sized⟩
    have inside := pageOffset_le hdr.pageSize pageNum hdr.initialPageCount nonzero bounded
    rw [length] at inside
    rw [← read, ← readAt_truncate _ main.length _ _ inside long, ← length, same]
  · rintro ⟨length, repeats⟩
    apply ext_getElem?
    intro index
    rw [getElem?_truncate]
    by_cases inside : index < hdr.initialPageCount.toNat * hdr.pageSize.toNat
    swap
    · rw [if_neg inside, List.getElem?_eq_none (by omega)]
    rcases page_of_index inside with ⟨pageNum, nonzero, bounded, low, high, whole⟩
    rw [if_pos inside, if_pos (by omega)]
    apply getElem?_eq_of_readAt _ low high
    cases written : OrderedMap.lastWrite pageNum
        (recordTargets (journalRecords journalBytes hdr)) with
    | none =>
      exact readAt_writePages_other hdr.pageSize pageNum nonzero fits written main (length ▸ whole)
    | some page =>
      have kept := (filePage_eq_ok_iff main _ _ _).mp (repeats pageNum page written bounded)
      rw [readAt_writePages hdr.pageSize pageNum nonzero fits page written main, kept.2.1]

theorem openedMain_eq_iff (journal : Option Bytes) :
    openedMain journal main = .ok main ↔ JournalHarmless journal main := by
  cases journal with
  | none => simp [openedMain, JournalHarmless]
  | some journalBytes =>
    by_cases hot : hotBytes journalBytes = true
    · simp only [openedMain, JournalHarmless, Option.some.injEq, forall_eq', hot, forall_const]
      cases parsed : JournalHeader.parse journalBytes with
      | error error => simp [Except.map]
      | ok hdr =>
        simp only [Except.map, Except.ok.injEq, exists_eq_left', if_true]
        exact recoveredMain_eq_iff journalBytes hdr main
    · simp [openedMain, JournalHarmless, hot]

end Replay

section Claim

variable (writer : Nat) (pageSize : UInt32) (level : SynchronousMode) (transaction : Transaction)
  (start world : World) (pager : Pager) (orig : Bytes) (calls : Nat) (kept : Nat → Bool)
  (left : World) (reader : Nat)

/-- A crash at any call of a flush that has not written to the main file, with any sectors of the
journal lost. The next open gives back every page and the length of the file exactly if the journal
it finds does no harm. -/
theorem half_written_journal_restores_iff
    (prepared : openAndEdit writer pageSize level transaction start = some (world, pager))
    (legacy : pager.journalMode = .legacy) (main : world.content .main = some orig)
    (untouched : ∀ call ∈ (flushCrash writer pager world calls).history, call.Spares .main)
    (crashed : HalfWritten (flushCrash writer pager world calls) kept left) :
    (∃ after fresh,
      (Pager.openPager pageSize).exec (unixVfs reader) () left = ⟨after, (), .ok fresh⟩ ∧
      after.content .main = some orig ∧
      ∀ pageNum, fresh.reads reader after pageNum = pager.below world pageNum) ↔
    JournalHarmless (left.content .journal) orig := by
  rcases openAndEdit_some prepared with ⟨current, rfl, _, usable, long⟩
  rcases flushCrash_phase writer current usable legacy main calls with ⟨_, beside⟩
  have walLeft := (crashed.others .wal (by decide)).trans beside.walContent
  have mainLeft : left.content .main = some orig := by
    rw [crashed.others .main (by decide), flushCrash,
      Machine.content_cut_spared writer calls _ world .main untouched, main]
  rw [← openedMain_eq_iff]
  constructor
  · rintro ⟨after, fresh, ran, restored, _⟩
    have opened := openPager_ok reader left after pager.pageSize fresh ran
    rcases opened.main orig mainLeft with ⟨recovered, replayed, mainAfter⟩
    rw [restored] at mainAfter
    rw [replayed, Option.some.inj mainAfter]
  intro harmless
  have alone : left.Alone reader := by
    intro held member
    simp [crashed.unlocked] at member
  have shmLeft : ShmUsable (left.content .shm) := by
    rw [crashed.others .shm (by decide)]
    exact beside.shm
  have overlay : ∃ pages, walOverlay pager.pageSize (left.content .wal) = .ok pages :=
    ⟨pager.walPages, by rw [walLeft, current.overlay]⟩
  rcases openPager_alone reader left alone shmLeft overlay mainLeft harmless
    (long orig main) with ⟨after, fresh, ran⟩
  have opened := openPager_ok reader left after pager.pageSize fresh ran
  rcases opened.main orig mainLeft with ⟨recovered, replayed, mainAfter⟩
  rw [harmless] at replayed
  cases replayed
  refine ⟨after, fresh, ran, mainAfter, fun pageNum => ?_⟩
  rw [opened.reads_eq mainAfter, opened.overlay_eq current rfl
    (opened.sameWal.content.trans walLeft), current.below_eq_filePage main]

/-- The database whose first page is journalled. Of the journal the sector with the page number and
most of the page is lost; both bytes the checksum samples are zero, as in a page of zeros. -/
theorem lost_sector_erases_page1 :
    ∃ world pager left,
      openAndEdit 1 512 .full fillPage1 rollbackDatabase = some (world, pager) ∧
      pager.journalMode = .legacy ∧ world.content .main = some (rollbackPage1 0) ∧
      (∀ call ∈ (flushCrash 1 pager world 9).history, call.Spares .main) ∧
      HalfWritten (flushCrash 1 pager world 9) (fun sector => sector != 1) left ∧
      ∃ after fresh,
        (Pager.openPager 512).exec (unixVfs 2) () left = ⟨after, (), .ok fresh⟩ ∧
        after.content .main = some (zeros 512) ∧ zeros 512 ≠ rollbackPage1 0 := by
  have evaluated : (openAndEdit 1 512 .full fillPage1 rollbackDatabase).map
      (fun ready : World × Pager =>
      (ready.2.journalMode, ready.1.content .main,
        decide (∀ call ∈ (flushCrash 1 ready.2 ready.1 9).history, call.Spares .main),
        ((Pager.openPager 512).exec (unixVfs 2) ()
          (halfWrittenWorld (flushCrash 1 ready.2 ready.1 9) fun sector => sector != 1)).result.isOk,
        ((Pager.openPager 512).exec (unixVfs 2) ()
          (halfWrittenWorld (flushCrash 1 ready.2 ready.1 9)
            fun sector => sector != 1)).world.content .main)) =
      some (.legacy, some (rollbackPage1 0), true, true, some (zeros 512)) := by
    decide +kernel
  rcases Option.map_eq_some_iff.mp evaluated with ⟨⟨world, pager⟩, prepared, facts⟩
  simp only [Prod.mk.injEq, decide_eq_true_iff] at facts
  rcases facts with ⟨legacy, main, untouched, succeeds, erased⟩
  refine ⟨world, pager, _, prepared, legacy, main, untouched, halfWritten_world _ _, ?_⟩
  generalize (Pager.openPager 512).exec (unixVfs 2) () (halfWrittenWorld _ _) = outcome
    at succeeds erased
  rcases outcome with ⟨after, ⟨⟩, error | fresh⟩
  · cases succeeds
  · exact ⟨after, fresh, rfl, erased, by decide +kernel⟩

private theorem ok_of_toOption {Error Value : Type} {res : Except Error Value} {value : Value}
    (found : res.toOption = some value) : res = .ok value := by
  cases res with
  | error error => cases found
  | ok stored => rw [Option.some.inj found]

/-- With every sector on the disk the journal does no harm. -/
theorem whole_journal_restores :
    ∃ world pager left,
      openAndEdit 1 512 .full fillPage1 rollbackDatabase = some (world, pager) ∧
      HalfWritten (flushCrash 1 pager world 9) (fun _ => true) left ∧
      ∃ after fresh,
        (Pager.openPager 512).exec (unixVfs 2) () left = ⟨after, (), .ok fresh⟩ ∧
        after.content .main = some (rollbackPage1 0) ∧
        ∀ pageNum, fresh.reads 2 after pageNum = pager.below world pageNum := by
  have evaluated : (openAndEdit 1 512 .full fillPage1 rollbackDatabase).map
      (fun ready : World × Pager =>
        (ready.2.journalMode, ready.1.content .main,
          decide (∀ call ∈ (flushCrash 1 ready.2 ready.1 9).history, call.Spares .main),
          (openedMain ((halfWrittenWorld (flushCrash 1 ready.2 ready.1 9) fun _ => true).content
            .journal) (rollbackPage1 0)).toOption)) =
      some (.legacy, some (rollbackPage1 0), true, some (rollbackPage1 0)) := by
    decide +kernel
  rcases Option.map_eq_some_iff.mp evaluated with ⟨⟨world, pager⟩, prepared, facts⟩
  simp only [Prod.mk.injEq, decide_eq_true_iff] at facts
  rcases facts with ⟨legacy, main, untouched, replayed⟩
  have crashed := halfWritten_world (flushCrash 1 pager world 9) fun _ => true
  have harmless := (openedMain_eq_iff (rollbackPage1 0) _).mp
    (ok_of_toOption replayed)
  have restores := half_written_journal_restores_iff 1 512 .full fillPage1 rollbackDatabase world
    pager (rollbackPage1 0) 9 _ _ 2 prepared legacy main untouched crashed
  exact ⟨world, pager, _, prepared, crashed, restores.mpr harmless⟩

end Claim

end SqliteRs
