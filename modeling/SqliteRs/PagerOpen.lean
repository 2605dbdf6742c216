import SqliteRs.PagerView
import SqliteRs.CrashVfs

/-!
What opening a database does. The parts of an open are given by their effect on
the files, and a successful open by what it leaves: no hot journal, the pages of
the `-wal` file's committed frames, an empty set of edits and an empty cache. A
process that is alone with the files, as after a crash, is granted its locks and its
reader mark, so it succeeds if the journal can be replayed and the main file then has
a first page.
-/

namespace SqliteRs

open List SqliteRs.Action Option World Pager JournalHeader

open ByteFile

def acceptedRecords (journalBytes : Bytes) (header : JournalHeader) :
    Nat → Nat → List (UInt32 × Bytes)
  | 0, _ => []
  | remaining + 1, index =>
    match validRecordAt journalBytes header index with
    | none => []
    | some record => record :: acceptedRecords journalBytes header remaining (index + 1)

def journalRecords (journalBytes : Bytes) (header : JournalHeader) : List (UInt32 × Bytes) :=
  acceptedRecords journalBytes header header.nRec.toNat 0

def writePages (pageSize : UInt32) (file : Bytes) (pages : List (UInt32 × Bytes)) : Bytes :=
  pages.foldl (fun written page => writeAt written (pageOffset pageSize page.1) page.2) file

section PageWrites

variable (pageSize : UInt32)

theorem le_length_writePages (pages : List (UInt32 × Bytes)) (file : Bytes) :
    file.length ≤ (writePages pageSize file pages).length := by
  induction pages generalizing file with
  | nil => exact Nat.le_refl _
  | cons page rest ih =>
    exact Nat.le_trans (le_length_writeAt _ _ _) (ih _)

theorem pageOffset_apart (first second : UInt32) (firstSome : first ≠ 0) (secondSome : second ≠ 0)
    (differ : first ≠ second) :
    pageOffset pageSize first + pageSize.toNat ≤ pageOffset pageSize second ∨
      pageOffset pageSize second + pageSize.toNat ≤ pageOffset pageSize first := by
  have before : ∀ low high : UInt32, low ≠ 0 → low.toNat < high.toNat →
      pageOffset pageSize low + pageSize.toNat ≤ pageOffset pageSize high := by
    intro low high some below
    have positive : low.toNat ≠ 0 := fun zero => some (UInt32.toNat_inj.mp zero)
    have next : low.toNat - 1 + 1 ≤ high.toNat - 1 := by omega
    calc pageOffset pageSize low + pageSize.toNat
        = (low.toNat - 1 + 1) * pageSize.toNat := by rw [pageOffset, Nat.add_mul, Nat.one_mul]
      _ ≤ pageOffset pageSize high := Nat.mul_le_mul_right _ next
  have numbers : first.toNat ≠ second.toNat := fun same => differ (UInt32.toNat_inj.mp same)
  rcases Nat.lt_or_gt_of_ne numbers with below | above
  · exact Or.inl (before first second firstSome below)
  · exact Or.inr (before second first secondSome above)

variable {pages : List (UInt32 × Bytes)} (pageNum : UInt32) (nonzero : pageNum ≠ 0)
  (fits : ∀ entry ∈ pages, entry.1 ≠ 0 ∧ entry.2.length = pageSize.toNat)
include nonzero fits

theorem readAt_writePages_other (unwritten : OrderedMap.lastWrite pageNum pages = none)
    (file : Bytes) (inside : pageOffset pageSize pageNum + pageSize.toNat ≤ file.length) :
    readAt (writePages pageSize file pages) (pageOffset pageSize pageNum) pageSize.toNat =
      readAt file (pageOffset pageSize pageNum) pageSize.toNat := by
  rw [OrderedMap.last_write_eq_none_iff] at unwritten
  induction pages generalizing file with
  | nil => rfl
  | cons entry rest ih =>
    rcases fits entry mem_cons_self with ⟨entrySome, sized⟩
    have differ := Ne.symm (unwritten entry mem_cons_self)
    have apart := pageOffset_apart pageSize pageNum entry.1 nonzero entrySome differ
    have grown := Nat.le_trans inside (le_length_writeAt file (pageOffset pageSize entry.1) entry.2)
    have later := ih (fun other mem => fits other (.tail _ mem))
      (fun other mem => unwritten other (.tail _ mem)) _ grown
    rw [writePages, foldl_cons, ← writePages, later]
    exact readAt_writeAt_disjoint _ _ _ _ _ inside (by rw [sized]; exact apart)

theorem readAt_writePages (page : Bytes)
    (written : OrderedMap.lastWrite pageNum pages = some page) (file : Bytes) :
    readAt (writePages pageSize file pages) (pageOffset pageSize pageNum) pageSize.toNat = page := by
  induction pages generalizing file with
  | nil => cases written
  | cons entry rest ih =>
    rcases entry with ⟨first, value⟩
    have restFits : ∀ other ∈ rest, other.1 ≠ 0 ∧ other.2.length = pageSize.toNat :=
      fun other mem => fits other (.tail _ mem)
    rw [writePages, foldl_cons, ← writePages]
    rw [OrderedMap.lastWrite] at written
    cases later : OrderedMap.lastWrite pageNum rest with
    | some last =>
      rw [later] at written
      exact ih restFits (later.trans written) _
    | none =>
      rw [later] at written
      split at written
      swap
      · cases written
      rename_i same
      cases written
      subst same
      rcases fits (pageNum, page) mem_cons_self with ⟨_, sized⟩
      have inside : pageOffset pageSize pageNum + pageSize.toNat ≤
          (writeAt file (pageOffset pageSize pageNum) page).length := by
        by_cases none : page = []
        · have zero : pageSize.toNat = 0 := by rw [← sized, none]; rfl
          rw [pageOffset, zero]
          simp
        · rw [length_writeAt _ _ _ none, sized]
          exact Nat.le_max_right _ _
      rw [readAt_writePages_other pageSize pageNum nonzero restFits later _ inside, ← sized]
      exact readAt_writeAt_same _ _ _

end PageWrites

def recoveredMain (journalBytes : Bytes) (header : JournalHeader) (file : Bytes) : Bytes :=
  truncate (writePages header.pageSize file (journalRecords journalBytes header))
    (header.initialPageCount.toNat * header.pageSize.toNat)

def hotBytes (journalBytes : Bytes) : Bool :=
  decide (readAt journalBytes 0 journalMagic.length = journalMagic)

def hotJournal (world : World) : Bool :=
  match world.content .journal with
  | none => false
  | some journalBytes => hotBytes journalBytes

def openedMain (journal : Option Bytes) (main : Bytes) : Except JournalError Bytes :=
  match journal with
  | none => .ok main
  | some journalBytes =>
    if hotBytes journalBytes then
      (JournalHeader.parse journalBytes).map fun header => recoveredMain journalBytes header main
    else .ok main

/-- The overlay a reader takes from the contents of the `-wal` file. -/
def walOverlay (pageSize : UInt32) : Option Bytes → Except WalError PageMap
  | none => .ok OrderedMap.empty
  | some walBytes =>
    if walBytes.length < headerLen then .ok OrderedMap.empty
    else
      match WalHeader.parse walBytes with
      | .error error => .error error
      | .ok header =>
        if header.pageSize ≠ pageSize then .error (.invalidPageSize header.pageSize)
        else .ok (committedPages header walBytes).1

section Parts

variable (proc : Nat) (world : World)

theorem exec_replayRecords (bytes : Bytes) (hdr : JournalHeader) (dbFile : Handle)
    (remaining index : Nat) :
    (replayRecords bytes hdr dbFile remaining index).exec (unixVfs proc) () world =
      ⟨world.store dbFile (writePages hdr.pageSize (world.inode dbFile)
        (acceptedRecords bytes hdr remaining index)), (), .ok ()⟩ := by
  induction remaining generalizing index world with
  | zero =>
    simp [replayRecords, acceptedRecords, writePages, foldl_nil, store_self, exec_monad_pure]
  | succ remaining ih =>
    simp only [replayRecords, acceptedRecords]
    cases validRecordAt bytes hdr index with
    | none =>
      simp [writePages, foldl_nil, store_self, exec_monad_pure]
    | some record =>
      simp [exec_bind, exec_writeAt, ih, inode_store, store_store, writePages, foldl_cons]

theorem exec_recover (bytes : Bytes) (dbFile : Handle) :
    (recover bytes dbFile).exec (unixVfs proc) () world = match parse bytes with
      | .error error => ⟨world, (), .error error⟩
      | .ok hdr =>
        ⟨world.store dbFile (writePages hdr.pageSize (world.inode dbFile)
          (journalRecords bytes hdr)), (),
          .ok ⟨hdr.initialPageCount, hdr.pageSize⟩⟩ := by
  simp only [recover, exec_bind, exec_check]
  cases JournalHeader.parse bytes with
  | error error => rfl
  | ok hdr => simp only [exec_replayRecords, journalRecords, exec_monad_pure]

theorem exec_recoverHotJournal (dbFile : Handle) (bytes : Bytes)
    (found : world.content .journal = some bytes) :
    (recoverHotJournal dbFile).exec (unixVfs proc) () world = match parse bytes with
      | .error error => ⟨world, (), .error (journalToPagerError error)⟩
      | .ok hdr =>
        ⟨(world.store dbFile (recoveredMain bytes hdr (world.inode dbFile))).unlink
          .journal, (), .ok ()⟩ := by
  obtain ⟨present, rfl⟩ := (world.content_eq_some_iff bytes .journal).mp found
  simp only [recoverHotJournal, exec_bind, exec_openRead, openExistingFile, present, if_true,
    Except.mapError, exec_size, exec_readAt, readAt_zero_length, exec_free, exec_recover]
  cases JournalHeader.parse (world.inode (world.handle .journal)) with
  | error error => rfl
  | ok hdr =>
    simp [exec_truncate, inode_store, exec_sync, exec_delete, store_store, recoveredMain]

theorem exec_journalIsHot :
    journalIsHot.exec (unixVfs proc) () world = ⟨world, (), .ok (hotJournal world)⟩ := by
  simp only [journalIsHot, exec_bind, exec_fileExists, hotJournal, World.content]
  by_cases present : world.present .journal = true
  · simp [present, exec_bind, exec_openRead, openExistingFile, Except.mapError, exec_readAt,
      exec_monad_pure, hotBytes]
  · simp [present, Bool.false_eq_true, exec_monad_pure]

theorem exec_readWalPages (pageSize : UInt32) : (readWalPages pageSize).exec (unixVfs proc) () world =
      ⟨world, (), (walOverlay pageSize (world.content .wal)).mapError .wal⟩ := by
  simp only [readWalPages, exec_bind, exec_fileExists, World.content]
  by_cases present : world.present .wal = true
  · simp only [present, if_true, exec_bind, exec_openRead, openExistingFile, Except.mapError,
      exec_size, walOverlay]
    by_cases short : (world.inode (world.handle .wal)).length < headerLen
    · simp [short, exec_monad_pure]
    simp only [short, if_false, exec_bind, exec_readAt, readAt_zero_length]
    cases WalHeader.parse (world.inode (world.handle .wal)) with
    | error error => rfl
    | ok hdr =>
      by_cases differs : hdr.pageSize ≠ pageSize
      · simp [differs, exec_throw, ne_eq, not_false_eq_true]
      · simp [differs, exec_monad_pure]
  · simp [present, Bool.false_eq_true, exec_monad_pure, walOverlay, Except.mapError]

end Parts

theorem recoverIfHot_ok (proc : Nat) (world after : World) (hot : Bool) (dbFile : Handle)
    (level last : LockLevel) (onMain : dbFile.path = .main)
    (ran : (recoverIfHot hot dbFile).exec (unixVfs proc) level world =
      ⟨after, last, .ok ()⟩) : SamePath .wal world after ∧
      after.present .main = world.present .main ∧ after.handle .main = world.handle .main ∧
      (hot = false → SamePath .main world after ∧ SamePath .journal world after) ∧
      (hot = true → after.content .journal = none ∧
        ∃ bytes hdr, world.content .journal = some bytes ∧ parse bytes = .ok hdr ∧
          after.inode dbFile = recoveredMain bytes hdr (world.inode dbFile)) := by
  cases hot with
  | false =>
    cases ran
    exact ⟨.refl _ _, rfl, rfl, fun _ => ⟨.refl _ _, .refl _ _⟩, by simp⟩
  | true =>
    simp only [recoverIfHot, if_true, exec_bind, exec_probeLock] at ran
    split at ran
    · simp at ran
    -- EXCLUSIVE is taken, the journal replayed and deleted, and SHARED taken again.
    rw [exec_bind_ok] at ran
    obtain ⟨raised, up, _, climbed, ran⟩ := ran
    rw [exec_bind_ok] at ran
    obtain ⟨replayed, kept, _, recovered, lowered⟩ := ran
    have raisedSame : ∀ path, SamePath path world raised :=
      fun path => SparesPath.after (Only.zoom (setLevel_spares .exclusive)) climbed
    have loweredSame : ∀ path, SamePath path replayed after :=
      fun path => SparesPath.after (Only.zoom (setLevel_spares .shared)) lowered
    rw [exec_free] at recovered
    cases found : raised.content .journal with
    | none =>
      have absent := (raised.content_eq_none_iff .journal).mp found
      simp [recoverHotJournal, exec_bind, openExistingFile, absent, Except.mapError] at recovered
    | some bytes =>
      rw [exec_recoverHotJournal proc raised dbFile bytes found] at recovered
      cases parsed : JournalHeader.parse bytes with
      | error error => simp [parsed, Except.mapError] at recovered
      | ok hdr =>
        simp only [parsed] at recovered
        obtain ⟨rfl, rfl, _⟩ := recovered
        have walKept : SamePath .wal raised
            ((raised.store dbFile
              (recoveredMain bytes hdr (raised.inode dbFile))).unlink
                .journal) :=
          (raised.samePath_store dbFile _ .wal (by rw [onMain]; decide)).trans
            (samePath_unlink _ .wal .journal (by decide))
        refine ⟨((raisedSame .wal).trans walKept).trans (loweredSame .wal), ?_, ?_,
          by simp, fun _ => ?_⟩
        · rw [(loweredSame .main).present]
          exact (raisedSame .main).present
        · rw [(loweredSame .main).handle]
          exact (raisedSame .main).handle
        refine ⟨?_, bytes, hdr, ?_, parsed, ?_⟩
        · rw [(loweredSame .journal).content, content_unlink]
        · rw [← (raisedSame .journal).content]
          exact found
        · rw [(loweredSame .main).inode_of dbFile onMain, ← (raisedSame .main).inode_of dbFile onMain]
          simp [World.unlink]

/-- Everything a successful open says about the pager and the files it leaves. -/
structure Opened (pageSize : UInt32) (before after : World) (pager : Pager) : Prop where
  present : after.present .main = true
  source : pager.source = after.handle .main
  size : pager.pageSize = pageSize
  overlay : walOverlay pageSize (after.content .wal) = .ok pager.walPages
  mode : ∃ page1, mainPage after pager.source pageSize 1 = .ok page1 ∧
    pager.journalMode = journalModeFromPage1 page1
  dirty : pager.dirty = OrderedMap.empty
  cache : pager.pageCache = PageCache.new defaultPageCacheCapacity
  walShm : pager.walShm = none
  walResume : pager.walResume = none
  synchronous : pager.synchronous = .full
  txLockLevel : pager.txLockLevel = .shared
  cold : hotJournal after = false
  shm : WalIndex.ShmUsable (after.content .shm)
  main : ∀ file, before.content .main = some file →
    ∃ recovered, openedMain (before.content .journal) file = .ok recovered ∧
      after.content .main = some recovered
  sameWal : World.SamePath .wal before after
  sameWhenCold : hotJournal before = false →
    World.SamePath .main before after ∧ World.SamePath .journal before after

theorem claimOverlay_ok (proc : Nat) (world after : World) (pageSize : UInt32)
    (walLock : Option Nat) (walPages : PageMap)
    (ran : (claimOverlay pageSize).exec (unixVfs proc) () world =
      ⟨after, (), .ok (walLock, walPages)⟩) : (∀ path, Path.shm ≠ path → SamePath path world after) ∧
      walOverlay pageSize (after.content .wal) = .ok walPages ∧
      WalIndex.ShmUsable (after.content .shm) := by
  rw [claimOverlay, exec_bind_ok] at ran
  obtain ⟨claimed, ⟨⟩, slot, claim, ran⟩ := ran
  have sameClaimed : ∀ path, Path.shm ≠ path → SamePath path world claimed :=
    fun path differ =>
      SparesPath.after
        (Only.free (WalIndex.makes_spares WalIndex.claimWalReadLock_makes differ)) claim
  have usable : WalIndex.ShmUsable (claimed.content .shm) := by
    rw [exec_free] at claim
    generalize claimRun : WalIndex.claimWalReadLock.exec (unixVfs proc) () world = outcome at claim
    obtain ⟨reached, kept, error | taken⟩ := outcome
    · simp [Except.mapError] at claim
    simp only [Outcome.mk.injEq] at claim
    rw [← claim.1]
    exact WalIndex.claimWalReadLock_usable proc world reached () kept taken claimRun
  simp only [exec_bind, exec_attempt, exec_readWalPages] at ran
  cases overlay : walOverlay pageSize (claimed.content .wal) with
  | ok pages =>
    simp only [overlay] at ran
    obtain ⟨rfl, rfl, rfl⟩ := ran
    exact ⟨sameClaimed, overlay, usable⟩
  | error error =>
    simp only [overlay, Except.mapError] at ran
    rw [exec_bind_ok] at ran
    obtain ⟨_, _, _, _, thrown⟩ := ran
    simp at thrown

theorem openPager_ok (proc : Nat) (world after : World) (pageSize : UInt32) (pager : Pager)
    (ran : (openPager pageSize).exec (unixVfs proc) () world = ⟨after, (), .ok pager⟩) :
    Opened pageSize world after pager := by
  simp only [openPager, exec_bind, exec_journalIsHot, exec_openWrite, openExistingFile] at ran
  by_cases present : world.present .main = true
  swap
  · simp [present, Except.mapError] at ran
  simp only [present, if_true, Except.mapError, exec_owning, exec_attempt, Except.map] at ran
  generalize outcome : (openLocked pageSize (hotJournal world) (world.handle .main)).exec
    (unixVfs proc) .unlocked world = res at ran
  obtain ⟨final, level, error | opened⟩ := res
  · rw [exec_bind_ok] at ran
    obtain ⟨_, _, _, _, thrown⟩ := ran
    simp at thrown
  obtain ⟨rfl, rfl⟩ := ran
  -- The run in order: the shared lock, the replay of a hot journal, the claim on the log.
  rw [openLocked, exec_bind_ok] at outcome
  obtain ⟨locked, lockLevel, _, climbed, outcome⟩ := outcome
  rw [exec_bind_ok] at outcome
  obtain ⟨recovered, kept, _, replay, outcome⟩ := outcome
  rw [finishOpen, exec_bind_ok] at outcome
  obtain ⟨claimed, keptToo, overlay, claim, outcome⟩ := outcome
  obtain ⟨walLock, walPages⟩ := overlay
  have lockedSame : ∀ path, SamePath path world locked :=
    fun path => SparesPath.after (Only.zoom (setLevel_spares .shared)) climbed
  obtain ⟨walKept, mainPresent, mainHandle, whenCold, whenHot⟩ :=
    recoverIfHot_ok proc locked recovered _ _ lockLevel kept rfl replay
  rw [exec_free] at claim
  generalize claimRun : (claimOverlay pageSize).exec (unixVfs proc) () recovered = claimOutcome at claim
  obtain ⟨claimWorld, claimState, claimError | claimResult⟩ := claimOutcome
  · simp [Except.mapError] at claim
  obtain ⟨rfl, rfl, rfl⟩ := claim
  obtain ⟨claimKept, walPagesOk, usable⟩ := claimOverlay_ok proc recovered claimWorld pageSize
    walLock walPages claimRun
  simp only [exec_bind, exec_attempt, exec_readPageAt] at outcome
  cases read : mainPage claimWorld (world.handle .main) pageSize 1 with
  | error error =>
    simp only [read] at outcome
    rw [exec_bind_ok] at outcome
    obtain ⟨_, _, _, _, thrown⟩ := outcome
    simp at thrown
  | ok page1 =>
    simp only [read, exec_bind, exec_get, exec_monad_pure, Outcome.mk.injEq, Except.ok.injEq] at outcome
    obtain ⟨rfl, _, rfl⟩ := outcome
    have mainKept := claimKept .main (by decide)
    have journalKept := claimKept .journal (by decide)
    have handleKept : claimWorld.handle .main = world.handle .main := by
      rw [mainKept.handle, mainHandle, (lockedSame .main).handle]
    have mainPresentAfter : claimWorld.present .main = true := by
      rw [mainKept.present, mainPresent, (lockedSame .main).present]
      exact present
    refine
      { present := mainPresentAfter, source := handleKept.symm, size := rfl, overlay := walPagesOk,
        mode := ⟨page1, read, rfl⟩, dirty := rfl, cache := rfl, walShm := rfl,
        walResume := rfl, synchronous := rfl, txLockLevel := rfl, shm := usable, cold := ?_, main := ?_,
        sameWal := ((lockedSame .wal).trans walKept).trans (claimKept .wal (by decide)),
        sameWhenCold := ?_ }
    · cases hot : hotJournal world with
      | true =>
        rw [hotJournal, journalKept.content, (whenHot hot).1]
      | false =>
        obtain ⟨_, journalSame⟩ := whenCold hot
        rw [hotJournal, journalKept.content, journalSame.content, (lockedSame .journal).content]
        exact hot
    · intro file found
      have inode := ((world.content_eq_some_iff file .main).mp found).2
      cases hot : hotJournal world with
      | true =>
        obtain ⟨_, bytes, hdr, journal, parsed, replayed⟩ := whenHot hot
        rw [(lockedSame .journal).content] at journal
        have isHot : hotBytes bytes = true := by
          rw [hotJournal, journal] at hot
          exact hot
        refine ⟨recoveredMain bytes hdr file, ?_, ?_⟩
        · simp [openedMain, journal, isHot, parsed, Except.map]
        rw [content_eq_some_iff, handleKept]
        refine ⟨mainPresentAfter, ?_⟩
        rw [mainKept.inode_of _ rfl, replayed, (lockedSame .main).inode_of _ rfl, inode]
      | false =>
        obtain ⟨mainSame, _⟩ := whenCold hot
        refine ⟨file, ?_, ?_⟩
        · rw [hotJournal] at hot
          cases journal : world.content .journal with
          | none => rfl
          | some bytes =>
            rw [journal] at hot
            simp [openedMain, hot, Bool.false_eq_true]
        · rw [mainKept.content, mainSame.content, (lockedSame .main).content]
          exact found
    · intro cold
      obtain ⟨mainSame, journalSame⟩ := whenCold cold
      exact ⟨((lockedSame .main).trans mainSame).trans mainKept,
        ((lockedSame .journal).trans journalSame).trans journalKept⟩

end SqliteRs

namespace SqliteRs

open List Bool World Pager Call
open SqliteRs.Action (exec_bind always_bind always_zoom Succeeds Always Continue)

open ByteFile WalIndex

namespace World

def Alone (proc : Nat) (world : World) : Prop :=
  ∀ held ∈ world.locks, held.process = proc

variable {proc : Nat} {world : World}

section

variable (alone : world.Alone proc) (region : Region)

include alone region

theorem Alone.conflicts (write : Bool) : world.conflicts proc region write = false := by
  rw [World.conflicts, any_eq_false]
  intro held mem
  simp [alone held mem]

theorem Alone.release : (world.release proc region).Alone proc :=
  fun held mem => alone held (mem_filter.mp mem).1

theorem Alone.grant (write : Bool) : (world.grant proc region write).Alone proc := by
  intro held mem
  rcases mem_cons.mp mem with rfl | other
  · rfl
  · exact alone.release region held other

theorem Alone.setLock (kind : LockKind) : (world.setLock proc region kind).1.Alone proc ∧
      (world.setLock proc region kind).2 = .ok () := by
  cases kind with
  | unlock => exact ⟨alone.release region, rfl⟩
  | read =>
    simp only [World.setLock, alone.conflicts, false_eq_true, if_false]
    exact ⟨alone.grant region false, trivial⟩
  | write =>
    simp only [World.setLock, alone.conflicts, false_eq_true, if_false]
    exact ⟨alone.grant region true, trivial⟩

end

theorem Alone.answer (alone : world.Alone proc) (call : Call) :
    (unixAnswer proc world call).1.Alone proc := by
  cases call with
  | setLock region kind => exact (alone.setLock region kind).1
  | createOrOpenWrite path =>
    simp only [unixAnswer]
    split
    · exact alone
    · exact alone
  | _ => exact alone

end World

theorem readWalPages_makes (pageSize : UInt32) : Makes ReadOnly (readWalPages pageSize) := by
  refine Action.Only.bind (Makes.ask _ (.exists .wal) trivial) ?_
  intro present
  split
  swap
  · exact Action.Only.pure _
  refine Action.Only.bind (Makes.ask _ (.openRead .wal) trivial) fun walFile => ?_
  refine Action.Only.bind (Makes.ask _ (.size walFile) trivial) fun size => ?_
  split
  · exact Action.Only.pure _
  refine Action.Only.bind (Makes.ask _ (.readAt walFile 0 size) trivial) fun bytes => ?_
  split
  · exact Action.Only.pure _
  split
  · exact Action.Only.throw _
  split
  · exact Action.Only.throw _
  · exact Action.Only.pure _

theorem readPageAt_makes {State : Type} (source : Handle) (pageSize pageNum : UInt32) :
    Makes ReadOnly (readPageAt source pageSize pageNum : Vfs State PageError Bytes) := by
  rw [readPageAt]
  split
  · exact Action.Only.throw _
  refine Action.Only.bind (Makes.ask _ (.readAt source _ _) trivial) fun buf => ?_
  split
  · exact Action.Only.pure _
  · exact Action.Only.throw _

theorem journalIsHot_makes : Makes ReadOnly Pager.journalIsHot := by
  refine Action.Only.bind (Makes.ask _ (.exists .journal) trivial) ?_
  intro present
  split
  · refine Action.Only.bind (Makes.ask _ (.openRead .journal) trivial) fun journal => ?_
    refine Action.Only.bind (Makes.ask _ (.readAt journal _ _) trivial) fun magic => ?_
    exact Action.Only.pure _
  · exact Action.Only.pure _

section Granted

variable {proc : Nat} {inv : Machine → Prop} {State : Type}
  (alone : ∀ machine, inv machine → machine.world.Alone proc)
  (kept : ∀ machine call, IndexCall call → inv machine → inv (crashAnswer proc machine call).1)

def Quietly (inv : Machine → Prop) (machine : Machine) (call : Call) : Prop :=
  inv machine ∧ IndexCall call

include kept in
theorem reads_always {Error Result : Type} {action : Vfs State Error Result}
    (makes : Makes ReadOnly action) (state : State) (machine : Machine) (holds : inv machine) :
    Always (crashVfs proc).toSystem (Quietly inv) (fun after last res => inv after ∧
        action.exec (unixVfs proc) state machine.world = ⟨after.world, last, res⟩)
      action state machine := by
  have always : Always (crashVfs proc).toSystem
      (fun before call => inv before ∧ call.ReadOnly) (fun after _ _ => inv after) action state
      machine := by
    apply Action.Only.always makes (crashVfs_possible proc) _ holds
    intro before call after reply readOnly still taken
    have answered : crashAnswer proc before call = (after, reply) := taken
    have next := kept before call (indexCall_of_readOnly call readOnly) still
    rw [answered] at next
    exact next
  apply (always.exec_eq.weaken fun _ call allowed =>
    ⟨allowed.1, indexCall_of_readOnly call allowed.2⟩).mono
  rintro after last res ⟨still, ran⟩
  exact ⟨still, exec_crashVfs proc action state machine after last res ran⟩

include kept in
theorem reads_granted {Error Result : Type} {action : Vfs State Error Result}
    (makes : Makes ReadOnly action) (ends : ∀ state machine, inv machine →
      ∃ value, (action.exec (unixVfs proc) state machine.world).result = .ok value) :
    Succeeds (crashVfs proc).toSystem (Quietly inv) inv action := by
  intro state machine holds
  apply (reads_always kept makes state machine holds).mono
  rintro after last res ⟨still, ran⟩
  rcases ends state machine holds with ⟨value, ended⟩
  rw [ran] at ended
  exact ⟨still, value, ended⟩

include alone kept

theorem setLock_granted (region : Region) (kind : LockKind) :
    Succeeds (crashVfs proc).toSystem (Quietly inv) inv
      (Vfs.setLock id region kind : Vfs State VfsError Unit) := by
  intro state machine holds
  rw [always_setLock, ((alone machine holds).setLock region kind).2]
  exact ⟨⟨holds, trivial⟩, kept machine _ trivial holds, (), rfl⟩

theorem setLevel_granted (target : LockLevel) :
    Succeeds (crashVfs proc).toSystem (Quietly inv) inv (setLevel target) :=
  setLevel_inherits Action.Succeeds.inherited (setLock_granted alone kept) target

def WithShm (inv : Machine → Prop) (file : Handle) (machine : Machine) : Prop :=
  inv machine ∧ machine.world.handle .shm = file ∧ machine.world.present .shm = true

omit alone in
theorem withShm_kept (file : Handle) (machine : Machine) (call : Call) (index : IndexCall call)
    (holds : WithShm inv file machine) : WithShm inv file (crashAnswer proc machine call).1 := by
  obtain ⟨here, handle, present⟩ := holds
  refine ⟨kept machine call index here, ?_⟩
  by_cases spared : call.Spares .shm
  · have same := unixAnswer_spares proc .shm machine.world call spared
    exact ⟨same.handle.trans handle, same.present.trans present⟩
  cases call with
  | writeAt other off data => exact ⟨handle, present⟩
  | createOrOpenWrite | delete | truncate => exact index.elim
  | _ => exact absurd trivial spared

variable (usable : ∀ machine, inv machine → ShmUsable (machine.world.content .shm))
include usable

omit alone kept in
theorem withShm_length (file : Handle) (machine : Machine) (holds : WithShm inv file machine) :
    minShmLen ≤ (machine.world.inode file).length ∧ (machine.world.inode file).length ≤ maxShmLen := by
  obtain ⟨here, rfl, present⟩ := holds
  have fits := usable machine here
  rw [machine.world.content_of_present .shm present] at fits
  exact fits

omit alone in
theorem validateShmLen_granted (file : Handle) :
    Succeeds (crashVfs proc).toSystem (Quietly (WithShm inv file)) (WithShm inv file)
      (validateShmLen file : Vfs State VfsError Unit) := by
  refine reads_granted (withShm_kept kept file) (validateShmLen_makes file) ?_
  intro state machine holds
  obtain ⟨low, high⟩ := withShm_length usable file machine holds
  simp [validateShmLen, exec_bind, Nat.not_lt.mpr low, Nat.not_lt.mpr high]

omit alone in
theorem mxFrame_granted (file : Handle) :
    Succeeds (crashVfs proc).toSystem (Quietly (WithShm inv file)) (WithShm inv file)
      (mxFrame file : Vfs State VfsError UInt32) := by
  refine reads_granted (withShm_kept kept file) (readU32At_makes file mxFrameOffset) ?_
  intro state machine holds
  obtain ⟨low, _⟩ := withShm_length usable file machine holds
  have inside : mxFrameOffset + 4 ≤ (machine.world.inode file).length :=
    Nat.le_trans (by decide) low
  simp [mxFrame, readU32At, exec_bind, length_readAt_of_le _ _ _ inside]

theorem claimSlots_granted (file : Handle) (onShm : file.path = .shm) (slot : Nat)
    (rest : List Nat) (few : slot ≤ 4) :
    Succeeds (crashVfs proc).toSystem (Quietly (WithShm inv file)) (WithShm inv file)
      (claimSlots file (slot :: rest) : Vfs State VfsError Nat) := by
  have lock : ∀ region kind,
      Succeeds (crashVfs proc).toSystem (Quietly (WithShm inv file)) (WithShm inv file)
        (Vfs.setLock id region kind : Vfs State VfsError Unit) :=
    setLock_granted (fun machine holds => alone machine holds.1) (withShm_kept kept file)
  refine Action.Succeeds.attempt_bind (lock _ _) ?_
  rintro ⟨⟩
  refine Action.Succeeds.bind (mxFrame_granted kept usable file) fun frame => ?_
  refine Action.Succeeds.bind ?_ fun _ => ?_
  · intro state machine holds
    have allowed : IndexCall (.writeAt file (readMarkOffset slot) (le32Bytes frame)) :=
      ⟨onShm, readMark_inside slot few⟩
    rw [setReadMark, writeU32At, always_writeAt]
    exact ⟨⟨holds, allowed⟩, withShm_kept kept file machine _ allowed holds, (), rfl⟩
  · exact Action.Succeeds.bind (lock _ _) fun _ => Action.Succeeds.pure _

theorem claimWalReadLock_granted : Succeeds (crashVfs proc).toSystem (Quietly inv) inv
      (claimWalReadLock : Vfs State VfsError (Option Nat)) := by
  intro state machine holds
  rw [claimWalReadLock, always_bind, Action.always_attempt, openShmShared, always_openWrite]
  have opened := kept machine (.openWrite .shm) trivial holds
  refine ⟨⟨holds, trivial⟩, ?_⟩
  by_cases present : machine.world.present .shm = true
  · rw [openExistingFile, if_pos present]
    have claimed : Succeeds (crashVfs proc).toSystem
        (Quietly (WithShm inv (machine.world.handle .shm)))
        (WithShm inv (machine.world.handle .shm))
        (do
          validateShmLen (machine.world.handle .shm)
          let slot ← claimSlots (machine.world.handle .shm) readerSlots
          pure (some slot) : Vfs State VfsError (Option Nat)) := by
      refine Action.Succeeds.bind (validateShmLen_granted kept usable _) fun _ => ?_
      refine Action.Succeeds.bind ?_ fun slot => Action.Succeeds.pure _
      exact claimSlots_granted alone kept usable _ rfl 1 [2, 3, 4] (by decide)
    have ran := claimed state _ (⟨opened, rfl, present⟩ :
      WithShm inv (machine.world.handle .shm)
        (crashAnswer proc machine (.openWrite .shm)).1)
    simp only [Continue]
    apply (ran.weaken fun _ _ allowed => ⟨allowed.1.1, allowed.2⟩).mono
    rintro after last res ⟨still, ended⟩
    exact ⟨still.1, ended⟩
  · rw [openExistingFile, if_neg present]
    exact ⟨opened, none, rfl⟩

variable {pageSize : UInt32} (overlay : ∀ machine, inv machine →
  ∃ pages, walOverlay pageSize (machine.world.content .wal) = .ok pages)
include overlay

theorem claimOverlay_granted : Succeeds (crashVfs proc).toSystem (Quietly inv) inv
      (Pager.claimOverlay pageSize) := by
  refine Action.Succeeds.bind (Action.Succeeds.free (claimWalReadLock_granted alone kept usable))
    fun walLock => ?_
  refine Action.Succeeds.attempt_bind ?_ fun pages => Action.Succeeds.pure _
  refine reads_granted kept (readWalPages_makes pageSize) ?_
  intro state machine holds
  obtain ⟨pages, read⟩ := overlay machine holds
  exact ⟨pages, by rw [exec_readWalPages, read]; rfl⟩

variable {src : Handle} (page1 : ∀ machine, inv machine →
  ∃ page, mainPage machine.world src pageSize 1 = .ok page)
include page1

theorem finishOpen_granted : Succeeds (crashVfs proc).toSystem (Quietly inv) inv
      (Pager.finishOpen pageSize src) := by
  refine Action.Succeeds.bind
    (Action.Succeeds.free (claimOverlay_granted alone kept usable overlay)) ?_
  rintro ⟨walLock, walPages⟩
  refine Action.Succeeds.attempt_bind ?_ fun page => ?_
  · apply reads_granted kept (readPageAt_makes src pageSize 1)
    intro state machine holds
    rcases page1 machine holds with ⟨page, read⟩
    exact ⟨page, by rw [exec_readPageAt, read]⟩
  · exact Action.Succeeds.bind Action.Succeeds.get fun level => Action.Succeeds.pure _

end Granted

theorem filePage_one (pageSize : UInt32) (file : Bytes) (long : pageSize.toNat ≤ file.length) :
    ∃ page, filePage file pageSize 1 = .ok page := by
  have whole : (readAt file (pageOffset pageSize 1) pageSize.toNat).length = pageSize.toNat := by
    apply length_readAt_of_le
    simpa [pageOffset] using long
  exact ⟨_, (filePage_eq_ok_iff _ _ _ _).mpr ⟨by decide, rfl, whole⟩⟩

section Open

structure Settled (proc : Nat) (source : Handle) (main : Bytes) (journal wal : Option Bytes)
    (machine : Machine) : Prop where
  alone : machine.world.Alone proc
  handle : machine.world.handle .main = source
  mainContent : machine.world.content .main = some main
  journalContent : machine.world.content .journal = journal
  walContent : machine.world.content .wal = wal
  shm : ShmUsable (machine.world.content .shm)

variable {proc : Nat} {src : Handle} {pageSize : UInt32} {main restored : Bytes}
  {journal wal : Option Bytes}

theorem settled_kept (machine : Machine) (call : Call) (index : IndexCall call)
    (holds : Settled proc src main journal wal machine) :
    Settled proc src main journal wal (crashAnswer proc machine call).1 := by
  have same : ∀ path, Path.shm ≠ path →
      World.SamePath path machine.world (unixAnswer proc machine.world call).1 :=
    fun path differ => unixAnswer_spares proc path machine.world call (index.spares differ)
  exact
    { alone := holds.alone.answer call
      handle := (same .main (by decide)).handle.trans holds.handle
      mainContent := (same .main (by decide)).content.trans holds.mainContent
      journalContent := (same .journal (by decide)).content.trans holds.journalContent
      walContent := (same .wal (by decide)).content.trans holds.walContent
      shm := indexCall_usable proc _ call index holds.shm }

theorem setLevel_settled (target level : LockLevel) (machine : Machine)
    (holds : Settled proc src main journal wal machine) :
    Always (crashVfs proc).toSystem (fun _ _ => True)
      (fun after _ res => Settled proc src main journal wal after ∧ res = .ok ())
      (setLevel target) level machine := by
  have granted := setLevel_granted (fun _ here => here.alone) settled_kept target level machine holds
  apply (granted.weaken fun _ _ _ => trivial).mono
  rintro after last res ⟨still, ⟨⟩, rfl⟩
  exact ⟨still, rfl⟩

theorem recoverIfHot_settled (bytes : Bytes) (hdr : JournalHeader)
    (parsed : JournalHeader.parse bytes = .ok hdr) (level : LockLevel)
    (machine : Machine) (holds : Settled proc src main (some bytes) wal machine) :
    Always (crashVfs proc).toSystem (fun _ _ => True) (fun after _ res => res = .ok () ∧
        Settled proc src (recoveredMain bytes hdr main) none wal after)
      (Pager.recoverIfHot true src) level machine := by
  rw [recoverIfHot, if_pos rfl, always_bind, always_probeLock]
  refine ⟨trivial, ?_⟩
  have probed := settled_kept machine (.probeLock .reserved) trivial holds
  simp only [holds.alone.conflicts, Continue, false_eq_true, if_false]
  rw [always_bind, always_zoom]
  apply (setLevel_settled .exclusive level _ probed).mono
  rintro locked raisedLevel res ⟨still, rfl⟩
  simp only [Continue]
  rw [always_bind, Action.always_free]
  have replay := exec_recoverHotJournal proc locked.world src bytes
    still.journalContent
  rw [parsed] at replay
  apply (always_of_unix replay).mono
  rintro replayed ⟨⟩ res ⟨world, _, rfl⟩
  have inode : locked.world.inode src = main := by
    rw [← still.handle]
    exact ((locked.world.content_eq_some_iff main .main).mp still.mainContent).2
  have present := ((locked.world.content_eq_some_iff main .main).mp still.mainContent).1
  have after : Settled proc src (recoveredMain bytes hdr main) none wal replayed := by
    have onMain : src.path = .main := by
      rw [← still.handle]
      rfl
    have others : ∀ path, path ≠ .main → path ≠ .journal →
        replayed.world.content path = locked.world.content path := by
      intro path notMain notJournal
      rw [world, content_unlink_other _ _ _ notJournal,
        content_store_other _ _ _ _ (by rw [onMain]; exact Ne.symm notMain)]
    refine ⟨?_, ?_, ?_, ?_, ?_, ?_⟩
    · rw [world]
      exact still.alone
    · rw [world]
      exact still.handle
    · rw [world, inode, ← still.handle]
      exact content_store_same _ _ _ present
    · rw [world, content_unlink]
    · rw [others .wal (by decide) (by decide)]
      exact still.walContent
    · rw [others .shm (by decide) (by decide)]
      exact still.shm
  simp only [Continue]
  rw [always_zoom]
  apply (setLevel_settled .shared raisedLevel replayed after).mono
  rintro last lowered res ⟨ended, rfl⟩
  exact ⟨rfl, ended⟩

theorem openLocked_settled (hot : Bool)
    (isHot : hot = match journal with
      | none => false
      | some bytes => hotBytes bytes)
    (opened : openedMain journal main = .ok restored)
    (overlay : ∃ pages, walOverlay pageSize wal = .ok pages)
    (long : pageSize.toNat ≤ restored.length) (level : LockLevel) (machine : Machine)
    (holds : Settled proc src main journal wal machine) :
    Always (crashVfs proc).toSystem (fun _ _ => True)
      (fun _ _ res => ∃ pager, res = .ok pager)
      (Pager.openLocked pageSize hot src) level machine := by
  have rest : ∀ left level machine, Settled proc src restored left wal machine →
      Always (crashVfs proc).toSystem (fun _ _ => True)
        (fun _ _ res => ∃ pager, res = .ok pager)
        (finishOpen pageSize src) level machine := by
    intro left level machine settled
    have granted : Succeeds (crashVfs proc).toSystem
        (Quietly (Settled proc src restored left wal))
        (Settled proc src restored left wal) (finishOpen pageSize src) := by
      apply finishOpen_granted (fun _ here => here.alone) settled_kept (fun _ here => here.shm)
      · intro reached here
        rw [here.walContent]
        exact overlay
      · intro reached here
        rw [← here.handle, mainPage_eq_filePage _ _ _ restored here.mainContent]
        exact filePage_one pageSize restored long
    exact ((granted level machine settled).weaken fun _ _ _ => trivial).mono
      fun _ _ _ ended => ended.2
  rw [openLocked, always_bind, always_zoom]
  apply (setLevel_settled .shared level machine holds).mono
  rintro locked level res ⟨still, rfl⟩
  simp only [Continue]
  rw [always_bind]
  cases hot with
  | false =>
    have unchanged : restored = main := by
      cases journal with
      | none =>
        cases opened
        rfl
      | some bytes =>
        simp only [openedMain, ← isHot] at opened
        cases opened
        rfl
    subst unchanged
    exact rest journal level locked still
  | true =>
    cases journal with
    | none => cases isHot
    | some bytes =>
      simp only [openedMain, ← isHot] at opened
      cases parsed : JournalHeader.parse bytes with
      | error error =>
        rw [parsed] at opened
        cases opened
      | ok hdr =>
        rw [parsed] at opened
        cases opened
        apply (recoverIfHot_settled bytes hdr parsed level locked still).mono
        rintro recovered level res ⟨rfl, settled⟩
        exact rest none level recovered settled

theorem openPager_alone (reader : Nat) (world : World) (alone : world.Alone reader)
    (usable : ShmUsable (world.content .shm))
    (overlay : ∃ pages, walOverlay pageSize (world.content .wal) = .ok pages)
    (found : world.content .main = some main)
    (opened : openedMain (world.content .journal) main = .ok restored)
    (long : pageSize.toNat ≤ restored.length) : ∃ after fresh,
      (Pager.openPager pageSize).exec (unixVfs reader) () world = ⟨after, (), .ok fresh⟩ := by
  have start : Settled reader (world.handle .main) main (world.content .journal)
      (world.content .wal) (Machine.boot world) := ⟨alone, rfl, found, rfl, rfl, usable⟩
  have always : Always (crashVfs reader).toSystem (fun _ _ => True)
      (fun _ _ res => ∃ pager, res = .ok pager) (openPager pageSize) ()
      (Machine.boot world) := by
    rw [openPager, always_bind]
    apply ((reads_always settled_kept journalIsHot_makes () _ start).weaken
      fun _ _ _ => trivial).mono
    rintro looked ⟨⟩ res ⟨still, ran⟩
    rw [exec_journalIsHot] at ran
    rcases ran with ⟨_, _, rfl⟩
    have present := ((looked.world.content_eq_some_iff main .main).mp still.mainContent).1
    simp only [Continue]
    rw [always_bind, always_openWrite, openExistingFile, if_pos present]
    refine ⟨trivial, ?_⟩
    have reached := settled_kept looked (.openWrite .main) trivial still
    simp only [Except.mapError, Continue]
    rw [always_bind, Action.always_owning, Action.always_attempt]
    apply Action.Always.mono (openLocked_settled _ rfl opened overlay long .unlocked _ reached)
    rintro after level res ⟨pager, rfl⟩
    exact ⟨pager, rfl⟩
  have ended := always.exec
  generalize ran : (openPager pageSize).exec (crashVfs reader) () (Machine.boot world) =
    outcome at ended
  rcases outcome with ⟨after, ⟨⟩, res⟩
  rcases ended with ⟨fresh, rfl⟩
  exact ⟨after.world, fresh, exec_crashVfs reader _ () _ _ _ _ ran⟩

end Open

end SqliteRs
