import SqliteRs.Journal
import SqliteRs.PageCache
import SqliteRs.WalIndex
import SqliteRs.WalWriter

/-!
The pager. It reads a page from its uncommitted edits, then from the committed
frames of the `-wal` file as of its opening and its own commits, then from its
cache, then from the main file. A flush commits the edits, through the rollback
journal or as frames appended to the `-wal` file. Free pages are listed by trunk
pages; the header on page 1 holds the first trunk, the number of free pages and the
size of the database. A transaction is a program over page operations: it may decide
what to do next from what it has read.

A method that changes the pager keeps its changes when it returns an error, as
the receiver of the source does. Display texts of errors are left out.
-/

namespace SqliteRs

open ByteFile
open SqliteRs.Action (free zoom attempt owning check when)

inductive JournalMode where
  | legacy
  | wal
  deriving DecidableEq, Repr

inductive SynchronousMode where
  | off
  | normal
  | full
  deriving DecidableEq, Repr

inductive PageError where
  | invalidPageNumber
  | shortRead (pageNum : UInt32) (expected got : Nat)
  | wrongLength (pageNum : UInt32) (expected got : Nat)
  | vfs (source : VfsError)
  deriving DecidableEq, Repr

inductive FreelistError where
  | pageTooShort (offset len : Nat)
  deriving DecidableEq, Repr

inductive PagerError where
  | hotJournal
  | journal (source : JournalError)
  | wal (source : WalError)
  | page (source : PageError)
  | vfs (source : VfsError)
  | freelist (source : FreelistError)
  | pendingTransaction
  | checkpointIncomplete
  deriving DecidableEq, Repr

def journalToPagerError : JournalError → PagerError
  | .vfs source => .vfs source
  | other => .journal other

structure Pager where
  lock : LockLevel
  txLockLevel : LockLevel
  walLock : Option Nat
  walShm : Option Handle
  walResume : Option WalResumeHint
  source : Handle
  walPages : PageMap
  dirty : PageMap
  pageCache : PageCache
  pageSize : UInt32
  journalMode : JournalMode
  synchronous : SynchronousMode

abbrev PagerM (Result : Type) : Type := Vfs Pager PagerError Result

def pageCountOffset : Nat := 28

def freelistTrunkPageOffset : Nat := 32

def freelistPageCountOffset : Nat := 36

def readBeU32 (buf : Bytes) (offset : Nat) : Except FreelistError UInt32 :=
  match be32At buf offset with
  | some value => .ok value
  | none => .error (.pageTooShort offset buf.length)

/-- An in-place write to a page buffer: the buffer stays as far as it was written. -/
def writeBeU32 (buf : Bytes) (offset : Nat) (value : UInt32) :
    Bytes × Except FreelistError Unit :=
  if offset + 4 ≤ buf.length then (writeAt buf offset (be32Bytes value), .ok ())
  else (buf, .error (.pageTooShort offset buf.length))

section PageSource

variable {State : Type}

def readPageAt (source : Handle) (pageSize pageNum : UInt32) : Vfs State PageError Bytes :=
  if pageNum = 0 then Action.throw .invalidPageNumber
  else do
    let buf ← Vfs.readAt .vfs source (pageOffset pageSize pageNum) pageSize.toNat
    if buf.length = pageSize.toNat then pure buf
    else Action.throw (.shortRead pageNum pageSize.toNat buf.length)

def writePageAt (source : Handle) (pageSize pageNum : UInt32) (bytes : Bytes) :
    Vfs State PageError Unit :=
  if pageNum = 0 then Action.throw .invalidPageNumber
  else if bytes.length ≠ pageSize.toNat then
    Action.throw (.wrongLength pageNum pageSize.toNat bytes.length)
  else Vfs.writeAt .vfs source (pageOffset pageSize pageNum) bytes

end PageSource

def journalModeFromPage1 (page1 : Bytes) : JournalMode :=
  if readAt page1 18 2 = [2, 2] then .wal else .legacy

def readWalPages (pageSize : UInt32) : Vfs Unit PagerError PageMap := do
  if ← Vfs.fileExists .vfs .wal then
    let walFile ← Vfs.openRead .vfs .wal
    let size ← Vfs.size .vfs walFile
    if size < headerLen then pure OrderedMap.empty
    else
      let bytes ← Vfs.readAt .vfs walFile 0 size
      if bytes.length < headerLen then pure OrderedMap.empty
      else
        match WalHeader.parse bytes with
        | .error source => Action.throw (.wal source)
        | .ok header =>
          if header.pageSize ≠ pageSize then
            Action.throw (.wal (.invalidPageSize header.pageSize))
          else pure (committedPages header bytes).1
  else pure OrderedMap.empty

def recoverHotJournal (dbFile : Handle) : Vfs Unit PagerError Unit := do
  let journalFile ← Vfs.openRead .vfs .journal
  let size ← Vfs.size .vfs journalFile
  let journalBytes ← Vfs.readAt .vfs journalFile 0 size
  let recovered ← free journalToPagerError (recover journalBytes dbFile)
  Vfs.truncate .vfs dbFile (recovered.initialPageCount.toNat * recovered.pageSize.toNat)
  Vfs.sync .vfs dbFile
  Vfs.delete .vfs .journal

namespace Pager

def journalIsHot : Vfs Unit PagerError Bool := do
  if ← Vfs.fileExists .vfs .journal then
    let journal ← Vfs.openRead .vfs .journal
    let magic ← Vfs.readAt .vfs journal 0 journalMagic.length
    pure (magic = journalMagic)
  else pure false

/-- Recovery under the lock: refused while another process is writing. -/
def recoverIfHot (hot : Bool) (dbFile : Handle) : Vfs LockLevel PagerError Unit :=
  if hot then do
    if ← Vfs.probeLock .vfs .reserved then Action.throw (.vfs (.locked .main))
    else
      zoom id (fun _ level => level) .vfs (setLevel .exclusive)
      free id (recoverHotJournal dbFile)
      zoom id (fun _ level => level) .vfs (setLevel .shared)
  else pure ()

/-- The overlay as of the claimed reader mark; the mark is released if it cannot be read. -/
def claimOverlay (pageSize : UInt32) : Vfs Unit PagerError (Option Nat × PageMap) := do
  let walLock ← free .vfs WalIndex.claimWalReadLock
  match ← attempt (readWalPages pageSize) with
  | .ok walPages => pure (walLock, walPages)
  | .error error =>
    free .vfs (WalIndex.dropGuard (walLock.map Region.walRead))
    Action.throw error

def finishOpen (pageSize : UInt32) (dbFile : Handle) : Vfs LockLevel PagerError Pager := do
  let (walLock, walPages) ← free id (claimOverlay pageSize)
  match ← attempt (readPageAt dbFile pageSize 1) with
  | .ok page1 =>
    let lock ← Action.get
    pure
      { lock
        txLockLevel := .shared
        walLock
        walShm := none
        walResume := none
        source := dbFile
        walPages
        dirty := OrderedMap.empty
        pageCache := PageCache.new defaultPageCacheCapacity
        pageSize
        journalMode := journalModeFromPage1 page1
        synchronous := .full }
  | .error error =>
    free .vfs (WalIndex.dropGuard (walLock.map Region.walRead))
    Action.throw (.page error)

def openLocked (pageSize : UInt32) (hot : Bool) (dbFile : Handle) :
    Vfs LockLevel PagerError Pager := do
  zoom id (fun _ level => level) .vfs (setLevel .shared)
  recoverIfHot hot dbFile
  finishOpen pageSize dbFile

/-- Opens the database. An open that fails drops the locks it took. -/
def openPager (pageSize : UInt32) : Vfs Unit PagerError Pager := do
  let hot ← journalIsHot
  let dbFile ← Vfs.openWrite .vfs .main
  let (level, result) ← owning .unlocked (attempt (openLocked pageSize hot dbFile))
  match result with
  | .ok pager => pure pager
  | .error error =>
    let _ ← owning level
      (attempt (setLevel .unlocked) : Vfs LockLevel PagerError (Except VfsError Unit))
    Action.throw error

def setLockLevel (level : LockLevel) : PagerM Unit :=
  zoom Pager.lock (fun pager lock => { pager with lock }) .vfs (setLevel level)

def releaseTxLock : PagerM Unit := do
  let pager ← Action.get
  if LockLevel.shared < pager.txLockLevel then
    setLockLevel .shared
    Action.modify fun released => { released with txLockLevel := .shared }
  else pure ()

def beginImmediate : PagerM Unit := do
  setLockLevel .reserved
  Action.modify fun pager => { pager with txLockLevel := .reserved }

def beginExclusive : PagerM Unit := do
  setLockLevel .exclusive
  Action.modify fun pager => { pager with txLockLevel := .exclusive }

def rollback : PagerM Unit := do
  Action.modify fun pager => { pager with dirty := OrderedMap.empty }
  releaseTxLock

def setSynchronous (mode : SynchronousMode) (pager : Pager) : Pager :=
  { pager with synchronous := mode }

def readCached (pageNum : UInt32) : Vfs Pager PageError Bytes := do
  let pager ← Action.get
  let (cache, hit) := pager.pageCache.get pageNum
  Action.modify fun touched => { touched with pageCache := cache }
  match hit with
  | some page => pure page
  | none =>
    Action.modify fun full => { full with pageCache := full.pageCache.evictOneIfFull }
    let bytes ← readPageAt pager.source pager.pageSize pageNum
    Action.modify fun filled => { filled with pageCache := filled.pageCache.insert pageNum bytes }
    pure bytes

def readPage (pageNum : UInt32) : Vfs Pager PageError Bytes := do
  let pager ← Action.get
  match pager.dirty.get pageNum with
  | some page => pure page
  | none =>
    match pager.walPages.get pageNum with
    | some page => pure page
    | none => readCached pageNum

def readBelow (pageNum : UInt32) : PagerM Bytes := do
  let pager ← Action.get
  match pager.walPages.get pageNum with
  | some page => pure page
  | none => free .page (readPageAt pager.source pager.pageSize pageNum)

def getPageMut (pageNum : UInt32) : PagerM Bytes := do
  Action.modify fun pager => { pager with pageCache := pager.pageCache.invalidate pageNum }
  let pager ← Action.get
  match pager.dirty.get pageNum with
  | some page => pure page
  | none =>
    let page ← readBelow pageNum
    Action.modify fun vacant => { vacant with dirty := vacant.dirty.insert pageNum page }
    pure page

def editPage (pageNum : UInt32) (edit : Bytes → Bytes × Except PagerError Unit) : PagerM Unit := do
  let page ← getPageMut pageNum
  Action.modify fun pager => { pager with dirty := pager.dirty.insert pageNum (edit page).1 }
  check (edit page).2

def readPageM (pageNum : UInt32) : PagerM Bytes :=
  zoom id (fun _ pager => pager) .page (readPage pageNum)

def writeRecords (writer : JournalWriter) (source : Handle) (pageSize : UInt32) :
    Nat → List UInt32 → PagerM Unit
  | _, [] => pure ()
  | index, pageNum :: rest => do
      let orig ← free .page (readPageAt source pageSize pageNum)
      free journalToPagerError (writer.writeRecord index pageNum orig)
      writeRecords writer source pageSize (index + 1) rest

def writeJournalWith (header : JournalHeader) (toJournal : List UInt32) : PagerM Unit := do
  let pager ← Action.get
  let writer ← free journalToPagerError
    (JournalWriter.create header.pageSize header.sectorSize header.initialPageCount header.nRec
      header.nonce)
  writeRecords writer pager.source pager.pageSize 0 toJournal
  when (pager.synchronous ≠ .off) (free journalToPagerError writer.sync)

def writeJournal (initialPageCount : UInt32) (toJournal : List UInt32) : PagerM Unit := do
  let pager ← Action.get
  let nonce ← Vfs.randomNonce .vfs
  writeJournalWith
    { nRec := UInt32.ofNat toJournal.length, nonce, initialPageCount, sectorSize := pager.pageSize,
      pageSize := pager.pageSize } toJournal

def writeDirty (source : Handle) (pageSize : UInt32) : List (UInt32 × Bytes) → PagerM Unit
  | [] => pure ()
  | (pageNum, bytes) :: rest => do
      free .page (writePageAt source pageSize pageNum bytes)
      writeDirty source pageSize rest

def flushLocked : PagerM Unit := do
  let pager ← Action.get
  let page1 ← free .page (readPageAt pager.source pager.pageSize 1)
  let initialPageCount ← check ((readBeU32 page1 pageCountOffset).mapError .freelist)
  let toJournal := pager.dirty.keys.filter fun pageNum => pageNum ≤ initialPageCount
  when (!toJournal.isEmpty) (writeJournal initialPageCount toJournal)
  writeDirty pager.source pager.pageSize pager.dirty.entries
  when (pager.synchronous = .full) (Vfs.sync .vfs pager.source)
  when (!toJournal.isEmpty) (Vfs.delete .vfs .journal)
  Action.modify fun committed => { committed with dirty := OrderedMap.empty }

/-- One frame a dirty page; only the last carries the database size. -/
def commitFrames (postPageCount : UInt32) : List (UInt32 × Bytes) → List WalFrame
  | [] => []
  | [(pageNum, bytes)] => [⟨pageNum, postPageCount, bytes⟩]
  | (pageNum, bytes) :: rest => ⟨pageNum, 0, bytes⟩ :: commitFrames postPageCount rest

def createWal : PagerM WalWriter := do
  let pager ← Action.get
  let salt1 ← Vfs.randomNonce .vfs
  let salt2 ← Vfs.randomNonce .vfs
  free .wal
    (WalWriter.create (WalHeader.new true pager.pageSize salt1 (salt2 ^^^ 0x5A5A5A5A) 1))

def createShm : PagerM (Option Handle) := do
  let shmFile ← Vfs.createOrOpenWrite .vfs .shm
  Vfs.writeAt .vfs shmFile 0 WalIndex.freshShmBytes
  Vfs.sync .vfs shmFile
  free .vfs WalIndex.openWalShm

/-- A new `-wal` and `-shm` pair in place of a `-wal` file that vanished. -/
def recreateWalLocked : PagerM WalWriter := do
  let writer ← createWal
  let walShm ← createShm
  Action.modify fun recreated => { recreated with walShm, walResume := none }
  pure writer

def openOrRecreateWal : PagerM WalWriter := do
  let pager ← Action.get
  match ← attempt
      (free id (WalWriter.openExisting pager.pageSize pager.walResume)) with
  | .ok writer => pure writer
  | .error (.vfs (.notFound _)) => recreateWalLocked
  | .error source => Action.throw (.wal source)

def publishFrameCount (walShm : Option Handle) (frame : UInt32) : PagerM Unit :=
  match walShm with
  | some shm => free .vfs (WalIndex.publishMxFrame shm frame)
  | none => free .vfs (WalIndex.publishWalMxFrame frame)

/-- The commit under the write lock. Frames reach the file only if they are synced. -/
def appendCommit (entries : List (UInt32 × Bytes)) : PagerM Unit := do
  let page1 ← readPageM 1
  let postPageCount ← check ((readBeU32 page1 pageCountOffset).mapError .freelist)
  let opened ← openOrRecreateWal
  let pager ← Action.get
  let (writer, _) ← zoom id (fun kept _ => kept) .wal
    (owning opened do
      WalWriter.appendFrames (commitFrames postPageCount entries)
      when (pager.synchronous = .full) WalWriter.sync)
  Action.modify fun resumed => { resumed with walResume := some writer.resumeHint }
  publishFrameCount pager.walShm writer.frameCount

def cacheWalShm : PagerM Unit := do
  let walShm ← free .vfs WalIndex.openWalShm
  Action.modify fun cached => { cached with walShm }

/-- The write lock through the cached handle, or through a guard when there is none. -/
def claimWalWriter (walShm : Option Handle) : PagerM (Option Region) :=
  match walShm with
  | none => free .vfs WalIndex.claimWalWriteLock
  | some _ => do
      free .vfs WalIndex.claimWriteLock
      pure none

def releaseWalWriter (walShm : Option Handle) (fallbackGuard : Option Region) : PagerM Unit := do
  when walShm.isSome (free .vfs (WalIndex.dropGuard (some .walWrite)))
  free .vfs (WalIndex.dropGuard fallbackGuard)

def flushWalLocked : PagerM Unit := do
  let start ← Action.get
  let entries := start.dirty.entries
  when start.walShm.isNone cacheWalShm
  let pager ← Action.get
  let fallbackGuard ← claimWalWriter pager.walShm
  let outcome ← attempt (appendCommit entries)
  let after ← Action.get
  releaseWalWriter after.walShm fallbackGuard
  check outcome
  Action.modify fun committed =>
    { committed with walPages := committed.walPages.writes entries, dirty := OrderedMap.empty }

def flush : PagerM Unit := do
  let pager ← Action.get
  if pager.dirty.isEmpty then releaseTxLock
  else if pager.journalMode = .wal then
    let result ← attempt flushWalLocked
    releaseTxLock
    check result
  else
    setLockLevel .exclusive
    let result ← attempt flushLocked
    setLockLevel .shared
    Action.modify fun released => { released with txLockLevel := .shared }
    check result

end Pager


def maxLeavesPerTrunk (pageSize : UInt32) : Nat := (pageSize.toNat - 8) / 4

structure TrunkPage where
  nextTrunk : UInt32
  leaves : List UInt32
  deriving DecidableEq, Repr

namespace TrunkPage

def readLeaves (buf : Bytes) : Nat → Nat → Except FreelistError (List UInt32)
  | 0, _ => .ok []
  | count + 1, index =>
    match readBeU32 buf (8 + index * 4) with
    | .error error => .error error
    | .ok leaf =>
      match readLeaves buf count (index + 1) with
      | .error error => .error error
      | .ok rest => .ok (leaf :: rest)

/-- A count that claims more leaves than fit is cut to what fits. -/
def parse (buf : Bytes) : Except FreelistError TrunkPage :=
  match readBeU32 buf 0, readBeU32 buf 4 with
  | .error error, _ => .error error
  | .ok _, .error error => .error error
  | .ok nextTrunk, .ok claimed =>
    (readLeaves buf (min claimed.toNat ((buf.length - 8) / 4)) 0).map fun leaves =>
      { nextTrunk, leaves }

def writeLeaves : Nat → List UInt32 → Bytes → Bytes × Except FreelistError Unit
  | _, [], buf => (buf, .ok ())
  | index, leaf :: rest, buf =>
    match writeBeU32 buf (8 + index * 4) leaf with
    | (written, .error error) => (written, .error error)
    | (written, .ok ()) => writeLeaves (index + 1) rest written

def fillTail (start : Nat) (buf : Bytes) : Bytes :=
  buf.take start ++ zeros (buf.length - start)

def write (trunk : TrunkPage) (buf : Bytes) : Bytes × Except FreelistError Unit :=
  match writeBeU32 buf 0 trunk.nextTrunk with
  | (first, .error error) => (first, .error error)
  | (first, .ok ()) =>
    match writeBeU32 first 4 (UInt32.ofNat trunk.leaves.length) with
    | (second, .error error) => (second, .error error)
    | (second, .ok ()) =>
      match writeLeaves 0 trunk.leaves second with
      | (third, .error error) => (third, .error error)
      | (third, .ok ()) => (fillTail (8 + trunk.leaves.length * 4) third, .ok ())

end TrunkPage

namespace Pager

def patchPage (pageNum : UInt32) (edit : Bytes → Bytes × Except FreelistError Unit) :
    PagerM Unit :=
  editPage pageNum fun page => ((edit page).1, (edit page).2.mapError .freelist)

def headerField (page1 : Bytes) (offset : Nat) : PagerM UInt32 :=
  Action.check ((readBeU32 page1 offset).mapError .freelist)

def parseTrunk (buf : Bytes) : PagerM TrunkPage :=
  Action.check ((TrunkPage.parse buf).mapError .freelist)

/-- Pops the last leaf of a trunk, or takes the trunk itself when it lists none. -/
def popTrunk (trunkPage : UInt32) (trunk : TrunkPage) : PagerM (UInt32 × UInt32) :=
  match trunk.leaves.getLast? with
  | some leaf => do
      patchPage trunkPage ({ trunk with leaves := trunk.leaves.dropLast } : TrunkPage).write
      pure (leaf, trunkPage)
  | none => pure (trunkPage, trunk.nextTrunk)

def allocatePage : PagerM UInt32 := do
  let header ← readPageM 1
  let pageCount ← headerField header pageCountOffset
  let trunkPage ← headerField header freelistTrunkPageOffset
  let freeCount ← headerField header freelistPageCountOffset
  if trunkPage = 0 then
    -- The source adds with saturation at the largest page number.
    let newPageNum := if pageCount = 0xFFFFFFFF then pageCount else pageCount + 1
    Action.modify fun pager =>
      { pager with dirty := pager.dirty.insert newPageNum (zeros pager.pageSize.toNat) }
    patchPage 1 fun page => writeBeU32 page pageCountOffset newPageNum
    pure newPageNum
  else
    let trunkBuf ← readPageM trunkPage
    let trunk ← parseTrunk trunkBuf
    let (allocated, newTrunkPage) ← popTrunk trunkPage trunk
    patchPage 1 fun page => writeBeU32 page freelistTrunkPageOffset newTrunkPage
    patchPage 1 fun page => writeBeU32 page freelistPageCountOffset (freeCount - min freeCount 1)
    pure allocated

/-- Lists a page on the first trunk if it has room; otherwise the page becomes the first trunk. -/
def pushTrunk (pageNum trunkPage : UInt32) : PagerM UInt32 :=
  if trunkPage ≠ 0 then do
    let trunkBuf ← readPageM trunkPage
    let trunk ← parseTrunk trunkBuf
    let pager ← Action.get
    if trunk.leaves.length < maxLeavesPerTrunk pager.pageSize then
      patchPage trunkPage ({ trunk with leaves := trunk.leaves ++ [pageNum] } : TrunkPage).write
      pure trunkPage
    else
      patchPage pageNum (TrunkPage.mk trunkPage []).write
      pure pageNum
  else do
    patchPage pageNum (TrunkPage.mk 0 []).write
    pure pageNum

def deallocatePage (pageNum : UInt32) : PagerM Unit := do
  let header ← readPageM 1
  let trunkPage ← headerField header freelistTrunkPageOffset
  let freeCount ← headerField header freelistPageCountOffset
  let newTrunkPage ← pushTrunk pageNum trunkPage
  patchPage 1 fun page => writeBeU32 page freelistTrunkPageOffset newTrunkPage
  patchPage 1 fun page => writeBeU32 page freelistPageCountOffset
    (if freeCount = 0xFFFFFFFF then freeCount else freeCount + 1)

end Pager

/-- A change of a page buffer in place: it cannot change the length. -/
structure PageEdit where
  apply : Bytes → Bytes
  keepsLength : ∀ page, (apply page).length = page.length

inductive PageCall where
  | read (pageNum : UInt32)
  | edit (pageNum : UInt32) (edit : PageEdit)
  | allocate
  | deallocate (pageNum : UInt32)

def PageCall.Reply : PageCall → Type
  | .read _ => Bytes
  | .edit _ _ => Unit
  | .allocate => UInt32
  | .deallocate _ => Unit

def PageCalls : Interface := ⟨PageCall, PageCall.Reply, PagerError⟩

/-- The page operations of one transaction, each chosen from the answers before it. -/
abbrev Transaction : Type := Program PageCalls Unit

namespace Pager

def pageCall : (call : PageCall) → PagerM call.Reply
  | .read pageNum => readPageM pageNum
  | .edit pageNum edit => editPage pageNum fun page => (edit.apply page, .ok ())
  | .allocate => allocatePage
  | .deallocate pageNum => deallocatePage pageNum

def perform : Transaction → PagerM Unit
  | .done () => pure ()
  | .call request resume => do
      let reply ← Action.attempt (pageCall request)
      perform (resume reply)

end Pager

end SqliteRs
