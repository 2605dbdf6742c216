import SqliteRs.WalFlush

/-!
Commits in WAL mode as the next pager sees them. A pager is opened, its pages are
edited and flushed any number of times, at any levels, and another pager is opened
on the files the last flush left. The second pager reads what the first one committed
exactly if the frames were put behind the valid ones with a commit among them, the
file's tail added nothing and no earlier commit was lost, or if the file had it all.
-/

namespace SqliteRs

open List Option OrderedMap WalHeader Pager

open ByteFile

variable {before after : World} {pager : Pager} {post : UInt32}

section Tail

def leftoverFrames : Option Bytes → List WalFrame
  | none => []
  | some walBytes =>
    match WalHeader.parse walBytes with
    | .error _ => []
    | .ok header => abandonedFrames header walBytes

/-- Frames that appear behind the appended ones because old bytes continue their checksum. -/
def trailingFrames (frames : List WalFrame) : Option Bytes → List WalFrame
  | none => []
  | some walBytes =>
    match WalHeader.parse walBytes with
    | .error _ => []
    | .ok header => strayFrames header walBytes frames

end Tail

theorem writeAt_header {base : Bytes} {offset : Nat} (behind : headerLen ≤ offset)
    (inside : offset ≤ base.length) (bytes : Bytes) : headerLen ≤ (writeAt base offset bytes).length ∧
      (writeAt base offset bytes).take headerLen = base.take headerLen := by
  have front : headerLen ≤ (base.take offset).length := by
    rw [length_take]
    omega
  rw [writeAt_eq_append _ _ _ inside]
  constructor
  · rw [length_append]
    omega
  rw [take_append_of_le_length front, take_take]
  congr 1
  omega

namespace WalHeader

theorem parse_serialize (header : WalHeader)
    (summed : checksum header.nativeChecksum header.checksummed (0, 0) = header.headerChecksum) :
    parse header.serialize = if validPageSize header.pageSize then .ok header
      else .error (.invalidPageSize header.pageSize) := by
  have word : ∀ off value, readAt header.serialize off 4 = be32Bytes value →
      readU32 header.serialize off = value := by
    intro off value stored
    rw [readU32, stored, be32_be32Bytes]
  have front : readAt header.serialize 0 24 = header.checksummed := rfl
  have fields : parseFields header.serialize header.nativeChecksum =
      if validPageSize header.pageSize then .ok header
      else .error (.invalidPageSize header.pageSize) := by
    simp [parseFields, word 4 header.formatVersion rfl, word 8 header.pageSize rfl,
      word 12 header.checkpointSeq rfl, word 16 header.salt1 rfl, word 20 header.salt2 rfl,
      word 24 header.headerChecksum.1 rfl, word 28 header.headerChecksum.2 rfl, front, summed]
  have long : ¬ header.serialize.length < headerLen := by
    rw [length_serialize]
    exact Nat.lt_irrefl _
  rw [parse, if_neg long, word 0 (magic header.nativeChecksum) rfl]
  cases native : header.nativeChecksum with
  | true =>
    rw [native] at fields
    simp only [magic, if_true]
    exact fields
  | false =>
    have other : (0x377f0683 : UInt32) ≠ 0x377f0682 := by simp
    rw [native] at fields
    simp only [magic, Bool.false_eq_true, if_false, if_true, other]
    exact fields

theorem new_checksum (nativeChecksum : Bool) (pageSize salt1 salt2 checkpointSeq : UInt32) :
    checksum (new nativeChecksum pageSize salt1 salt2 checkpointSeq).nativeChecksum
        (new nativeChecksum pageSize salt1 salt2 checkpointSeq).checksummed (0, 0) =
      (new nativeChecksum pageSize salt1 salt2 checkpointSeq).headerChecksum := by
  simp [new, checksummed]

end WalHeader

namespace CommitBase

variable {pageSize : UInt32} {before : Option Bytes} {hdr : WalHeader} {base : Bytes}

theorem parse_eq (start : CommitBase pageSize before hdr base) (found : WalHeader)
    (parsed : parse base = .ok found) : found = hdr := by
  cases start with
  | existing _ _ known _ =>
    rw [known] at parsed
    cases parsed
    rfl
  | recreated salt1 salt2 =>
    rw [parse_serialize _ (new_checksum _ _ _ _ _)] at parsed
    split at parsed
    · cases parsed
      rfl
    · cases parsed

theorem walFrames_recreated (salt1 salt2 : UInt32) : walFrames (new true pageSize salt1 salt2 1)
      (new true pageSize salt1 salt2 1).serialize = [] := by
  have dropped : (new true pageSize salt1 salt2 1).serialize.drop headerLen = [] :=
    drop_eq_nil_of_le (Nat.le_of_eq (length_serialize _))
  rw [walFrames, dropped]
  rfl

section

variable (start : CommitBase pageSize before hdr base)

include start

theorem leftover : leftoverFrames before = abandonedFrames hdr base := by
  cases start with
  | existing _ _ known _ => simp only [leftoverFrames, known]
  | recreated salt1 salt2 =>
    rw [abandonedFrames, walFrames_recreated]
    rfl

variable (frames : List WalFrame)

theorem trailing : trailingFrames frames before = strayFrames hdr base frames := by
  cases start with
  | existing _ _ known _ => simp only [trailingFrames, known]
  | recreated salt1 salt2 =>
    have short : (new true pageSize salt1 salt2 1).serialize.length ≤ headerLen +
        (0 + frames.length) * (new true pageSize salt1 salt2 1).frameSize := by
      rw [length_serialize]
      exact Nat.le_add_right _ _
    rw [strayFrames, walFrames_recreated, length_nil, drop_eq_nil_of_le short]
    rfl

theorem overlay_of_header (log : Bytes) (long : headerLen ≤ log.length)
    (same : log.take headerLen = base.take headerLen) (pages : PageMap)
    (read : walOverlay pageSize (some log) = .ok pages) : pages = (committedPages hdr log).1 := by
  have parsedSame := parse_congr log base long start.long same
  simp only [walOverlay, Nat.not_lt.mpr long, if_false, parsedSame] at read
  cases parsed : parse base with
  | error error => simp [parsed] at read
  | ok found =>
    have known := start.parse_eq found parsed
    subst known
    simp only [parsed, start.fits, ne_eq, not_true_eq_false, if_false, Except.ok.injEq] at read
    exact read.symm

theorem overlay_before : walOverlay pageSize before = .ok (committedPages hdr base).1 := by
  cases start with
  | existing _ _ known fits =>
    simp [walOverlay, Nat.not_lt.mpr (parse_long _ _ known), known, fits]
  | recreated salt1 salt2 =>
    rw [committedPages_frames, walFrames_recreated]
    rfl

end

end CommitBase

theorem committed_write (header : WalHeader) (log : Bytes) (pageNum : UInt32) (page : Bytes)
    (found : lastWrite pageNum (frameWrites (committedFrames (walFrames header log))) = some page) :
    ∃ frame ∈ walFrames header log, frame.content = page := by
  have written := mem_of_last_write _ _ _ found
  obtain ⟨frame, mem, same⟩ := mem_map.mp written
  cases same
  refine ⟨frame, ?_, rfl⟩
  rw [← CommitLog.committed_append_uncommitted WalFrame.commits (walFrames header log)]
  exact mem_append_left _ mem

theorem walOverlay_sized (pageSize : UInt32) (content : Option Bytes) (pages : PageMap)
    (read : walOverlay pageSize content = .ok pages) (pageNum : UInt32) (page : Bytes)
    (found : pages.get pageNum = some page) : page.length = pageSize.toNat := by
  cases content with
  | none =>
    cases read
    simp at found
  | some log =>
    simp only [walOverlay] at read
    split at read
    · cases read
      simp at found
    cases parsed : parse log with
    | error error => simp [parsed] at read
    | ok header =>
      simp only [parsed] at read
      split at read
      · cases read
      rename_i fits
      cases read
      rw [committedPages_frames, get_writes, get_empty, or_none] at found
      obtain ⟨frame, mem, rfl⟩ := committed_write header log pageNum page found
      rw [← not_not.mp fits]
      exact walFrames_sized header log frame mem

section

variable {pageSize : UInt32} {before after : World} {pager : Pager}
  (opened : Opened pageSize before after pager)
include opened

theorem Opened.sound : pager.Sound after := by
  refine ⟨?_, ?_, ?_⟩
  · rw [opened.cache]
    exact PageCache.within_new _
  · intro pageNum page found
    rw [opened.dirty] at found
    simp at found
  · intro pageNum page found
    rw [opened.size]
    exact walOverlay_sized pageSize _ _ opened.overlay pageNum page found

theorem Opened.walReady : pager.WalReady := by
  constructor
  · rw [opened.walShm]
    simp
  · rw [opened.walResume]
    simp

end

/-- A run of open, commits, one more flush and reopen: the states around that flush. -/
structure FlushReport where
  opened : Pager
  before : World
  edited : Pager
  after : World
  fresh : Pager

/-- Sets the level, edits pages and flushes; nothing if the flush fails. -/
def commitOnce (writer : Nat) (held : World × Pager) (commit : SynchronousMode × Transaction) :
    Option (World × Pager) :=
  let edits := (Pager.perform commit.2).exec (unixVfs writer) (held.2.setSynchronous commit.1) held.1
  match Pager.flush.exec (unixVfs writer) edits.state edits.world with
  | ⟨_, _, .error _⟩ => none
  | ⟨flushed, last, .ok ()⟩ => some (flushed, last)

/-- Opens a pager, makes the earlier commits and one more, and opens another pager; nothing if a
step fails. -/
def flushAndReopen (writer reader : Nat) (pageSize : UInt32)
    (earlier : List (SynchronousMode × Transaction)) (level : SynchronousMode)
    (transaction : Transaction) (start : World) : Option FlushReport :=
  match (Pager.openPager pageSize).exec (unixVfs writer) () start with
  | ⟨_, _, .error _⟩ => none
  | ⟨world, _, .ok opened⟩ =>
    match earlier.foldlM (commitOnce writer) (world, opened) with
    | none => none
    | some (world, pager) =>
      let edits := (Pager.perform transaction).exec (unixVfs writer) (pager.setSynchronous level)
        world
      match Pager.flush.exec (unixVfs writer) edits.state edits.world with
      | ⟨_, _, .error _⟩ => none
      | ⟨flushed, _, .ok ()⟩ =>
        match (Pager.openPager pageSize).exec (unixVfs reader) () flushed with
        | ⟨_, _, .error _⟩ => none
        | ⟨after, _, .ok fresh⟩ => some ⟨opened, edits.world, edits.state, after, fresh⟩

def FlushReport.committedPage (report : FlushReport) (proc : Nat) (pageNum : UInt32) :
    Except PageError Bytes :=
  ((Pager.readPage pageNum).exec (unixVfs proc) report.edited report.before).result

def FlushReport.rereadPage (report : FlushReport) (proc : Nat) (pageNum : UInt32) :
    Except PageError Bytes :=
  ((Pager.readPage pageNum).exec (unixVfs proc) report.fresh report.after).result

namespace Pager

variable (world : World) (pager : Pager)

def postPageCount : UInt32 :=
  match pager.view world 1 with
  | .error _ => 0
  | .ok page1 => (readBeU32 page1 pageCountOffset).toOption.getD 0

def flushFrames : List WalFrame := commitFrames (pager.postPageCount world) pager.dirty.entries

def strayTail : List WalFrame := trailingFrames (pager.flushFrames world) (world.content .wal)

def filedPages : PageMap :=
  (walOverlay pager.pageSize (world.content .wal)).toOption.getD OrderedMap.empty

/-- What a pager opened on the files as they are reads. -/
def filed (pageNum : UInt32) : Except PageError Bytes :=
  ((pager.filedPages world).get pageNum).elim (mainPage world pager.source pager.pageSize pageNum) .ok

/-- The flush puts frames behind the valid ones of the file, and a commit is among them. -/
def Publishes : Prop :=
  pager.dirty.entries ≠ [] ∧ pager.synchronous = .full ∧ pager.Resumes (world.content .wal) ∧
    (pager.flushFrames world ++ pager.strayTail world).any WalFrame.commits = true

/-- The frames of others that the commit makes visible show nothing new, and the rest of the
file shows what the pager reads. -/
structure TailAgrees : Prop where
  stray : ∀ pageNum page,
    OrderedMap.lastWrite pageNum (frameWrites (committedFrames (pager.strayTail world))) =
      some page → pager.view world pageNum = .ok page
  leftover : ∀ pageNum page,
    OrderedMap.lastWrite pageNum (frameWrites (leftoverFrames (world.content .wal))) =
      some page →
    pager.dirty.get pageNum = none →
    OrderedMap.lastWrite pageNum (frameWrites (committedFrames (pager.strayTail world))) = none →
    pager.below world pageNum = .ok page
  earlier : ∀ pageNum, pager.dirty.get pageNum = none →
    OrderedMap.lastWrite pageNum (frameWrites (committedFrames (pager.strayTail world))) = none →
    OrderedMap.lastWrite pageNum (frameWrites (leftoverFrames (world.content .wal))) = none →
    pager.filed world pageNum = pager.below world pageNum

def FlushKept : Prop :=
  (pager.Publishes world ∧ pager.TailAgrees world) ∨
    (¬ pager.Publishes world ∧ ∀ pageNum, pager.filed world pageNum = pager.view world pageNum)

/-- A pager in use on its files, through any number of commits. -/
structure Serving : Prop where
  source : pager.source = world.handle .main
  sound : pager.Sound world
  ready : pager.WalReady
  cold : hotJournal world = false

structure Current : Prop extends pager.Serving world where
  overlay : walOverlay pager.pageSize (world.content .wal) = .ok pager.walPages

end Pager

theorem Opened.current {pageSize : UInt32}
    (opened : Opened pageSize before after pager) : pager.Current after :=
  { source := opened.source
    overlay := by rw [opened.size]; exact opened.overlay
    sound := opened.sound
    ready := opened.walReady
    cold := opened.cold }

variable {last : Pager} {start : WalStart}

theorem WalAppended.post_eq {entries : List (UInt32 × Bytes)}
    (append : WalAppended entries before after pager last start post) :
    pager.postPageCount before = post := by
  obtain ⟨page1, viewed, count⟩ := append.postCount
  simp [postPageCount, viewed, count, Except.toOption, getD_some]

theorem WalAppended.stray_eq
    (append : WalAppended pager.dirty.entries before after pager last start post) :
    pager.strayTail before =
      strayFrames start.header start.base (commitFrames post pager.dirty.entries) := by
  rw [strayTail, flushFrames, append.post_eq, append.base.trailing]

theorem WalAppended.filed_eq
    (append : WalAppended pager.dirty.entries before after pager last start post) :
    pager.filedPages before = (committedPages start.header start.base).1 := by
  rw [filedPages, append.base.overlay_before]
  rfl

/-- A writer starts behind whole frames. -/
theorem WalStart.Follows.aligned {log : Option Bytes}
    (follows : start.Follows log pager) (long : headerLen ≤ start.base.length) :
    start.offset ≤ start.base.length ∧
      ∃ count, start.offset = headerLen + count * start.header.frameSize := by
  rcases follows with ⟨-, state⟩ | ⟨-, place, whole, -⟩
  · rw [lastValidFrameState_frames, Prod.mk.injEq] at state
    rw [state.1]
    exact ⟨walFrames_inside _ _ long, _, rfl⟩
  · rw [place]
    exact ⟨le_rfl, whole⟩

namespace Pager.Serving

variable {before : World} {pager : Pager}

theorem edited {after : Pager} (serving : pager.Serving before) (base : SameBase pager after)
    (sound : after.Sound before) : after.Serving before := by
  have kept := base
  rw [SameBase] at kept
  refine { source := ?_, sound := sound, ready := ⟨?_, ?_⟩, cold := serving.cold }
  · rw [kept]
    exact serving.source
  · rw [kept]
    exact serving.ready.shmPath
  · rw [kept]
    exact serving.ready.hint

theorem onMain (serving : pager.Serving before) : pager.source.path = .main := by
  rw [serving.source]
  rfl

theorem dirty_sized (serving : pager.Serving before) :
    ∀ entry ∈ pager.dirty.entries, entry.2.length = pager.pageSize.toNat := by
  intro entry mem
  have found := (get_eq_some_iff pager.dirty entry.1 entry.2).mpr mem
  exact serving.sound.dirtySized entry.1 entry.2 found

section Append

variable {after : World} {mid : Pager} {post : UInt32} (serving : pager.Serving before)
  (append : WalAppended pager.dirty.entries before after pager mid start post)
include serving append

theorem frames_sized : ∀ frame ∈ commitFrames post pager.dirty.entries,
    frame.Sized start.header := by
  apply commitFrames_sized
  rw [append.base.fits]
  exact serving.dirty_sized

theorem hint_placed : ∀ saved ∈ mid.walResume, saved.header.pageSize = pager.pageSize ∧
    saved.expectedSize = saved.offset ∧
    ∃ count, saved.offset = headerLen + count * saved.header.frameSize := by
  obtain ⟨file, hint⟩ := append.hint
  obtain ⟨-, count, place⟩ := append.follows.aligned append.base.long
  rw [hint]
  rintro _ ⟨rfl⟩
  obtain ⟨-, header, -, offset, -⟩ := WalWriter.appendAll_pending
    (commitFrames post pager.dirty.entries)
    (WalWriter.resumeAt file start.header start.offset start.running)
  refine ⟨(congrArg WalHeader.pageSize header).trans append.base.fits, rfl,
    count + (commitFrames post pager.dirty.entries).length, ?_⟩
  rw [WalWriter.resumeHint, header, offset]
  simp only [WalWriter.resumeAt, length_encodeFrames _ _ _ (serving.frames_sized append), place,
    Nat.add_mul, Nat.add_assoc]

theorem overlay_published (published : pager.Publishes before) (pages : PageMap)
    (read : walOverlay pager.pageSize (after.content .wal) = .ok pages) (pageNum : UInt32) :
    pages.get pageNum =
      ((lastWrite pageNum (frameWrites (committedFrames (pager.strayTail before)))).or
          (pager.dirty.get pageNum)).or
        ((lastWrite pageNum (frameWrites (leftoverFrames (before.content .wal)))).or
          ((pager.filedPages before).get pageNum)) := by
  obtain ⟨-, full, resumes, visible⟩ := published
  have sized := serving.frames_sized append
  obtain ⟨inside, count, place⟩ := append.follows.aligned append.base.long
  obtain ⟨long, same⟩ := writeAt_header (by omega) inside
    (encodeFrames start.header start.running (commitFrames post pager.dirty.entries))
  rw [append.wal, if_pos full] at read
  rw [flushFrames, append.post_eq, append.stray_eq] at visible
  have pagesEq := append.base.overlay_of_header _ long same pages read
  have state := (append.follows.resolve_right fun misled => misled.1 resumes).2
  have appended : writeAt start.base start.offset (encodeFrames start.header start.running
      (commitFrames post pager.dirty.entries)) =
        appendedBytes start.header start.base (commitFrames post pager.dirty.entries) := by
    rw [appendedBytes, ← state]
  rw [pagesEq, appended, get_committedPages_appended _ _ _ append.base.long sized
    (commitFrames_whole post _) visible, frameWrites_commitFrames,
    last_write_entries, append.stray_eq, append.base.leftover, append.filed_eq]
  rfl

theorem overlay_hidden (hidden : ¬ pager.Publishes before) (edited : pager.dirty.entries ≠ [])
    (pages : PageMap) (read : walOverlay pager.pageSize (after.content .wal) = .ok pages) :
    pages = pager.filedPages before := by
  rw [append.filed_eq]
  rw [append.wal] at read
  by_cases full : pager.synchronous = .full
  swap
  · rw [if_neg full] at read
    exact append.base.overlay_of_header _ append.base.long rfl pages read
  have sized := serving.frames_sized append
  obtain ⟨inside, count, place⟩ := append.follows.aligned append.base.long
  obtain ⟨long, same⟩ := writeAt_header (by omega) inside
    (encodeFrames start.header start.running (commitFrames post pager.dirty.entries))
  rw [if_pos full] at read
  rw [append.base.overlay_of_header _ long same pages read, committedPages_frames,
    committedPages_frames]
  rcases append.follows with ⟨resumes, state⟩ | ⟨-, behind, whole, differ⟩
  · have unclosed : (commitFrames post pager.dirty.entries ++ strayFrames start.header start.base
        (commitFrames post pager.dirty.entries)).any WalFrame.commits = false := by
      rw [← Bool.not_eq_true, ← append.stray_eq, ← append.post_eq]
      exact fun closed => hidden ⟨edited, full, resumes, closed⟩
    have kept := committedFrames_unclosed start.header start.base _ append.base.long sized unclosed
    rw [appendedBytes, ← state] at kept
    rw [kept]
  · -- The hint misled the writer: no scan reaches what it wrote.
    rw [behind, writeAt_eq_append _ _ _ le_rfl, take_length,
      drop_of_length_le (Nat.le_add_right _ _), append_nil,
      walFrames_append_unreached _ _ append.base.long whole differ sized]

end Append

section Reopen

variable {flushed after : World} {fresh : Pager}

theorem view_reopened (serving : pager.Serving before)
    (main : World.SamePath .main before flushed) (journal : World.SamePath .journal before flushed)
    (reopened : Opened pager.pageSize flushed after fresh) (pageNum : UInt32) :
    fresh.view after pageNum =
      (fresh.walPages.get pageNum).elim (mainPage before pager.source pager.pageSize pageNum) .ok := by
  have cold : hotJournal flushed = false := by
    rw [hotJournal, journal.content]
    exact serving.cold
  have mainSame := main.trans (reopened.sameWhenCold cold).1
  have src : fresh.source = pager.source := by
    rw [reopened.source, mainSame.handle, serving.source]
  simp [view_eq, reopened.dirty, get_empty, elim_none, below_eq, src, reopened.size,
    mainPage_samePath mainSame pager.source serving.onMain]

theorem published_iff (fresh : Pager) (overlay : ∀ pageNum, fresh.walPages.get pageNum =
      ((lastWrite pageNum (frameWrites (committedFrames (pager.strayTail before)))).or
          (pager.dirty.get pageNum)).or
        ((lastWrite pageNum (frameWrites (leftoverFrames (before.content .wal)))).or
          ((pager.filedPages before).get pageNum)))
    (reread : ∀ pageNum, fresh.view after pageNum =
      (fresh.walPages.get pageNum).elim (mainPage before pager.source pager.pageSize pageNum) .ok) :
    (∀ pageNum, fresh.view after pageNum = pager.view before pageNum) ↔ pager.TailAgrees before := by
  constructor
  · intro same
    refine ⟨?_, ?_, ?_⟩
    · intro pageNum page stray
      rw [← same pageNum, reread pageNum, overlay pageNum, stray]
      rfl
    · intro pageNum page left unedited unstray
      have seen := same pageNum
      rw [reread pageNum, overlay pageNum, left, unedited, unstray, view_eq, unedited] at seen
      exact seen.symm
    · intro pageNum unedited unstray unleft
      have seen := same pageNum
      rw [reread pageNum, overlay pageNum, unleft, unedited, unstray, view_eq, unedited] at seen
      exact seen
  rintro ⟨stray, leftover, earlier⟩ pageNum
  rw [reread pageNum, overlay pageNum]
  -- In the order a reader resolves a page: stray frame, edit, leftover frame, file.
  cases strayPage : OrderedMap.lastWrite pageNum
      (frameWrites (committedFrames (pager.strayTail before))) with
  | some page =>
    rw [stray pageNum page strayPage]
    rfl
  | none =>
    rw [view_eq]
    cases unedited : pager.dirty.get pageNum with
    | some page => rfl
    | none =>
      cases left : OrderedMap.lastWrite pageNum
          (frameWrites (leftoverFrames (before.content .wal))) with
      | some page =>
        have agrees := leftover pageNum page left unedited strayPage
        rw [elim_none, agrees]
        rfl
      | none => exact earlier pageNum unedited strayPage left

theorem flush_reopen_iff {writer : Nat} {last : Pager} (serving : pager.Serving before)
    (mode : pager.journalMode = .wal)
    (ran : flush.exec (unixVfs writer) pager before = ⟨flushed, last, .ok ()⟩)
    (reopened : Opened pager.pageSize flushed after fresh) :
    (∀ pageNum, fresh.view after pageNum = pager.view before pageNum) ↔ pager.FlushKept before := by
  have overlayAfter : walOverlay pager.pageSize (flushed.content .wal) = .ok fresh.walPages := by
    rw [← reopened.sameWal.content]
    exact reopened.overlay
  cases flush_wal_ok writer before flushed pager last serving.onMain serving.sound serving.ready
      mode ran with
  | idle clean same kept =>
    have hidden : ¬ pager.Publishes before := fun published => published.1 clean
    have overlaySame : fresh.walPages = pager.filedPages before := by
      rw [(same .wal).content] at overlayAfter
      rw [filedPages, overlayAfter]
      rfl
    simp only [FlushKept, hidden, false_and, not_false_eq_true, true_and, false_or,
      serving.view_reopened (same .main) (same .journal) reopened, overlaySame]
    rfl
  | committed edited start post mid append kept =>
    have reread := serving.view_reopened append.main append.journal reopened
    by_cases published : pager.Publishes before
    · have overlay := serving.overlay_published append published fresh.walPages overlayAfter
      have kept : pager.FlushKept before ↔ pager.TailAgrees before := by
        simp [FlushKept, published]
      rw [kept]
      exact published_iff fresh overlay reread
    · have overlay := serving.overlay_hidden append published edited fresh.walPages overlayAfter
      simp only [FlushKept, published, false_and, not_false_eq_true, true_and, false_or, reread,
        overlay]
      rfl

end Reopen

/-- A flush leaves the pager in use. -/
theorem flushed {writer : Nat} {after : World} {last : Pager} (serving : pager.Serving before)
    (mode : pager.journalMode = .wal)
    (ran : flush.exec (unixVfs writer) pager before = ⟨after, last, .ok ()⟩) :
    last.Serving after ∧ last.journalMode = .wal ∧ last.pageSize = pager.pageSize := by
  cases flush_wal_ok writer before after pager last serving.onMain serving.sound serving.ready
      mode ran with
  | idle clean same kept =>
    have cold : hotJournal after = false := by
      rw [hotJournal, (same .journal).content]
      exact serving.cold
    have sound := sound_samePath (same .main) serving.onMain serving.sound
    rw [kept]
    exact ⟨⟨by rw [(same .main).handle]; exact serving.source,
      ⟨sound.cache, sound.dirtySized, sound.walSized⟩,
      ⟨serving.ready.shmPath, serving.ready.hint⟩, cold⟩, mode, rfl⟩
  | committed edited start post mid append kept =>
    have cold : hotJournal after = false := by
      rw [hotJournal, append.journal.content]
      exact serving.cold
    have hint := serving.hint_placed append
    have cache := append.cache
    simp only [← mainPage_samePath append.main pager.source serving.onMain] at cache
    rw [kept, append.pagerKept]
    refine ⟨⟨?_, ⟨cache, ?_, ?_⟩, ⟨append.shmPath, hint⟩, cold⟩, mode, rfl⟩
    · rw [append.main.handle]
      exact serving.source
    · intro pageNum page found
      simp at found
    · intro pageNum page found
      rw [get_writes, last_write_entries, or_eq_some_iff] at found
      rcases found with edit | ⟨-, old⟩
      · exact serving.sound.dirtySized pageNum page edit
      · exact serving.sound.walSized pageNum page old

theorem withSynchronous (serving : pager.Serving before) (level : SynchronousMode) :
    (pager.setSynchronous level).Serving before :=
  { source := serving.source
    sound := ⟨serving.sound.cache, serving.sound.dirtySized, serving.sound.walSized⟩
    ready := ⟨serving.ready.shmPath, serving.ready.hint⟩
    cold := serving.cold }

/-- What commits keep: the pager is in use in WAL mode, with pages of one size. -/
theorem commits {writer : Nat} {pageSize : UInt32} {held last : World × Pager}
    {commits : List (SynchronousMode × Transaction)}
    (begun : held.2.Serving held.1 ∧ held.2.journalMode = .wal ∧ held.2.pageSize = pageSize)
    (ran : commits.foldlM (commitOnce writer) held = some last) :
    last.2.Serving last.1 ∧ last.2.journalMode = .wal ∧ last.2.pageSize = pageSize := by
  induction commits generalizing held with
  | nil =>
    cases ran
    exact begun
  | cons commit rest ih =>
    rw [foldlM_cons] at ran
    obtain ⟨next, once, ran⟩ := bind_eq_some_iff.mp ran
    refine ih ?_ ran
    obtain ⟨serving, mode, size⟩ := begun
    have begun := serving.withSynchronous commit.1
    obtain ⟨edited, outcome, performed, base, sound⟩ := perform_quiet commit.2 writer held.1
      (held.2.setSynchronous commit.1) begun.sound
    simp only [commitOnce, performed] at once
    generalize flushRun : flush.exec (unixVfs writer) edited held.1 = flush at once
    obtain ⟨flushed, last, error | ⟨⟩⟩ := flush
    · cases once
    cases once
    have serving := begun.edited base sound
    rw [SameBase] at base
    obtain ⟨serving, mode, kept⟩ := serving.flushed (by rw [base]; exact mode) flushRun
    exact ⟨serving, mode, by rw [kept, base]; exact size⟩

end Pager.Serving

section Claim

variable (writer reader : Nat) (pageSize : UInt32)
  (earlier : List (SynchronousMode × Transaction)) (level : SynchronousMode)
  (transaction : Transaction) (start : World) (report : FlushReport)

theorem Pager.Current.edited {before : World} {pager after : Pager} (current : pager.Current before)
    (base : SameBase pager after) (sound : after.Sound before) : after.Current before := by
  refine { current.toServing.edited base sound with overlay := ?_ }
  rw [SameBase] at base
  rw [base]
  exact current.overlay

theorem Pager.Current.withSynchronous {before : World} {pager : Pager}
    (current : pager.Current before) : (pager.setSynchronous level).Current before :=
  { current.toServing.withSynchronous level with overlay := current.overlay }

theorem flushAndReopen_some
    (ran : flushAndReopen writer reader pageSize earlier level transaction start = some report)
    (mode : report.opened.journalMode = .wal) :
    report.edited.Serving report.before ∧ report.edited.journalMode = .wal ∧
      report.edited.pageSize = pageSize ∧ ∃ flushed last,
        flush.exec (unixVfs writer) report.edited report.before = ⟨flushed, last, .ok ()⟩ ∧
          Opened pageSize flushed report.after report.fresh := by
  simp only [flushAndReopen] at ran
  generalize openRun : (openPager pageSize).exec (unixVfs writer) () start = opening at ran
  obtain ⟨world, ⟨⟩, error | opened⟩ := opening
  · cases ran
  have isOpen := openPager_ok writer start world pageSize opened openRun
  simp only at ran
  generalize commitRun : earlier.foldlM (commitOnce writer) (world, opened) = held at ran
  obtain _ | ⟨world', pager⟩ := held
  · cases ran
  have ready (mode : opened.journalMode = .wal) :=
    Pager.Serving.commits ⟨isOpen.current.toServing, mode, isOpen.size⟩ commitRun
  simp only at ran
  generalize performed : (perform transaction).exec (unixVfs writer) (pager.setSynchronous level)
    world' = edits at ran
  generalize flushRun : flush.exec (unixVfs writer) edits.state edits.world = flush at ran
  obtain ⟨flushed, last, error | ⟨⟩⟩ := flush
  · cases ran
  simp only at ran
  generalize reopenRun : (openPager pageSize).exec (unixVfs reader) () flushed = reopening at ran
  obtain ⟨after, ⟨⟩, error | fresh⟩ := reopening
  · cases ran
  cases ran
  obtain ⟨serving, inWal, size⟩ := ready mode
  have begun := serving.withSynchronous level
  obtain ⟨edited, outcome, quiet, base, sound⟩ :=
    perform_quiet transaction writer world' (pager.setSynchronous level) begun.sound
  rw [quiet] at performed
  subst performed
  have kept := base
  rw [Pager.SameBase] at kept
  exact ⟨begun.edited base sound, by rw [kept]; exact inWal, by rw [kept]; exact size, flushed, last,
    flushRun, openPager_ok reader flushed after pageSize fresh reopenRun⟩

/-- In every run of open, commits, edits, flush and reopen in WAL mode, at every synchronous level
of each commit, the pager opened afterwards reads for every page what the last flush committed
exactly if the commit is kept. -/
theorem reopened_reads_flushed_iff
    (ran : flushAndReopen writer reader pageSize earlier level transaction start = some report)
    (mode : report.opened.journalMode = .wal) :
    (∀ pageNum, report.rereadPage reader pageNum = report.committedPage writer pageNum) ↔
      report.edited.FlushKept report.before := by
  obtain ⟨serving, mode, size, flushed, last, flushRun, reopened⟩ := flushAndReopen_some writer
    reader pageSize earlier level transaction start report ran mode
  rw [← size] at reopened
  have committed : ∀ pageNum, report.committedPage writer pageNum =
      report.edited.view report.before pageNum := by
    intro pageNum
    obtain ⟨cache, read, _⟩ :=
      exec_readPage writer report.before report.edited serving.sound pageNum
    rw [FlushReport.committedPage, read]
  have reread : ∀ pageNum, report.rereadPage reader pageNum =
      report.fresh.view report.after pageNum := by
    intro pageNum
    obtain ⟨cache, read, _⟩ :=
      exec_readPage reader report.after report.fresh reopened.sound pageNum
    rw [FlushReport.rereadPage, read]
  simp only [committed, reread]
  exact serving.flush_reopen_iff mode flushRun reopened

end Claim

section LostCommit

/-- A database of one page in WAL mode: read and write version 2, page count 1. -/
def walPage1 (fill : UInt8) : Bytes :=
  List.replicate 18 0 ++ ([2, 2] ++ (List.replicate 11 0 ++ (1 :: List.replicate 480 fill)))

def walDatabase : World :=
  { present := fun path => path = .main ∨ path = .wal
    generation := fun _ => 0
    inode := fun file => if file.path = .main then walPage1 0 else sampleHeader.serialize
    locks := []
    nonces := fun _ => 0 }

def fillPage1 : Transaction :=
  .call (.edit 1 ⟨fun page => page.take 32 ++ List.replicate (page.length - 32) 7, by
    intro page
    simp only [List.length_append, List.length_take, List.length_replicate]
    omega⟩) fun _ => .done ()

/-- In normal mode the flush returns `Ok`, and the next pager still reads the old page. -/
theorem normal_flush_is_lost :
    ∃ report, flushAndReopen 1 2 512 [] .normal fillPage1 walDatabase = some report ∧
      report.opened.journalMode = .wal ∧ report.committedPage 1 1 = .ok (walPage1 7) ∧
      report.rereadPage 2 1 = .ok (walPage1 0) ∧
      ¬ ∀ pageNum, report.rereadPage 2 pageNum = report.committedPage 1 pageNum := by
  have evaluated : (flushAndReopen 1 2 512 [] .normal fillPage1 walDatabase).map (fun report =>
      (report.opened.journalMode, report.committedPage 1 1, report.rereadPage 2 1)) =
        some (.wal, .ok (walPage1 7), .ok (walPage1 0)) := by
    decide +kernel
  have different : walPage1 0 ≠ walPage1 7 := by decide +kernel
  obtain ⟨report, ran, facts⟩ := Option.map_eq_some_iff.mp evaluated
  simp only [Prod.mk.injEq] at facts
  obtain ⟨mode, committed, reread⟩ := facts
  refine ⟨report, ran, mode, committed, reread, ?_⟩
  intro same
  have lost := same 1
  rw [committed, reread] at lost
  exact different (Except.ok.inj lost)

def clearPage1 : Transaction :=
  .call (.edit 1 ⟨fun page => page.take 32 ++ List.replicate (page.length - 32) 0, by
    intro page
    simp only [List.length_append, List.length_take, List.length_replicate]
    omega⟩) fun _ => .done ()

/-- Two commits in full mode, the second of which resumes from the hint of the first: the next
pager reads the page as the second one left it. -/
theorem full_flush_reads_back :
    ∃ report, flushAndReopen 1 2 512 [(.full, fillPage1)] .full clearPage1 walDatabase =
        some report ∧ report.edited.walResume.isSome ∧
      report.edited.filed report.before 1 = .ok (walPage1 7) ∧
      report.rereadPage 2 1 = .ok (walPage1 0) ∧
      ((∀ pageNum, report.rereadPage 2 pageNum = report.committedPage 1 pageNum) ↔
        report.edited.FlushKept report.before) := by
  have evaluated : (flushAndReopen 1 2 512 [(.full, fillPage1)] .full clearPage1 walDatabase).map
      (fun report => (report.opened.journalMode, report.edited.walResume.isSome,
        report.edited.filed report.before 1, report.rereadPage 2 1)) =
          some (.wal, true, .ok (walPage1 7), .ok (walPage1 0)) := by
    decide +kernel
  obtain ⟨report, ran, facts⟩ := Option.map_eq_some_iff.mp evaluated
  simp only [Prod.mk.injEq] at facts
  obtain ⟨mode, hinted, filed, reread⟩ := facts
  exact ⟨report, ran, hinted, filed, reread, reopened_reads_flushed_iff 1 2 512 [(.full, fillPage1)]
    .full clearPage1 walDatabase report ran mode⟩

end LostCommit

end SqliteRs
