import SqliteRs.WalFrames

/-!
The append side of a `-wal` file. Frames are collected in memory and reach the
file in one write when the writer is synced. A writer for an existing file
resumes behind the last valid frame, committed or not, from a saved hint if the hint
still matches the file's size and header and from a rescan otherwise. So the next commit
frame also closes the frames an unfinished transaction left there, and old bytes behind
the appended frames can turn out to continue the checksum.
-/

namespace SqliteRs

open List WalHeader
open SqliteRs.Action (check exec_bind exec_check)

open ByteFile

structure WalWriter where
  file : Handle
  header : WalHeader
  running : Checksum
  offset : Nat
  pendingOffset : Option Nat
  pending : Bytes

structure WalResumeHint where
  header : WalHeader
  offset : Nat
  running : Checksum
  expectedSize : Nat

namespace WalWriter

def resumeAt (file : Handle) (header : WalHeader) (offset : Nat) (running : Checksum) : WalWriter :=
  { file, header, running, offset, pendingOffset := none, pending := [] }

def create (header : WalHeader) : Vfs Unit WalError WalWriter := do
  let file ← Vfs.createOrOpenWrite .vfs .wal
  Vfs.writeAt .vfs file 0 header.serialize
  pure (WalWriter.resumeAt file header headerLen header.headerChecksum)

def append (writer : WalWriter) (frame : WalFrame) : WalWriter :=
  let bytes := frame.encode writer.header writer.running
  { writer with
    running := frame.chain writer.header writer.running
    offset := writer.offset + bytes.length
    pendingOffset := some (writer.pendingOffset.getD writer.offset)
    pending := writer.pending ++ bytes }

def appendFrame (pageNum : UInt32) (pageData : Bytes) (commitDbSize : UInt32) :
    Vfs WalWriter WalError Unit :=
  Action.modify fun writer => writer.append ⟨pageNum, commitDbSize, pageData⟩

def sync : Vfs WalWriter WalError Unit := do
  let writer ← Action.get
  match writer.pendingOffset with
  | some pendingOffset =>
    Action.modify fun taken => { taken with pendingOffset := none }
    Vfs.writeAt .vfs writer.file pendingOffset writer.pending
    Action.modify fun written => { written with pending := [] }
  | none => pure ()
  Vfs.sync .vfs writer.file

def readHeader (file : Handle) : Vfs Unit WalError (Option WalHeader) := do
  match ← Action.attempt (Vfs.readAt id file 0 headerLen) with
  | .ok bytes => pure (if bytes.length = headerLen then (WalHeader.parse bytes).toOption else none)
  | .error _ => pure none

def rescan (file : Handle) (size : Nat) (pageSize : UInt32) : Vfs Unit WalError WalWriter := do
  let bytes ← Vfs.readAt .vfs file 0 size
  let header ← check (WalHeader.parse bytes)
  if header.pageSize ≠ pageSize then Action.throw (.invalidPageSize header.pageSize)
  else
    let (offset, running) := lastValidFrameState header bytes
    pure (WalWriter.resumeAt file header offset running)

def openExisting (pageSize : UInt32) (resumeHint : Option WalResumeHint) :
    Vfs Unit WalError WalWriter := do
  let file ← Vfs.openWrite .vfs .wal
  let size ← Vfs.size .vfs file
  match resumeHint with
  | none => rescan file size pageSize
  | some hint =>
    let header ← readHeader file
    if hint.expectedSize = size ∧ header = some hint.header then
      pure (WalWriter.resumeAt file hint.header hint.offset hint.running)
    else rescan file size pageSize

def resumeHint (writer : WalWriter) : WalResumeHint :=
  { header := writer.header, offset := writer.offset, running := writer.running,
    expectedSize := writer.offset }

def frameCount (writer : WalWriter) : UInt32 :=
  UInt32.ofNat ((writer.offset - headerLen) / max writer.header.frameSize 1)

def appendFrames : List WalFrame → Vfs WalWriter WalError Unit
  | [] => pure ()
  | frame :: rest => do
      appendFrame frame.pageNumber frame.content frame.dbSize
      appendFrames rest

def appendAll (writer : WalWriter) (frames : List WalFrame) : WalWriter :=
  frames.foldl append writer

end WalWriter

/-- What a saved hint must say about a file to be safe to resume from. -/
def WalResumeHint.Describes (hint : WalResumeHint) (walBytes : Bytes) : Prop :=
  hint.expectedSize = walBytes.length → WalHeader.parse walBytes = .ok hint.header →
    (hint.offset, hint.running) = lastValidFrameState hint.header walBytes

namespace WalWriter

variable (frames : List WalFrame) (writer : WalWriter) (frame : WalFrame)

theorem appendAll_pending : (writer.appendAll frames).file = writer.file ∧
      (writer.appendAll frames).header = writer.header ∧
      (writer.appendAll frames).running = chainFrames writer.header writer.running frames ∧
      (writer.appendAll frames).offset =
        writer.offset + (encodeFrames writer.header writer.running frames).length ∧
      (writer.appendAll frames).pending =
        writer.pending ++ encodeFrames writer.header writer.running frames := by
  induction frames generalizing writer with
  | nil => simp [appendAll, chainFrames, encodeFrames]
  | cons frame rest ih =>
    obtain ⟨file, hdr, running, off, pending⟩ := ih (writer.append frame)
    refine ⟨file, hdr, running, ?_, ?_⟩
    · simp only [appendAll, foldl_cons] at off ⊢
      rw [off]
      simp [append, encodeFrames, length_append, Nat.add_assoc]
    · simp only [appendAll, foldl_cons] at pending ⊢
      rw [pending]
      simp [append, encodeFrames, append_assoc]

theorem appendAll_pendingOffset :
    (writer.appendAll frames).pendingOffset = if frames = [] then writer.pendingOffset
      else some (writer.pendingOffset.getD writer.offset) := by
  induction frames generalizing writer with
  | nil => rfl
  | cons frame rest ih =>
    simp only [appendAll, foldl_cons] at ih ⊢
    rw [ih (writer.append frame)]
    by_cases last : rest = []
    · simp [append]
    · simp [append]

section Execution

variable (proc : Nat) (world : World)

theorem exec_sync_pending (writer : WalWriter) (start : Nat)
    (waiting : writer.pendingOffset = some start) :
    sync.exec (unixVfs proc) writer world =
      ⟨world.store writer.file (writeAt (world.inode writer.file) start writer.pending),
        { writer with pendingOffset := none, pending := [] }, .ok ()⟩ := by
  simp [sync, exec_bind, Action.exec_get, waiting, Action.exec_modify, exec_writeAt, exec_sync]

variable (file : Handle) (pageSize : UInt32) (hint : Option WalResumeHint) (hdr : WalHeader)

theorem exec_rescan (parsed : parse (world.inode file) = .ok hdr) (fits : hdr.pageSize = pageSize) :
    (rescan file (world.inode file).length pageSize).exec (unixVfs proc) () world =
      ⟨world, (), .ok (WalWriter.resumeAt file hdr (lastValidFrameState hdr (world.inode file)).1
        (lastValidFrameState hdr (world.inode file)).2)⟩ := by
  simp [rescan, exec_bind, exec_readAt, exec_check, parsed, fits, ne_eq]

theorem exec_appendFrames (frames : List WalFrame) (writer : WalWriter) :
    (appendFrames frames).exec (unixVfs proc) writer world =
      ⟨world, writer.appendAll frames, .ok ()⟩ := by
  induction frames generalizing writer with
  | nil => rfl
  | cons frame rest ih =>
    exact ih (writer.append frame)

theorem exec_readHeader :
    (readHeader file).exec (unixVfs proc) () world =
      ⟨world, (), .ok (if headerLen ≤ (world.inode file).length
        then (parse (world.inode file)).toOption else none)⟩ := by
  simp only [readHeader, exec_bind, Action.exec_attempt, exec_readAt, Action.exec_monad_pure]
  by_cases long : headerLen ≤ (world.inode file).length
  · rw [if_pos long, if_pos (length_readAt_of_le _ _ _ (by omega)), parse_readAt _ long]
  · rw [if_neg long, if_neg (by rw [length_readAt]; omega)]

theorem exec_openExisting_missing (absent : world.present .wal = false) :
    (openExisting pageSize hint).exec (unixVfs proc) () world =
      ⟨world, (), .error (.vfs (.notFound .wal))⟩ := by
  simp [openExisting, exec_bind, exec_openWrite, openExistingFile, absent,
    Bool.false_eq_true, Except.mapError]

def Rescanned (file : Handle) (log : Bytes) (pageSize : UInt32) (res : Except WalError WalWriter) :
    Prop :=
  (∃ error, res = .error error ∧ ∀ src, error ≠ .vfs src) ∨
    ∃ hdr, WalHeader.parse log = .ok hdr ∧ hdr.pageSize = pageSize ∧
      res = .ok (WalWriter.resumeAt file hdr (lastValidFrameState hdr log).1
        (lastValidFrameState hdr log).2)

theorem exec_rescan_outcome :
    ∃ res, (rescan file (world.inode file).length pageSize).exec (unixVfs proc) () world =
      ⟨world, (), res⟩ ∧ Rescanned file (world.inode file) pageSize res := by
  cases parsed : parse (world.inode file) with
  | error error =>
    refine ⟨.error error, ?_, Or.inl ⟨error, rfl, parse_error _ error parsed⟩⟩
    simp [rescan, exec_bind, exec_readAt, exec_check, parsed]
  | ok hdr =>
    by_cases fits : hdr.pageSize = pageSize
    · exact ⟨_, exec_rescan proc world _ pageSize hdr parsed fits, Or.inr ⟨hdr, parsed, fits, rfl⟩⟩
    refine ⟨.error (.invalidPageSize hdr.pageSize), ?_, Or.inl ⟨_, rfl, by simp⟩⟩
    simp [rescan, exec_bind, exec_readAt, exec_check, parsed, ne_eq, fits, Action.exec_throw]

theorem openExisting_present (present : world.present .wal = true) :
    ∃ res, (openExisting pageSize hint).exec (unixVfs proc) () world = ⟨world, (), res⟩ ∧
      ((∀ saved ∈ hint, saved.Describes (world.inode (world.handle .wal))) ∧
          Rescanned (world.handle .wal) (world.inode (world.handle .wal)) pageSize res ∨
        ∃ saved, hint = some saved ∧ saved.expectedSize = (world.inode (world.handle .wal)).length ∧
          parse (world.inode (world.handle .wal)) = .ok saved.header ∧
          res = .ok (WalWriter.resumeAt (world.handle .wal) saved.header saved.offset
            saved.running)) := by
  obtain ⟨res, ran, outcome⟩ := exec_rescan_outcome proc world (world.handle .wal) pageSize
  have opened : (Vfs.openWrite WalError.vfs .wal).exec (unixVfs proc) () world =
      ⟨world, (), .ok (world.handle .wal)⟩ := by
    simp [exec_openWrite, openExistingFile, present, Except.mapError]
  cases hint with
  | none =>
    refine ⟨res, ?_, Or.inl ⟨by simp, outcome⟩⟩
    simp only [openExisting, exec_bind, opened]
    exact ran
  | some saved =>
    have hdr := exec_readHeader proc world (world.handle .wal)
    by_cases trusted : saved.expectedSize = (world.inode (world.handle .wal)).length ∧
        (if headerLen ≤ (world.inode (world.handle .wal)).length
          then (parse (world.inode (world.handle .wal))).toOption else none) =
          some saved.header
    · refine ⟨_, ?_, Or.inr ⟨saved, rfl, trusted.1, ?_, rfl⟩⟩
      · simp [openExisting, exec_bind, opened, exec_size, hdr, trusted]
      have found := trusted.2
      split at found
      · cases parsed : parse (world.inode (world.handle .wal)) with
        | error error => simp [parsed, Except.toOption] at found
        | ok parsedHeader =>
          simp only [parsed, Except.toOption, Option.some.injEq] at found
          rw [found]
      · simp at found
    · refine ⟨res, ?_, Or.inl ⟨?_, outcome⟩⟩
      · simp only [openExisting, exec_bind, opened, exec_size, hdr, trusted]
        exact ran
      · rintro _ ⟨rfl⟩ size parsed
        refine absurd ⟨size, ?_⟩ trusted
        rw [if_pos (parse_long _ _ parsed), parsed]
        rfl

theorem exec_openExisting (present : world.present .wal = true)
    (parsed : parse (world.inode (world.handle .wal)) = .ok hdr) (fits : hdr.pageSize = pageSize)
    (faithful : ∀ saved ∈ hint, saved.Describes (world.inode (world.handle .wal))) :
    (openExisting pageSize hint).exec (unixVfs proc) () world =
      ⟨world, (), .ok (WalWriter.resumeAt (world.handle .wal) hdr
        (lastValidFrameState hdr (world.inode (world.handle .wal))).1
        (lastValidFrameState hdr (world.inode (world.handle .wal))).2)⟩ := by
  cases hint with
  | none =>
    simp only [openExisting, exec_bind, exec_openWrite, openExistingFile, present]
    exact exec_rescan proc world _ pageSize hdr parsed fits
  | some saved =>
    have long := parse_long _ hdr parsed
    simp only [openExisting, exec_bind, exec_openWrite, openExistingFile, present, if_true,
      Except.mapError, exec_size, exec_readHeader, long, parsed, Except.toOption,
      Option.some.injEq]
    by_cases trusted : saved.expectedSize = (world.inode (world.handle .wal)).length ∧
        hdr = saved.header
    · have state := faithful saved (by simp) trusted.1 (by rw [← trusted.2]; exact parsed)
      rw [if_pos trusted, trusted.2, ← state]
      rfl
    · rw [if_neg trusted]
      exact exec_rescan proc world _ pageSize hdr parsed fits

end Execution

end WalWriter

open OrderedMap WalFrame CommitLog WalWriter

/-- The page images of one commit, the last one carrying the database size. -/
structure WalTransaction (pageSize : UInt32) where
  body : List (UInt32 × Bytes)
  last : UInt32 × Bytes
  dbSize : UInt32
  commits : dbSize ≠ 0
  sized : ∀ page ∈ body ++ [last], page.2.length = pageSize.toNat

namespace WalTransaction

variable {pageSize : UInt32} (transaction : WalTransaction pageSize)

def writes : List (UInt32 × Bytes) := transaction.body ++ [transaction.last]

def bodyFrames : List WalFrame := transaction.body.map fun page => ⟨page.1, 0, page.2⟩

def lastFrame : WalFrame := ⟨transaction.last.1, transaction.dbSize, transaction.last.2⟩

def frames : List WalFrame := transaction.bodyFrames ++ [transaction.lastFrame]

theorem lastFrame_commits : transaction.lastFrame.commits = true := by
  simp [lastFrame, WalFrame.commits, transaction.commits]

theorem frames_committed : committedFrames transaction.frames = transaction.frames :=
  committed_concat _ _ _ transaction.lastFrame_commits

theorem frames_closed : transaction.frames.any WalFrame.commits = true := by
  simp [frames, transaction.lastFrame_commits]

theorem frames_commitSize : commitSize transaction.frames = transaction.dbSize := by
  have closing := transaction.lastFrame_commits
  rw [frames, commitSize_append]
  simp only [any_cons, closing, commitSize, foldl_cons]
  rfl

theorem frameWrites_frames : frameWrites transaction.frames = transaction.writes := by
  simp [frameWrites, effects, frames, bodyFrames, lastFrame, writes, Function.comp_def]

theorem frames_ne_nil : transaction.frames ≠ [] := by
  simp [frames]

theorem frames_sized (header : WalHeader) (fits : header.pageSize = pageSize) :
    ∀ frame ∈ transaction.frames, frame.Sized header := by
  intro frame mem
  have sized := transaction.sized
  simp only [frames, bodyFrames, mem_append, mem_map, mem_singleton] at mem
  rcases mem with ⟨page, inBody, rfl⟩ | rfl
  · rw [WalFrame.Sized, fits]
    exact sized page (mem_append_left _ inBody)
  · rw [WalFrame.Sized, fits]
    exact sized transaction.last (by simp)

end WalTransaction

def commitToWal {pageSize : UInt32} (hint : Option WalResumeHint)
    (transaction : WalTransaction pageSize) : Vfs Unit WalError Unit := do
  let writer ← WalWriter.openExisting pageSize hint
  let (writer, _) ← Action.owning writer (WalWriter.appendFrames transaction.frames)
  let _ ← Action.owning writer WalWriter.sync
  pure ()

section Appending

variable (header : WalHeader) (walBytes : Bytes) (frames : List WalFrame)

/-- The file after frames are written behind its last valid frame. -/
def appendedBytes : Bytes :=
  writeAt walBytes (lastValidFrameState header walBytes).1
    (encodeFrames header (lastValidFrameState header walBytes).2 frames)

/-- Old bytes behind the appended frames that happen to continue their checksum. -/
def strayFrames : List WalFrame :=
  framesFrom header
    (chainFrames header header.headerChecksum (walFrames header walBytes ++ frames))
    (walBytes.drop
      (headerLen + ((walFrames header walBytes).length + frames.length) * header.frameSize))

theorem appendedBytes_split (long : headerLen ≤ walBytes.length)
    (sized : ∀ frame ∈ frames, frame.Sized header) : appendedBytes header walBytes frames =
      walBytes.take (headerLen + (walFrames header walBytes).length * header.frameSize) ++
        (encodeFrames header
            (chainFrames header header.headerChecksum (walFrames header walBytes)) frames ++
          walBytes.drop (headerLen +
            ((walFrames header walBytes).length + frames.length) * header.frameSize)) := by
  have inside := walFrames_inside header walBytes long
  rw [appendedBytes, lastValidFrameState_frames, writeAt_eq_append _ _ _ inside,
    length_encodeFrames header _ frames sized]
  simp [Nat.add_mul, Nat.add_assoc]

theorem walFrames_appendedBytes (long : headerLen ≤ walBytes.length)
    (sized : ∀ frame ∈ frames, frame.Sized header) :
    walFrames header (appendedBytes header walBytes frames) =
      walFrames header walBytes ++ (frames ++ strayFrames header walBytes frames) := by
  rw [appendedBytes_split header walBytes frames long sized,
    walFrames_take_append header walBytes _ _ long (Nat.le_refl _), take_length,
    framesFrom_encode_append header _ frames _ sized]
  simp [strayFrames, chainFrames, foldl_append]

theorem parse_appendedBytes (parsed : parse walBytes = .ok header)
    (sized : ∀ frame ∈ frames, frame.Sized header) :
    parse (appendedBytes header walBytes frames) = .ok header := by
  rw [appendedBytes_split header walBytes frames (WalHeader.parse_long _ _ parsed) sized]
  exact WalHeader.parse_take_append walBytes _ header _ parsed (Nat.le_add_right _ _)

/-- Frames of the file after its last commit: what a crashed writer left. -/
def abandonedFrames : List WalFrame := uncommittedFrames (walFrames header walBytes)

def visibleStrays : List WalFrame := committedFrames (strayFrames header walBytes frames)

section

variable (long : headerLen ≤ walBytes.length) (sized : ∀ frame ∈ frames, frame.Sized header)

include long sized

theorem committedFrames_appended (whole : frames.any commits = true → committedFrames frames = frames)
    (visible : (frames ++ strayFrames header walBytes frames).any commits = true) :
    committedFrames (walFrames header (appendedBytes header walBytes frames)) =
      committedFrames (walFrames header walBytes) ++ (abandonedFrames header walBytes ++
        (frames ++ visibleStrays header walBytes frames)) := by
  have inner : committedFrames (frames ++ strayFrames header walBytes frames) =
      frames ++ visibleStrays header walBytes frames := by
    by_cases strayClosed : (strayFrames header walBytes frames).any commits = true
    · exact committed_append_closed _ _ _ strayClosed
    have unclosed := Bool.not_eq_true _ ▸ strayClosed
    have closed : frames.any commits = true := by
      rw [any_append, unclosed, Bool.or_false] at visible
      exact visible
    rw [committedFrames, committed_append_unclosed _ _ _ unclosed, visibleStrays,
      committedFrames, committed_eq_nil _ _ unclosed, append_nil]
    exact whole closed
  rw [walFrames_appendedBytes header walBytes frames long sized, committedFrames,
    committed_append_closed _ _ _ visible, ← append_assoc, abandonedFrames,
    committedFrames, uncommittedFrames, committed_append_uncommitted]
  exact congrArg _ inner

theorem committedFrames_unclosed
    (hidden : (frames ++ strayFrames header walBytes frames).any commits = false) :
    committedFrames (walFrames header (appendedBytes header walBytes frames)) =
      committedFrames (walFrames header walBytes) := by
  rw [walFrames_appendedBytes header walBytes frames long sized, committedFrames,
    committed_append_unclosed _ _ _ hidden]
  rfl

theorem get_committedPages_appended
    (whole : frames.any commits = true → committedFrames frames = frames)
    (visible : (frames ++ strayFrames header walBytes frames).any commits = true)
    (page : UInt32) : (committedPages header (appendedBytes header walBytes frames)).1.get page =
      ((lastWrite page (frameWrites (visibleStrays header walBytes frames))).or
          (lastWrite page (frameWrites frames))).or
        ((lastWrite page (frameWrites (abandonedFrames header walBytes))).or
          ((committedPages header walBytes).1.get page)) := by
  rw [committedPages_frames, committedPages_frames,
    committedFrames_appended header walBytes frames long sized whole visible]
  simp [get_writes, frameWrites_append, last_write_append, Option.or_assoc]

end

end Appending

section Visibility

variable {pageSize : UInt32} (header : WalHeader) (walBytes : Bytes)
  (transaction : WalTransaction pageSize)

/-- Neither the abandoned frames nor the stray ones add anything to the commit: an abandoned
page is rewritten or was committed with the same content, a visible stray page repeats what
the commit leaves there. -/
structure TailHarmless : Prop where
  abandoned : ∀ page content,
    OrderedMap.lastWrite page (frameWrites (abandonedFrames header walBytes)) = some content →
    OrderedMap.lastWrite page transaction.writes = none →
    OrderedMap.lastWrite page (frameWrites (visibleStrays header walBytes transaction.frames)) = none →
    (committedPages header walBytes).1.get page = some content
  stray : ∀ page content,
    OrderedMap.lastWrite page (frameWrites (visibleStrays header walBytes transaction.frames)) =
      some content →
    ((committedPages header walBytes).1.writes transaction.writes).get page = some content
  size : visibleStrays header walBytes transaction.frames = [] ∨
    commitSize (visibleStrays header walBytes transaction.frames) = transaction.dbSize

theorem size_committedPages_appended (long : headerLen ≤ walBytes.length)
    (fits : header.pageSize = pageSize) :
    (committedPages header (appendedBytes header walBytes transaction.frames)).2 =
      if visibleStrays header walBytes transaction.frames = [] then transaction.dbSize
      else commitSize (visibleStrays header walBytes transaction.frames) := by
  have sized := transaction.frames_sized header fits
  have closed : (transaction.frames ++
      strayFrames header walBytes transaction.frames).any commits = true := by
    rw [any_append, transaction.frames_closed, Bool.true_or]
  rw [committedPages_frames]
  rw [walFrames_appendedBytes header walBytes transaction.frames long sized, commitSize_append,
    closed, if_pos rfl, commitSize_append, transaction.frames_commitSize]
  by_cases strayClosed :
      (strayFrames header walBytes transaction.frames).any commits = true
  · have some : visibleStrays header walBytes transaction.frames ≠ [] := by
      rw [visibleStrays, committedFrames, ne_eq, committed_eq_nil_iff]
      simp [strayClosed]
    rw [if_pos strayClosed, if_neg some, visibleStrays, commitSize_committed]
  · have none : visibleStrays header walBytes transaction.frames = [] := by
      rw [visibleStrays, committedFrames, committed_eq_nil_iff]
      exact Bool.not_eq_true _ ▸ strayClosed
    rw [if_neg strayClosed, if_pos none]

theorem committedPages_appended_iff (long : headerLen ≤ walBytes.length)
    (fits : header.pageSize = pageSize) :
    committedPages header (appendedBytes header walBytes transaction.frames) =
        ((committedPages header walBytes).1.writes transaction.writes, transaction.dbSize) ↔
      TailHarmless header walBytes transaction := by
  have pages := get_committedPages_appended header walBytes transaction.frames long
    (transaction.frames_sized header fits) (fun _ => transaction.frames_committed)
    (by rw [any_append, transaction.frames_closed, Bool.true_or])
  rw [transaction.frameWrites_frames] at pages
  have size := size_committedPages_appended header walBytes transaction long fits
  constructor
  · intro same
    rw [same] at pages size
    simp only [get_writes] at pages
    refine ⟨?_, ?_, ?_⟩
    · intro page content left unwritten unstray
      have seen := pages page
      simp only [left, unwritten, unstray] at seen
      exact seen
    · intro page content written
      have seen := pages page
      simp only [written] at seen
      rw [get_writes]
      exact seen
    · by_cases none : visibleStrays header walBytes transaction.frames = []
      · exact Or.inl none
      · rw [if_neg none] at size
        exact Or.inr size.symm
  · intro harmless
    refine Prod.ext ?_ ?_
    · ext1 page
      rw [pages page, get_writes]
      -- A reader takes the last write: strays past the commit, then the commit, then what was left.
      cases stray : OrderedMap.lastWrite page
          (frameWrites (visibleStrays header walBytes transaction.frames)) with
      | some content =>
        have expected := harmless.stray page content stray
        rw [get_writes] at expected
        simp [expected, Option.some_or]
      | none =>
        cases written : OrderedMap.lastWrite page transaction.writes with
        | some content => simp only [Option.none_or, Option.some_or]
        | none =>
          cases left : OrderedMap.lastWrite page
              (frameWrites (abandonedFrames header walBytes)) with
          | none => simp only [Option.none_or]
          | some content =>
            have kept := harmless.abandoned page content left written stray
            simp only [Option.none_or, Option.some_or, kept]
    · rw [size]
      rcases harmless.size with none | same
      · rw [if_pos none]
      by_cases none : visibleStrays header walBytes transaction.frames = []
      · rw [if_pos none]
      · rw [if_neg none, same]

theorem exec_commitToWal (proc : Nat) (world : World) (hint : Option WalResumeHint)
    (found : world.content .wal = some walBytes) (parsed : parse walBytes = .ok header)
    (fits : header.pageSize = pageSize) (faithful : ∀ saved ∈ hint, saved.Describes walBytes) :
    (commitToWal hint transaction).exec (unixVfs proc) () world =
      ⟨world.store (world.handle .wal) (appendedBytes header walBytes transaction.frames), (),
        .ok ()⟩ := by
  obtain ⟨present, rfl⟩ := (world.content_eq_some_iff walBytes .wal).mp found
  have opened := exec_openExisting proc world pageSize hint header present parsed fits
    faithful
  generalize resume : lastValidFrameState header (world.inode (world.handle .wal)) = state at opened
  have start : ((resumeAt (world.handle .wal) header state.1 state.2).appendAll
      transaction.frames).pendingOffset = some state.1 := by
    rw [appendAll_pendingOffset, if_neg transaction.frames_ne_nil]
    rfl
  obtain ⟨file, _, _, _, pending⟩ := appendAll_pending transaction.frames
    (resumeAt (world.handle .wal) header state.1 state.2)
  simp only [commitToWal, Action.exec_bind, opened, Action.exec_owning, exec_appendFrames,
    Except.map, exec_sync_pending proc world _ _ start, file, pending, appendedBytes, resume]
  rfl

/-- For every file, hint and transaction the commit succeeds, and the file's committed pages are
the old ones with exactly the transaction's pages on top if and only if its tail is harmless. -/
theorem commit_adds_exactly_its_pages_iff (proc : Nat) (world : World)
    (hint : Option WalResumeHint) (found : world.content .wal = some walBytes)
    (parsed : WalHeader.parse walBytes = .ok header) (fits : header.pageSize = pageSize)
    (faithful : ∀ saved ∈ hint, saved.Describes walBytes) :
    ∃ after newBytes,
      (commitToWal hint transaction).exec (unixVfs proc) () world = ⟨after, (), .ok ()⟩ ∧
        after.content .wal = some newBytes ∧ WalHeader.parse newBytes = .ok header ∧
        (committedPages header newBytes =
            ((committedPages header walBytes).1.writes transaction.writes, transaction.dbSize) ↔
          TailHarmless header walBytes transaction) := by
  have long := WalHeader.parse_long walBytes header parsed
  have sized := transaction.frames_sized header fits
  have present := ((world.content_eq_some_iff walBytes .wal).mp found).1
  exact ⟨_, _, exec_commitToWal header walBytes transaction proc world hint found parsed fits
      faithful, world.content_store_same _ _ present,
    parse_appendedBytes header walBytes transaction.frames parsed sized,
    committedPages_appended_iff header walBytes transaction long fits⟩

end Visibility

section CrashedWriter

def sampleHeader : WalHeader := WalHeader.new true 512 1 2 1

/-- A header and one valid frame of a transaction that never wrote its commit frame. -/
def crashedWal : Bytes :=
  sampleHeader.serialize ++
    encodeFrames sampleHeader sampleHeader.headerChecksum [⟨2, 0, List.replicate 512 7⟩]

def walOnly (walBytes : Bytes) : World :=
  { present := fun path => path = .wal
    generation := fun _ => 0
    inode := fun _ => walBytes
    locks := []
    nonces := fun _ => 0 }

def nextTransaction : WalTransaction 512 :=
  { body := []
    last := (1, List.replicate 512 9)
    dbSize := 2
    commits := by decide
    sized := by decide +kernel }

/-- The commit of page 1 also publishes page 2 of the abandoned transaction. -/
theorem commit_publishes_abandoned_page :
    WalHeader.parse crashedWal = .ok sampleHeader ∧
      ¬ ∃ after newBytes,
        (commitToWal none nextTransaction).exec (unixVfs 1) () (walOnly crashedWal) =
            ⟨after, (), .ok ()⟩ ∧
          after.content .wal = some newBytes ∧
          committedPages sampleHeader newBytes =
            ((committedPages sampleHeader crashedWal).1.writes nextTransaction.writes,
              nextTransaction.dbSize) := by
  refine ⟨by decide +kernel, ?_⟩
  rintro ⟨after, newBytes, ran, content, same⟩
  have seen : (((commitToWal none nextTransaction).exec (unixVfs 1) ()
      (walOnly crashedWal)).world.content .wal).map
      (fun bytes => (committedPages sampleHeader bytes).1.get 2) =
        some (some (List.replicate 512 7)) := by
    decide +kernel
  have expected : ((committedPages sampleHeader crashedWal).1.writes nextTransaction.writes).get 2 =
      none := by
    decide +kernel
  rw [ran] at seen
  simp only [content, Option.map_some, same, expected] at seen
  exact Option.some_ne_none _ (Option.some.inj seen).symm

/-- A committed page, the same page written again without a commit, and a torn frame. -/
def tornWal : Bytes :=
  sampleHeader.serialize ++ (encodeFrames sampleHeader sampleHeader.headerChecksum
    [⟨2, 2, List.replicate 512 7⟩, ⟨2, 0, List.replicate 512 7⟩] ++ List.replicate 600 0)

def tornHint : WalResumeHint where
  header := sampleHeader
  offset := (lastValidFrameState sampleHeader tornWal).1
  running := (lastValidFrameState sampleHeader tornWal).2
  expectedSize := tornWal.length

theorem tornWal_harmless : TailHarmless sampleHeader tornWal nextTransaction := by
  have abandoned : abandonedFrames sampleHeader tornWal = [⟨2, 0, List.replicate 512 7⟩] := by
    decide +kernel
  have committed : (committedPages sampleHeader tornWal).1.get 2 = some (List.replicate 512 7) := by
    decide +kernel
  have stray : visibleStrays sampleHeader tornWal nextTransaction.frames = [] := by
    decide +kernel
  refine ⟨fun page content left _ _ => ?_, fun page content seen => ?_, .inl stray⟩
  · rw [abandoned] at left
    obtain rfl | differs := eq_or_ne page 2
    · exact committed.trans left
    · generalize (List.replicate 512 7 : Bytes) = old at left
      simp [frameWrites, CommitLog.effects, OrderedMap.lastWrite, differs] at left
  · rw [stray] at seen
    cases seen

/-- Resuming from the hint, the commit overwrites the torn frame and adds its own page. -/
theorem commit_over_torn_tail_adds_its_page :
    ∃ after newBytes,
      (commitToWal (some tornHint) nextTransaction).exec (unixVfs 1) () (walOnly tornWal) =
          ⟨after, (), .ok ()⟩ ∧
        after.content .wal = some newBytes ∧
        committedPages sampleHeader newBytes =
          ((committedPages sampleHeader tornWal).1.writes nextTransaction.writes,
            nextTransaction.dbSize) := by
  obtain ⟨after, newBytes, ran, content, -, exact⟩ :=
    commit_adds_exactly_its_pages_iff sampleHeader tornWal nextTransaction 1 (walOnly tornWal)
      (some tornHint) rfl (by decide +kernel) rfl (by
        rintro _ ⟨rfl⟩ _ _
        simp only [tornHint])
  exact ⟨after, newBytes, ran, content, exact.mpr tornWal_harmless⟩

end CrashedWriter

end SqliteRs
