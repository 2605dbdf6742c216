import SqliteRs.PagerOpen

/-!
What a flush in WAL mode does to the files. Under the write lock the dirty pages
become frames behind the last valid frame, or frames of a new file if the `-wal`
file is gone. In full synchronous mode they are in the file when the flush
returns; in the other modes they stay in the writer's buffer, which is dropped.
ROLLBACK forgets the edits and gives back the lock that BEGIN took, going by the
level recorded at BEGIN.
-/

namespace SqliteRs

open List SqliteRs.Action Pager Bool World Makes WalWriter WalIndex Except SparesPath

open ByteFile

namespace Pager

/-- What every commit leaves for the next: the `-shm` handle is one, and the resume hint stands
behind whole frames, at the size it expects the file to have. -/
structure WalReady (pager : Pager) : Prop where
  shmPath : ∀ shm ∈ pager.walShm, shm.path = .shm
  hint : ∀ saved ∈ pager.walResume, saved.header.pageSize = pager.pageSize ∧
    saved.expectedSize = saved.offset ∧
    ∃ count, saved.offset = headerLen + count * saved.header.frameSize

/-- A hint that the next commit trusts says where the valid frames of the file end. -/
def Resumes (log : Option Bytes) (pager : Pager) : Prop :=
  ∀ walBytes ∈ log, ∀ saved ∈ pager.walResume, saved.Describes walBytes

end Pager

/-- Where a commit starts to write: the header and bytes of the file, and the place and the
checksum its frames run on from. -/
structure WalStart where
  header : WalHeader
  base : Bytes
  offset : Nat
  running : Checksum

namespace WalStart

/-- The file once frames are written. -/
def written (start : WalStart) (frames : List WalFrame) : Bytes :=
  writeAt start.base start.offset (encodeFrames start.header start.running frames)

/-- A writer starts behind the valid frames, or at the end of a file that a trusted hint does
not describe. -/
def Follows (start : WalStart) (log : Option Bytes) (pager : Pager) : Prop :=
  (pager.Resumes log ∧
      (start.offset, start.running) = lastValidFrameState start.header start.base) ∨
    (¬ pager.Resumes log ∧ start.offset = start.base.length ∧
      (∃ count, start.base.length = headerLen + count * start.header.frameSize) ∧
      (start.base.length, start.running) ≠ lastValidFrameState start.header start.base)

end WalStart

/-- The file a commit starts from: the one there, or a new one of just a header. -/
inductive CommitBase (pageSize : UInt32) : Option Bytes → WalHeader → Bytes → Prop
  | existing (walBytes : Bytes) (header : WalHeader) (parsed : WalHeader.parse walBytes = .ok header)
      (fits : header.pageSize = pageSize) : CommitBase pageSize (some walBytes) header walBytes
  | recreated (salt1 salt2 : UInt32) :
      CommitBase pageSize none (WalHeader.new true pageSize salt1 salt2 1)
        (WalHeader.new true pageSize salt1 salt2 1).serialize

namespace WalHeader

@[simp] theorem length_serialize (header : WalHeader) : header.serialize.length = headerLen := rfl

theorem lastValid_serialize (header : WalHeader) :
    lastValidFrameState header header.serialize = (headerLen, header.headerChecksum) := by
  have none : walFrames header header.serialize = [] := by
    have dropped : header.serialize.drop headerLen = [] :=
      drop_eq_nil_of_le (Nat.le_of_eq (length_serialize header))
    rw [walFrames, dropped]
    rfl
  rw [lastValidFrameState_frames, none]
  simp [chainFrames]

end WalHeader

variable {pageSize : UInt32} {before : Option Bytes} {header : WalHeader} {base : Bytes}

theorem CommitBase.fits (start : CommitBase pageSize before header base) :
    header.pageSize = pageSize := by
  cases start with
  | existing _ _ _ fits => exact fits
  | recreated salt1 salt2 => rfl

theorem CommitBase.long (start : CommitBase pageSize before header base) : headerLen ≤ base.length := by
  cases start with
  | existing _ _ parsed _ => exact WalHeader.parse_long _ _ parsed
  | recreated salt1 salt2 => exact Nat.le_of_eq (WalHeader.length_serialize _).symm

section Opening

variable (proc : Nat) (world after : World) (pager last : Pager) (writer : WalWriter)

variable {path : Path}

theorem createWal_spares (differ : Path.wal ≠ path) : SparesPath path createWal := by
  refine Only.bind Only.get fun pager => ?_
  refine Only.bind (Makes.ask _ .randomNonce trivial) fun salt1 => ?_
  refine Only.bind (Makes.ask _ .randomNonce trivial) fun salt2 => ?_
  refine Only.free (Makes.createOrOpenWrite_bind differ fun file on => ?_)
  refine Only.bind (Makes.ask _ (.writeAt file 0 _) ?_) fun _ => Only.pure _
  simpa only [Call.Spares, on] using differ

theorem createWal_ok (absent : world.present .wal = false)
    (ran : createWal.exec (unixVfs proc) pager world = ⟨after, last, .ok writer⟩) :
    ∃ header base, CommitBase pager.pageSize none header base ∧ after.content .wal = some base ∧
      writer = resumeAt (after.handle .wal) header
        (lastValidFrameState header base).1 (lastValidFrameState header base).2 ∧ last = pager := by
  simp only [Pager.createWal, exec_bind, exec_get, exec_randomNonce,
    exec_free, WalWriter.create, exec_createOrOpenWrite, absent, false_eq_true, if_false,
    exec_writeAt, exec_monad_pure] at ran
  obtain ⟨rfl, rfl, rfl⟩ := ran
  refine ⟨_, _, .recreated (world.nonces 0) (world.nonces 1 ^^^ 0x5A5A5A5A), ?_, ?_, rfl⟩
  · rw [content_store_same _ _ _ (present_create _ _), inode_create,
      writeAt_eq_append [] _ _ (Nat.zero_le _), take_nil, drop_nil, append_nil,
      nil_append]
  · rw [WalHeader.lastValid_serialize]
    rfl

theorem createShm_spares (differ : Path.shm ≠ path) : SparesPath path createShm := by
  refine createOrOpenWrite_bind differ fun file on => ?_
  refine Only.bind (Makes.ask _ (.writeAt file 0 _) (by simpa [Call.Spares, on] using differ))
    fun _ => ?_
  refine Only.bind (Makes.ask _ (.sync file) trivial) fun _ => ?_
  exact Only.free openWalShm_makes.spares

theorem createShm_path (found : Option Handle)
    (ran : createShm.exec (unixVfs proc) pager world = ⟨after, last, .ok found⟩) :
    (∀ shm ∈ found, shm.path = .shm) ∧ last = pager := by
  simp only [createShm, exec_bind, exec_createOrOpenWrite, exec_writeAt, exec_sync,
    exec_free, Outcome.mk.injEq] at ran
  obtain ⟨_, rfl, ran⟩ := ran
  refine ⟨?_, rfl⟩
  revert ran
  generalize opened : openWalShm.exec (unixVfs proc) () _ = outcome
  obtain ⟨openWorld, ⟨⟩, error | res⟩ := outcome
  · intro ran
    cases ran
  intro ran
  cases ran
  exact openWalShm_path proc _ openWorld () () found opened

/-- The writer stands in the `-wal` file, which may be a new one. -/
def WalOpened : Prop :=
  ∃ start : WalStart, CommitBase pager.pageSize (world.content .wal) start.header start.base ∧
    start.Follows (world.content .wal) pager ∧ after.content .wal = some start.base ∧
    writer = resumeAt (after.handle .wal) start.header start.offset start.running ∧
    SamePath .main world after ∧ SamePath .journal world after ∧
    (∀ shm ∈ last.walShm, shm.path = .shm) ∧
    last = { pager with walShm := last.walShm, walResume := last.walResume }

theorem recreateWalLocked_ok (absent : world.present .wal = false)
    (ran : recreateWalLocked.exec (unixVfs proc) pager world = ⟨after, last, .ok writer⟩) :
    WalOpened world after pager last writer := by
  rw [WalOpened, (world.content_eq_none_iff .wal).mpr absent]
  rw [recreateWalLocked, exec_bind_ok] at ran
  obtain ⟨created, part, made, createRun, ran⟩ := ran
  rw [exec_bind_ok] at ran
  obtain ⟨indexed, part', walShm, shmRun, ran⟩ := ran
  simp only [exec_bind, exec_modify, exec_monad_pure, Outcome.mk.injEq, ok.injEq] at ran
  obtain ⟨rfl, rfl, rfl⟩ := ran
  have others : ∀ path, Path.wal ≠ path → SamePath path world created := by
    intro path differ
    exact after (createWal_spares differ) createRun
  obtain ⟨header, base, start, content, resumed, rfl⟩ :=
    createWal_ok proc world created pager part made absent createRun
  obtain ⟨shmPath, rfl⟩ := createShm_path proc created indexed part part' walShm shmRun
  have spared : ∀ path, Path.shm ≠ path → SamePath path created indexed := by
    intro path differ
    exact after (createShm_spares differ) shmRun
  refine ⟨⟨header, base, (lastValidFrameState header base).1, (lastValidFrameState header base).2⟩,
    start, .inl ⟨by simp [Pager.Resumes], rfl⟩, ?_, ?_,
    (others .main (by decide)).trans (spared .main (by decide)),
    (others .journal (by decide)).trans (spared .journal (by decide)), shmPath, rfl⟩
  · rw [(spared .wal (by decide)).content]
    exact content
  · rw [(spared .wal (by decide)).handle]
    exact resumed

theorem openOrRecreateWal_ok (ready : pager.WalReady)
    (ran : openOrRecreateWal.exec (unixVfs proc) pager world = ⟨after, last, .ok writer⟩) :
    WalOpened world after pager last writer := by
  simp only [openOrRecreateWal, exec_bind, exec_get, exec_attempt, exec_free] at ran
  by_cases present : world.present .wal = true
  · obtain ⟨res, opened, outcome⟩ := openExisting_present proc world
      pager.pageSize pager.walResume present
    have content := world.content_of_present .wal present
    rw [opened] at ran
    rw [WalOpened, content]
    rcases outcome with ⟨described, ⟨error, rfl, notVfs⟩ | ⟨header, parsed, fits, rfl⟩⟩ |
      ⟨saved, hinted, size, parsed, rfl⟩
    · simp only [Except.mapError] at ran
      cases error with
      | vfs src => exact absurd rfl (notVfs src)
      | headerTooShort | invalidMagic | invalidPageSize | headerChecksumMismatch => cases ran
    · obtain ⟨rfl, rfl, rfl⟩ := ran
      refine ⟨⟨header, _, _, _⟩, .existing _ header parsed fits, .inl ⟨?_, rfl⟩, content, rfl,
        .refl _ _, .refl _ _, ready.shmPath, rfl⟩
      rintro _ ⟨rfl⟩
      exact described
    · obtain ⟨rfl, rfl, rfl⟩ := ran
      obtain ⟨fits, expected, aligned⟩ := ready.hint saved (by rw [hinted]; rfl)
      refine ⟨⟨saved.header, _, saved.offset, saved.running⟩, .existing _ _ parsed fits, ?_,
        content, rfl, .refl _ _, .refl _ _, ready.shmPath, rfl⟩
      rw [WalStart.Follows, ← size, expected]
      -- The hint matched the file, so it is trusted whether or not it describes it.
      by_cases resumes : pager.Resumes (some (world.inode (world.handle .wal)))
      · exact .inl ⟨resumes, resumes _ rfl saved hinted size parsed⟩
      · refine .inr ⟨resumes, rfl, aligned, fun state => resumes ?_⟩
        rintro _ ⟨rfl⟩ other also
        rw [hinted] at also
        cases also
        exact fun _ _ => state
  · have absent : world.present .wal = false := not_eq_true _ ▸ present
    rw [exec_openExisting_missing proc world _ _ absent] at ran
    exact recreateWalLocked_ok proc world after pager last writer absent ran

end Opening

section Frames

variable (post : UInt32)

theorem frameWrites_commitFrames (entries : List (UInt32 × Bytes)) :
    frameWrites (commitFrames post entries) = entries := by
  induction entries with
  | nil => rfl
  | cons entry rest ih =>
    cases rest with
    | nil => rfl
    | cons next more =>
      have later : frameWrites (commitFrames post (entry :: next :: more)) =
        entry :: frameWrites (commitFrames post (next :: more)) := rfl
      rw [later, ih]

theorem commitFrames_sized (header : WalHeader) (entries : List (UInt32 × Bytes))
    (sized : ∀ entry ∈ entries, entry.2.length = header.pageSize.toNat) :
    ∀ frame ∈ commitFrames post entries, frame.Sized header := by
  induction entries with
  | nil => simp [commitFrames]
  | cons entry rest ih =>
    have first := sized entry mem_cons_self
    cases rest with
    | nil =>
      intro frame mem
      cases mem_singleton.mp mem
      exact first
    | cons next more =>
      intro frame mem
      rcases mem_cons.mp mem with rfl | later
      · exact first
      · exact ih (fun page inRest => sized page (mem_cons_of_mem _ inRest)) frame later

theorem commitFrames_whole (entries : List (UInt32 × Bytes))
    (closed : (commitFrames post entries).any WalFrame.commits = true) :
    committedFrames (commitFrames post entries) = commitFrames post entries := by
  induction entries with
  | nil => rfl
  | cons entry rest ih =>
    cases rest with
    | nil =>
      have commits : (⟨entry.1, post, entry.2⟩ : WalFrame).commits = true := by
        simpa [commitFrames] using closed
      exact CommitLog.committed_concat _ [] _ commits
    | cons next more =>
      have split : commitFrames post (entry :: next :: more) =
        [⟨entry.1, 0, entry.2⟩] ++ commitFrames post (next :: more) := rfl
      have inner : (commitFrames post (next :: more)).any WalFrame.commits = true := by
        rw [split] at closed
        simpa [WalFrame.commits] using closed
      rw [split, committedFrames, CommitLog.committed_append_closed _ _ _ inner]
      exact congrArg _ (ih inner)

end Frames

/-- What a commit under the write lock leaves: the frames in the file in full synchronous mode,
the file as it was otherwise, and the pager up to what only speeds up later calls. -/
structure WalAppended (entries : List (UInt32 × Bytes)) (before after : World) (pager last : Pager)
    (start : WalStart) (post : UInt32) : Prop where
  base : CommitBase pager.pageSize (before.content .wal) start.header start.base
  follows : start.Follows (before.content .wal) pager
  postCount : ∃ page1, pager.view before 1 = .ok page1 ∧
    readBeU32 page1 pageCountOffset = .ok post
  wal : after.content .wal = some (if pager.synchronous = .full
    then start.written (Pager.commitFrames post entries) else start.base)
  main : World.SamePath .main before after
  journal : World.SamePath .journal before after
  pagerKept : last = { pager with
    walShm := last.walShm, walResume := last.walResume, pageCache := last.pageCache }
  cache : last.pageCache.Within
    fun pageNum => (mainPage before pager.source pager.pageSize pageNum).toOption
  shmPath : ∀ shm ∈ last.walShm, shm.path = .shm
  hint : ∃ file, last.walResume = some ((WalWriter.resumeAt file start.header start.offset
    start.running).appendAll (Pager.commitFrames post entries)).resumeHint

section Appending

variable (proc : Nat) (world after : World) (pager last : Pager)

theorem exec_readPageM (sound : pager.Sound world) (pageNum : UInt32) :
    ∃ cache, (readPageM pageNum).exec (unixVfs proc) pager world =
        ⟨world, { pager with pageCache := cache }, (pager.view world pageNum).mapError .page⟩ ∧
      Pager.Sound world { pager with pageCache := cache } := by
  obtain ⟨cache, ran, soundAfter⟩ := exec_readPage proc world pager sound pageNum
  exact ⟨cache, by rw [readPageM, exec_zoom, id, ran], soundAfter⟩

theorem exec_appendFrames_sync (file : Handle) (header : WalHeader) (off : Nat)
    (running : Checksum) (frames : List WalFrame) (some : frames ≠ []) (durable : Bool) :
    ∃ writer, (do
          appendFrames frames
          Action.when durable sync : Vfs WalWriter WalError Unit).exec (unixVfs proc)
        (resumeAt file header off running) world =
      ⟨if durable then world.store file
          (writeAt (world.inode file) off (encodeFrames header running frames)) else world,
        writer, .ok ()⟩ ∧
      writer.resumeHint = ((resumeAt file header off running).appendAll frames).resumeHint ∧
      writer.frameCount =
        ((resumeAt file header off running).appendAll frames).frameCount := by
  have start : ((resumeAt file header off running).appendAll frames).pendingOffset =
      .some off := by
    rw [appendAll_pendingOffset, if_neg some]
    rfl
  obtain ⟨onFile, _, _, _, pending⟩ := appendAll_pending frames
    (resumeAt file header off running)
  simp only [exec_bind, exec_appendFrames, exec_when]
  cases durable with
  | false => exact ⟨_, rfl, rfl, rfl⟩
  | true =>
    simp only [exec_sync_pending proc world _ _ start, onFile, pending]
    exact ⟨_, rfl, rfl, rfl⟩

variable (walShm : Option Handle) (frame : UInt32)

theorem publishFrameCount_spares {path : Path}
    (onShm : ∀ shm ∈ walShm, shm.path = .shm) (differ : Path.shm ≠ path) :
    SparesPath path (publishFrameCount walShm frame) := by
  cases walShm with
  | none =>
    exact Only.free (makes_spares (publishWalMxFrame_makes frame) differ)
  | some shm =>
    have shmPath := onShm shm rfl
    exact Only.free (writeU32At_spares shm _ _ (by rw [shmPath]; exact differ))

theorem publishFrameCount_state : KeepsState (publishFrameCount walShm frame) := by
  cases walShm with
  | none | some => exact KeepsState.free _ _

theorem appendCommit_ok (sound : pager.Sound world) (ready : pager.WalReady)
    (entries : List (UInt32 × Bytes)) (some : entries ≠ [])
    (ran : (appendCommit entries).exec (unixVfs proc) pager world = ⟨after, last, .ok ()⟩) :
    ∃ start post, WalAppended entries world after pager last start post := by
  obtain ⟨cache, read, readSound⟩ := exec_readPageM proc world pager sound 1
  rw [Pager.appendCommit, exec_bind_ok] at ran
  obtain ⟨same, part, page1, readRun, ran⟩ := ran
  rw [read] at readRun
  simp only [Outcome.mk.injEq] at readRun
  obtain ⟨rfl, rfl, viewed⟩ := readRun
  have page1View : pager.view world 1 = .ok page1 := by
    cases view : pager.view world 1 with
    | error error => simp [view, Except.mapError] at viewed
    | ok page =>
      simp only [view, Except.mapError, Except.ok.injEq] at viewed
      rw [viewed]
  simp only [exec_bind, exec_check] at ran
  cases count : readBeU32 page1 pageCountOffset with
  | error error => simp [count, Except.mapError] at ran
  | ok post =>
    simp only [count, Except.mapError] at ran
    generalize openRun : Pager.openOrRecreateWal.exec (unixVfs proc)
      { pager with pageCache := cache } world = opened at ran
    obtain ⟨openWorld, openPager, error | writer⟩ := opened
    · simp at ran
    obtain ⟨start, base, follows, content, resumed, main, journal, shmPath, kept⟩ :=
      openOrRecreateWal_ok proc world openWorld { pager with pageCache := cache } openPager
        writer ⟨ready.shmPath, ready.hint⟩ openRun
    have framesSome : Pager.commitFrames post entries ≠ [] := by
      intro none
      have writes := frameWrites_commitFrames post entries
      rw [none] at writes
      exact some writes.symm
    obtain ⟨written, wrote, hint, frameCount⟩ := exec_appendFrames_sync proc openWorld
      (openWorld.handle .wal) start.header start.offset start.running
      (Pager.commitFrames post entries) framesSome (openPager.synchronous = .full)
    have inode : openWorld.inode (openWorld.handle .wal) = start.base :=
      ((openWorld.content_eq_some_iff _ .wal).mp content).2
    rw [← resumed] at wrote
    simp only [exec_get, exec_zoom, exec_owning, wrote, inode] at ran
    -- Only the published frame count is left, and it goes to another file.
    have present := ((openWorld.content_eq_some_iff _ .wal).mp content).1
    generalize stored : (if decide (openPager.synchronous = .full) = true
      then openWorld.store (openWorld.handle .wal) (writeAt start.base start.offset
          (encodeFrames start.header start.running (Pager.commitFrames post entries)))
      else openWorld) = storedWorld at ran
    have publishSpares : ∀ path, Path.shm ≠ path → SamePath path storedWorld after := by
      intro path differ
      exact SparesPath.after
        (publishFrameCount_spares openPager.walShm written.frameCount shmPath differ) ran
    have state := (publishFrameCount_state openPager.walShm written.frameCount).after ran
    have synchronous : openPager.synchronous = pager.synchronous := by rw [kept]
    have storedSame : ∀ path, Path.wal ≠ path → SamePath path openWorld storedWorld := by
      intro path differ
      rw [← stored]
      split
      · exact openWorld.samePath_store _ _ path differ
      · exact .refl path openWorld
    have storedWal : storedWorld.content .wal = .some (if pager.synchronous = .full
        then start.written (Pager.commitFrames post entries) else start.base) := by
      rw [← stored, synchronous]
      by_cases full : pager.synchronous = .full
      · simp only [full]
        exact content_store_same _ _ _ present
      · simp only [full]
        exact content
    refine ⟨start, post, base, follows, ⟨page1, page1View, count⟩, ?_, ?_, ?_, ?_, ?_, ?_, ?_⟩
    · rw [(publishSpares .wal (by decide)).content]
      exact storedWal
    · exact (main.trans (storedSame .main (by decide))).trans (publishSpares .main (by decide))
    · exact (journal.trans (storedSame .journal (by decide))).trans
        (publishSpares .journal (by decide))
    · rw [state, kept]
    · rw [state, kept]
      exact readSound.cache
    · rw [state]
      exact shmPath
    · rw [state]
      exact ⟨openWorld.handle .wal, by rw [hint]⟩

end Appending

section Locked

variable (walShm : Option Handle) (held : Option Region)

theorem claimWalWriter_spares : SparesFiles (claimWalWriter walShm) := by
  intro path
  cases walShm with
  | none => exact Only.free (claimShmLock_makes .walWrite).spares
  | some shm =>
    exact Only.bind (Only.free (setLock_makes .walWrite .write).spares)
      fun _ => Only.pure _

theorem releaseWalWriter_spares : SparesFiles (releaseWalWriter walShm held) := by
  intro path
  refine Only.bind ?_ fun _ => Only.free (dropGuard_makes held).spares
  cases walShm with
  | none => exact Only.pure _
  | some shm => exact Only.free (dropGuard_makes _).spares

theorem claimWalWriter_state : KeepsState (claimWalWriter walShm) := by
  cases walShm with
  | none => exact KeepsState.free _ _
  | some shm =>
    exact KeepsState.bind (KeepsState.free _ _) fun _ => KeepsState.pure _

theorem releaseWalWriter_state : KeepsState (releaseWalWriter walShm held) :=
  KeepsState.bind (KeepsState.when _ (KeepsState.free _ _))
    fun _ => KeepsState.free _ _

section

variable (proc : Nat) (world after : World) (pager last : Pager)

include proc world after pager last

theorem cacheWalShm_ok (ran : cacheWalShm.exec (unixVfs proc) pager world = ⟨after, last, .ok ()⟩) :
    (∀ path, SamePath path world after) ∧ (∀ shm ∈ last.walShm, shm.path = .shm) ∧
      last = { pager with walShm := last.walShm } := by
  rw [Pager.cacheWalShm, exec_bind_ok] at ran
  obtain ⟨opened, part, walShm, openRun, ran⟩ := ran
  obtain ⟨rfl, rfl, _⟩ := ran
  rw [exec_free] at openRun
  generalize outcome : WalIndex.openWalShm.exec (unixVfs proc) () world = res at openRun
  obtain ⟨openWorld, ⟨⟩, error | found⟩ := res
  · simp [Except.mapError] at openRun
  simp only [Except.mapError, Outcome.mk.injEq, Except.ok.injEq] at openRun
  obtain ⟨rfl, rfl, rfl⟩ := openRun
  refine ⟨?_, WalIndex.openWalShm_path proc world openWorld () () found outcome, rfl⟩
  intro path
  exact SparesPath.after WalIndex.openWalShm_makes.spares outcome

theorem flushWalLocked_ok (onMain : pager.source.path = .main) (sound : pager.Sound world)
    (ready : pager.WalReady) (edited : pager.dirty.entries ≠ [])
    (ran : flushWalLocked.exec (unixVfs proc) pager world = ⟨after, last, .ok ()⟩) :
    ∃ committed start post,
      WalAppended pager.dirty.entries world after pager committed start post ∧
        last = { committed with
          walPages := pager.walPages.writes pager.dirty.entries, dirty := OrderedMap.empty } := by
  rw [flushWalLocked, exec_bind_ok] at ran
  obtain ⟨start, begun, got, gotRun, ran⟩ := ran
  obtain ⟨rfl, rfl, rfl⟩ := gotRun
  rw [exec_bind_ok] at ran
  obtain ⟨cached, cachedPager, _, cacheRun, ran⟩ := ran
  have cacheOk : (∀ path, SamePath path world cached) ∧ (∀ shm ∈ cachedPager.walShm, shm.path = .shm) ∧
      cachedPager = { pager with walShm := cachedPager.walShm } := by
    rw [exec_when] at cacheRun
    split at cacheRun
    · exact cacheWalShm_ok proc world cached pager cachedPager cacheRun
    · cases cacheRun
      exact ⟨fun path => .refl path world, ready.shmPath, rfl⟩
  obtain ⟨cachedSame, shmPath, cachedKept⟩ := cacheOk
  rw [exec_bind_ok] at ran
  obtain ⟨_, _, _, gotAgain, ran⟩ := ran
  obtain ⟨rfl, rfl, rfl⟩ := gotAgain
  rw [exec_bind_ok] at ran
  obtain ⟨claimed, claimedPager, held, claimRun, ran⟩ := ran
  have claimSame := (claimWalWriter_spares cachedPager.walShm).after claimRun
  have claimState := (claimWalWriter_state cachedPager.walShm).after claimRun
  subst claimState
  rw [exec_bind_ok] at ran
  obtain ⟨appended, committed, outcome, appendRun, ran⟩ := ran
  simp only [exec_attempt, Outcome.mk.injEq, ok.injEq] at appendRun
  obtain ⟨appendWorld, appendState, appendResult⟩ := appendRun
  rw [exec_bind_ok] at ran
  obtain ⟨_, _, _, gotLast, ran⟩ := ran
  obtain ⟨rfl, rfl, rfl⟩ := gotLast
  rw [exec_bind_ok] at ran
  obtain ⟨released, releasedPager, _, releaseRun, ran⟩ := ran
  have releaseSame := (releaseWalWriter_spares committed.walShm held).after releaseRun
  have releaseState := (releaseWalWriter_state committed.walShm held).after releaseRun
  subst releaseState
  simp only [exec_bind] at ran
  cases outcome with
  | error error => simp at ran
  | ok res =>
    obtain ⟨rfl, rfl, _⟩ := ran
    -- The append ran on the same files and pager, up to locks and the cached handle.
    have same : ∀ path, SamePath path world claimed :=
      fun path => (cachedSame path).trans (claimSame path)
    have claimedMain : claimedPager.source.path = .main := by
      rw [cachedKept]
      exact onMain
    have claimedSound : claimedPager.Sound claimed := by
      apply sound_samePath (same .main) claimedMain
      rw [cachedKept]
      exact ⟨sound.cache, sound.dirtySized, sound.walSized⟩
    have claimedReady : claimedPager.WalReady := by
      refine ⟨shmPath, ?_⟩
      rw [cachedKept]
      exact ready.hint
    have appendOk : (appendCommit pager.dirty.entries).exec (unixVfs proc) claimedPager
        claimed = ⟨appended, releasedPager, .ok ()⟩ := by
      rw [← appendWorld, ← appendState, ← appendResult]
    obtain ⟨start, post, append⟩ := appendCommit_ok proc claimed appended claimedPager
      releasedPager claimedSound claimedReady pager.dirty.entries edited appendOk
    have viewSame : claimedPager.view claimed 1 = pager.view world 1 := by
      rw [view_samePath (same .main) claimedPager claimedMain, cachedKept]
      rfl
    have sizeSame : claimedPager.pageSize = pager.pageSize := by rw [cachedKept]
    have fullSame : claimedPager.synchronous = pager.synchronous := by rw [cachedKept]
    have sourceSame : claimedPager.source = pager.source := by rw [cachedKept]
    have pagerKept : releasedPager = { pager with
        walShm := releasedPager.walShm, walResume := releasedPager.walResume,
        pageCache := releasedPager.pageCache } := by
      rw [append.pagerKept, cachedKept]
    refine ⟨releasedPager, start, post, ?_, ?_⟩
    swap
    · rw [pagerKept]
    refine
      { base := ?_, follows := ?_, postCount := ?_, wal := ?_, main := ?_, journal := ?_,
        pagerKept := pagerKept, cache := ?_, shmPath := append.shmPath, hint := append.hint }
    · have base := append.base
      rw [sizeSame, (same .wal).content] at base
      exact base
    · have follows := append.follows
      rw [cachedKept, (same .wal).content] at follows
      exact follows
    · have postCount := append.postCount
      rw [viewSame] at postCount
      exact postCount
    · have wal := append.wal
      rw [fullSame] at wal
      rw [(releaseSame .wal).content]
      exact wal
    · exact ((same .main).trans append.main).trans (releaseSame .main)
    · exact ((same .journal).trans append.journal).trans (releaseSame .journal)
    · have cache := append.cache
      rw [sourceSame, sizeSame] at cache
      simp only [mainPage_samePath (same .main) pager.source onMain] at cache
      exact cache

theorem setLockLevel_ok (level : LockLevel) (res : Except PagerError Unit)
    (ran : (setLockLevel level).exec (unixVfs proc) pager world = ⟨after, last, res⟩) :
    (∀ path, SamePath path world after) ∧ last = { pager with lock := last.lock } := by
  constructor
  · intro path
    exact SparesPath.after (Only.zoom (setLevel_spares level)) ran
  rw [setLockLevel, exec_zoom] at ran
  cases ran
  rfl

theorem releaseTxLock_ok (res : Except PagerError Unit)
    (ran : releaseTxLock.exec (unixVfs proc) pager world = ⟨after, last, res⟩) :
    (∀ path, SamePath path world after) ∧
      last = { pager with lock := last.lock, txLockLevel := last.txLockLevel } := by
  simp only [releaseTxLock, exec_bind, exec_get] at ran
  split at ran
  · rw [exec_bind] at ran
    generalize lowered : (setLockLevel .shared).exec (unixVfs proc) pager world = outcome at ran
    obtain ⟨middle, part, inner⟩ := outcome
    obtain ⟨same, kept⟩ := setLockLevel_ok proc world middle pager part .shared inner lowered
    cases inner with
    | error | ok =>
      cases ran
      exact ⟨same, by rw [kept]⟩
  · cases ran
    exact ⟨fun path => .refl path world, rfl⟩

end

/-- What a flush in WAL mode that returns `Ok` leaves, with nothing to commit or with edits. -/
inductive WalFlushed (before after : World) (pager last : Pager) : Prop
  | idle (clean : pager.dirty.entries = []) (same : ∀ path, World.SamePath path before after)
      (kept : last = { pager with lock := last.lock, txLockLevel := last.txLockLevel })
  | committed (edited : pager.dirty.entries ≠ []) (start : WalStart) (post : UInt32) (mid : Pager)
      (append : WalAppended pager.dirty.entries before after pager mid start post)
      (kept : last = { mid with
        lock := last.lock, txLockLevel := last.txLockLevel,
        walPages := pager.walPages.writes pager.dirty.entries, dirty := OrderedMap.empty })

theorem flush_wal_ok (proc : Nat) (world after : World) (pager last : Pager)
    (onMain : pager.source.path = .main) (sound : pager.Sound world)
    (ready : pager.WalReady) (mode : pager.journalMode = .wal)
    (ran : flush.exec (unixVfs proc) pager world = ⟨after, last, .ok ()⟩) :
    WalFlushed world after pager last := by
  simp only [flush, exec_bind, exec_get, mode, if_true] at ran
  by_cases clean : pager.dirty.isEmpty = true
  · rw [if_pos clean] at ran
    obtain ⟨same, kept⟩ := releaseTxLock_ok proc world after pager last _ ran
    exact .idle (isEmpty_iff.mp clean) same kept
  rw [if_neg clean, exec_bind_ok] at ran
  obtain ⟨flushed, part, outcome, flushRun, ran⟩ := ran
  rw [exec_attempt] at flushRun
  generalize locked : flushWalLocked.exec (unixVfs proc) pager world = inner at flushRun
  obtain ⟨lockedWorld, lockedPager, res⟩ := inner
  cases flushRun
  rw [exec_bind_ok] at ran
  obtain ⟨released, releasedPager, _, releaseRun, ran⟩ := ran
  simp only [exec_check, Outcome.mk.injEq] at ran
  obtain ⟨rfl, rfl, rfl⟩ := ran
  have edited : pager.dirty.entries ≠ [] := fun none => clean (isEmpty_iff.mpr none)
  obtain ⟨mid, start, post, append, rfl⟩ := flushWalLocked_ok proc world lockedWorld
    pager lockedPager onMain sound ready edited locked
  obtain ⟨same, kept⟩ := releaseTxLock_ok proc lockedWorld released _ releasedPager _ releaseRun
  refine .committed edited start post mid ?_ kept
  exact { append with
      wal := by rw [(same .wal).content]; exact append.wal
      main := append.main.trans (same .main)
      journal := append.journal.trans (same .journal) }

end Locked


theorem setLevel_reaches {World : Type} (system : System VfsCalls World) (target level : LockLevel)
    (world : World) : (setLevel target).Always system (fun _ _ => True)
      (fun _ last res => res = .ok () → last = target) level world := by
  cases level <;> cases target <;> repeat' first
    | exact fun _ => rfl
    | exact fun failed => nomatch failed
    | refine ⟨trivial, fun _ reply _ => ?_⟩; cases reply

theorem setLevel_ok {proc : Nat} {world after : World} {level last target : LockLevel}
    (ran : (setLevel target).exec (unixVfs proc) level world = ⟨after, last, .ok ()⟩) :
    last = target := by
  have reached := (setLevel_reaches (unixVfs proc).toSystem target level world).exec
  rw [ran] at reached
  exact reached rfl

namespace Pager

inductive BeginMode where
  | deferred
  | immediate
  | exclusive

def transaction : BeginMode → PagerM Unit
  | .deferred => Pure.pure ()
  | .immediate => beginImmediate
  | .exclusive => beginExclusive

/-- BEGIN, the page operations of any statements, ROLLBACK. -/
def abandoned (mode : BeginMode) (statements : Transaction) : PagerM Unit := do
  transaction mode
  perform statements
  rollback

variable {proc : Nat} {world after : World} {pager last : Pager}

theorem escalate_ok {level : LockLevel}
    (ran : (do setLockLevel level
               modify fun pager => { pager with txLockLevel := level } : PagerM Unit).exec
      (unixVfs proc) pager world = ⟨after, last, .ok ()⟩) :
    (∀ path, World.SamePath path world after) ∧
      last = { pager with lock := level, txLockLevel := level } := by
  obtain ⟨_, part, _, raised, ran⟩ := (exec_bind_ok ..).mp ran
  obtain ⟨same, -⟩ := setLockLevel_ok proc world _ pager part level _ raised
  rw [setLockLevel, exec_zoom] at raised
  generalize ladder : (setLevel level).exec (unixVfs proc) pager.lock world = outcome at raised
  obtain ⟨_, reached, _ | _⟩ := outcome
  · cases raised
  cases raised
  cases ran
  cases setLevel_ok ladder
  exact ⟨same, rfl⟩

/-- After ROLLBACK the pages are those of the last commit, so they are those before BEGIN
exactly if nothing was uncommitted then. -/
theorem rollback_restores_iff (mode : BeginMode) (statements : Transaction)
    (onMain : pager.source.path = .main) (sound : pager.Sound world)
    (idle : pager.lock = .shared ∧ pager.txLockLevel = .shared)
    (ran : (abandoned mode statements).exec (unixVfs proc) pager world = ⟨after, last, .ok ()⟩) :
    ((∀ page, last.view after page = pager.view world page) ∧ last.lock = .shared ∧
        flush.exec (unixVfs proc) last after = ⟨after, last, .ok ()⟩) ↔
      ∀ page, pager.view world page = pager.below world page := by
  obtain ⟨begun, opened, _, begins, ran⟩ := (exec_bind_ok ..).mp ran
  obtain ⟨worked, edited, _, works, ran⟩ := (exec_bind_ok ..).mp ran
  have start : (∀ path, World.SamePath path world begun) ∧ ∃ level : LockLevel,
      1 ≤ level.rank ∧ opened = { pager with lock := level, txLockLevel := level } := by
    cases mode with
    -- BEGIN DEFERRED takes no lock, so the transaction stays at the idle level.
    | deferred =>
      cases begins
      exact ⟨fun _ => .refl _ _, .shared, by decide, by cases pager; cases idle.1; cases idle.2; rfl⟩
    | immediate => exact (escalate_ok begins).imp_right fun kept => ⟨_, by decide, kept⟩
    | exclusive => exact (escalate_ok begins).imp_right fun kept => ⟨_, by decide, kept⟩
  obtain ⟨same, level, least, rfl⟩ := start
  obtain ⟨_, _, ended, base, -⟩ := perform_quiet statements proc begun
    { pager with lock := level, txLockLevel := level }
    (sound_samePath (same .main) onMain ⟨sound.cache, sound.dirtySized, sound.walSized⟩)
  rw [ended] at works
  cases works
  have finish : (∀ path, World.SamePath path begun after) ∧ last =
      { edited with dirty := OrderedMap.empty, lock := .shared, txLockLevel := .shared } := by
    replace ran : releaseTxLock.exec (unixVfs proc)
      { edited with dirty := OrderedMap.empty } begun = ⟨after, last, .ok ()⟩ := ran
    simp only [releaseTxLock, exec_bind, exec_get] at ran
    split at ran
    · exact escalate_ok ran
    · rename_i low
      cases ran
      rw [base] at low ⊢
      replace low : ¬ LockLevel.shared < level := low
      have shared : level = .shared := by
        cases level <;> first | rfl | contradiction
      exact ⟨fun _ => .refl _ _, by rw [shared]⟩
  obtain ⟨later, rfl⟩ := finish
  have read (page : UInt32) : view { edited with
      dirty := OrderedMap.empty, lock := .shared, txLockLevel := .shared } after page =
        pager.below world page := by
    rw [base, below_eq, ← mainPage_samePath ((same .main).trans (later .main)) _ onMain, view_eq,
      below_eq]
    rfl
  constructor
  · exact fun held page => (held.1 page).symm.trans (read page)
  · exact fun clean => ⟨fun page => (read page).trans (clean page).symm, rfl, rfl⟩

def idle : Pager :=
  ⟨.shared, .shared, none, none, none, ⟨.main, 0⟩, .empty, .empty, .new 0, 512, .legacy, .full⟩

/-- A file of two pages: the header counts them and page 2 is all threes. -/
def twoPages : World where
  present path := path = .main
  generation _ := 0
  inode _ := zeros 28 ++ ([0, 0, 0, 2] ++ (zeros 480 ++ replicate 512 3))
  locks := []
  nonces _ := 0

def fillPage (pageNum : UInt32) (byte : UInt8) : PageCall :=
  .edit pageNum ⟨fun page => replicate page.length byte, fun _ => length_replicate⟩

/-- Overwrites page 2, appends pages 3 and 4 and gives page 3 back to the freelist. -/
def growth : Transaction :=
  .call (fillPage 2 7) fun _ => .call .allocate fun _ => .call .allocate fun _ =>
    .call (.deallocate 3) fun _ => .done ()

theorem sound_idle (world : World) : idle.Sound world where
  cache := PageCache.within_new 0
  dirtySized _ _ held := nomatch held
  walSized _ _ held := nomatch held

/-- The transaction shows a new page 2 and an appended page 4; after ROLLBACK neither is there. -/
theorem rollback_undoes_growth :
    let begun := (do transaction .immediate; perform growth : PagerM Unit).exec
      (unixVfs 1) idle twoPages
    let ended := (abandoned .immediate growth).exec (unixVfs 1) idle twoPages
    begun.state.view begun.world 2 = .ok (replicate 512 7) ∧
      begun.state.view begun.world 4 = .ok (zeros 512) ∧
      ended.result = .ok () ∧ ended.state.lock = .shared ∧
      ∀ page, ended.state.view ended.world page = idle.view twoPages page := by
  intro begun ended
  have shown : begun.state.view begun.world 2 = .ok (replicate 512 7) ∧
      begun.state.view begun.world 4 = .ok (zeros 512) ∧ ended.result = .ok () := by
    decide +kernel
  have ran : ended = ⟨ended.world, ended.state, .ok ()⟩ := by rw [← shown.2.2]
  have restored := (rollback_restores_iff .immediate growth rfl (sound_idle twoPages) ⟨rfl, rfl⟩
    ran).mpr fun _ => rfl
  exact ⟨shown.1, shown.2.1, shown.2.2, restored.2.1, restored.1⟩

/-- A page that a failed statement left edited before BEGIN is back at its committed content
after ROLLBACK, along with the pages the transaction edited. -/
theorem rollback_drops_earlier_edit :
    let failed := (perform (.call (fillPage 2 9) fun _ => .done ())).exec (unixVfs 1) idle twoPages
    let ended := (abandoned .immediate growth).exec (unixVfs 1) failed.state failed.world
    failed.result = .ok () ∧ failed.state.view failed.world 2 = .ok (replicate 512 9) ∧
      ended.result = .ok () ∧ ended.state.view ended.world 2 = .ok (replicate 512 3) := by
  decide +kernel

end Pager

end SqliteRs
