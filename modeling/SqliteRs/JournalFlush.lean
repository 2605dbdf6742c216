import SqliteRs.JournalImage

/-!
The phases of a rollback-journal flush, on a machine that may crash. While the
journal is written the main file is the original; once the journal is complete
and synced, pages are written and the main file agrees with the original outside
the saved pages; when the journal is deleted the main file is the new one. Every
call of the flush is made in one of these phases.
-/

namespace SqliteRs

open List SqliteRs.Action Machine Or Pager OrderedMap Call

open ByteFile

namespace Machine

def Synced (machine : Machine) : Prop :=
  ∃ file : Handle, file.path = .journal ∧ Call.sync file ∈ machine.history

def Deleted (machine : Machine) : Prop := Call.delete .journal ∈ machine.history

end Machine

section Phases

variable (source : Handle) (pageSize : UInt32) (level : SynchronousMode) (orig : Bytes)
  (saved : List UInt32) (old : Option Bytes) (committed : Bytes) (machine : Machine)

structure Journaling : Prop where
  handle : machine.world.handle .main = source
  main : machine.world.content .main = some orig
  journal : JournalGrowth pageSize orig saved old (machine.world.content .journal)
  disk : ∀ image, machine.disk .main image → image = some orig
  unsynced : ¬ machine.Synced
  kept : ¬ machine.Deleted

/-- The journal holds every saved page and the main file is being written. -/
structure Writing : Prop where
  handle : machine.world.handle .main = source
  journal : saved = [] ∨ ∃ journalBytes, machine.world.content .journal = some journalBytes ∧
    JournalSaves pageSize orig saved journalBytes ∧
    (level ≠ .off → ∀ image, machine.disk .journal image → image = some journalBytes)
  main : ∃ file, machine.world.content .main = some file ∧
    AgreesOutside (Covered pageSize orig saved) orig file
  disk : ∀ image, machine.disk .main image →
    ∃ file, image = some file ∧ AgreesOutside (Covered pageSize orig saved) orig file
  unsynced : saved = [] → ¬ machine.Synced
  kept : ¬ machine.Deleted

structure Committed : Prop where
  handle : machine.world.handle .main = source
  journal : saved ≠ [] → machine.world.content .journal = none ∧
    ∀ image, machine.disk .journal image → image = none
  main : machine.world.content .main = some committed
  disk : level = .full → ∀ image, machine.disk .main image → image = some committed
  nonzero : ∀ pageNum ∈ saved, pageNum ≠ 0
  unsynced : saved = [] → ¬ machine.Synced
  deleted : machine.Deleted ↔ saved ≠ []

inductive FlushPhase : Prop
  | journaling (phase : Journaling source pageSize orig saved old machine)
  | writing (phase : Writing source pageSize level orig saved machine)
  | committed (phase : Committed source level saved committed machine)

end Phases

def LockCall : Call → Prop
  | .setLock _ _ => True
  | _ => False

/-- The calls a flush makes between taking and releasing its lock. -/
def FlushCall (source : Handle) : Call → Prop
  | .readAt file _ _ => file = source
  | .randomNonce => True
  | .createOrOpenWrite path => path = .journal
  | .writeAt file _ _ => file = source ∨ file.path = .journal
  | .sync file => file = source ∨ file.path = .journal
  | .delete path => path = .journal
  | _ => False

section Steps

variable {src : Handle} {pageSize : UInt32} {level : SynchronousMode} {orig : Bytes}
  {saved : List UInt32} {old : Option Bytes} {committed : Bytes} {machine : Machine} {proc : Nat}

theorem Machine.synced_answer (call : Call) : (crashAnswer proc machine call).1.Synced ↔
      machine.Synced ∨ ∃ file : Handle, file.path = .journal ∧ call = .sync file := by
  simp [Synced, crashAnswer, mem_append, and_or_left, exists_or, eq_comm]

theorem Machine.deleted_answer (call : Call) : (crashAnswer proc machine call).1.Deleted ↔
      machine.Deleted ∨ call = .delete .journal := by
  simp [Deleted, crashAnswer, mem_append, eq_comm]

section

variable (phase : Journaling src pageSize orig saved old machine)

include phase

theorem Journaling.grow (proc : Nat) (call : Call) (spares : call.Spares .main)
    (noSync : ∀ file : Handle, file.path = .journal → call ≠ .sync file)
    (noDelete : call ≠ .delete .journal) (grown : JournalGrowth pageSize orig saved old
      ((crashAnswer proc machine call).1.world.content .journal)) :
    Journaling src pageSize orig saved old (crashAnswer proc machine call).1 := by
  have same := unixAnswer_spares proc .main machine.world call spares
  refine ⟨?_, ?_, grown, ?_, ?_, ?_⟩
  · exact same.handle.trans phase.handle
  · exact same.content.trans phase.main
  · intro image left
    exact phase.disk image (imagesAfter_spares _ _ _ call spares image left)
  · rw [synced_answer]
    rintro (before | ⟨file, onJournal, rfl⟩)
    · exact phase.unsynced before
    · exact noSync file onJournal rfl
  · rw [deleted_answer]
    rintro (before | rfl)
    · exact phase.kept before
    · exact noDelete rfl

theorem Journaling.step
    (proc : Nat) (call : Call) (main : call.Spares .main) (journal : call.Spares .journal)
    (noSync : ∀ file : Handle, file.path = .journal → call ≠ .sync file) :
    Journaling src pageSize orig saved old (crashAnswer proc machine call).1 := by
  have noDelete : call ≠ .delete .journal := by
    rintro rfl
    exact journal rfl
  apply phase.grow proc call main noSync noDelete
  have same := (unixAnswer_spares proc .journal machine.world call journal).content
  have unchanged : (crashAnswer proc machine call).1.world.content .journal =
      machine.world.content .journal := same
  rw [unchanged]
  exact phase.journal

theorem Journaling.complete (ready : saved = [] ∨ ∃ bytes, machine.world.content .journal = some bytes ∧
      JournalSaves pageSize orig saved bytes ∧
      (level ≠ .off → ∀ image, machine.disk .journal image → image = some bytes)) :
    Writing src pageSize level orig saved machine :=
  { handle := phase.handle
    journal := ready
    main := ⟨orig, phase.main, .refl orig⟩
    disk := fun image left => ⟨orig, phase.disk image left, .refl orig⟩
    unsynced := fun _ => phase.unsynced
    kept := phase.kept }

theorem Journaling.synced (proc : Nat)
    (bytes : Bytes) (found : machine.world.content .journal = some bytes)
    (saves : JournalSaves pageSize orig saved bytes) (edits : saved ≠ []) :
    Writing src pageSize level orig saved
      (crashAnswer proc machine (.sync (machine.world.handle .journal))).1 := by
  refine ⟨phase.handle, inr ⟨bytes, found, saves, ?_⟩, ?_, ?_, fun none => absurd none edits, ?_⟩
  · rintro _ image ⟨_, durable⟩
    rw [durable rfl]
    exact found
  · exact ⟨orig, phase.main, .refl orig⟩
  · rintro image ⟨left, _⟩
    exact ⟨orig, phase.disk image left, .refl orig⟩
  · rw [deleted_answer]
    rintro (before | same)
    · exact phase.kept before
    · cases same

end

section

variable (phase : Writing src pageSize level orig saved machine)

include phase

theorem Writing.touch (proc : Nat) (call : Call) (journal : call.Spares .journal)
    (noSync : ∀ file : Handle, file.path = .journal → call ≠ .sync file)
    (handle : (crashAnswer proc machine call).1.world.handle .main = src)
    (main : ∃ file, (crashAnswer proc machine call).1.world.content .main = some file ∧
      AgreesOutside (Covered pageSize orig saved) orig file)
    (disk : ∀ image, (crashAnswer proc machine call).1.disk .main image →
      ∃ file, image = some file ∧ AgreesOutside (Covered pageSize orig saved) orig file) :
    Writing src pageSize level orig saved (crashAnswer proc machine call).1 := by
  have journalSame := unixAnswer_spares proc .journal machine.world call journal
  refine ⟨handle, ?_, main, disk, ?_, ?_⟩
  · rcases phase.journal with none | ⟨bytes, found, saves, durable⟩
    · exact inl none
    refine inr ⟨bytes, journalSame.content.trans found, saves, ?_⟩
    intro synced image left
    exact durable synced image (imagesAfter_spares _ _ _ call journal image left)
  · intro none
    rw [synced_answer]
    rintro (before | ⟨file, onJournal, rfl⟩)
    · exact phase.unsynced none before
    · exact noSync file onJournal rfl
  · rw [deleted_answer]
    rintro (before | rfl)
    · exact phase.kept before
    · exact journal rfl

theorem Writing.onMain : src.path = .main := by
  rw [← phase.handle]
  rfl

theorem Writing.write
    (proc off : Nat) (data : Bytes) (covered : ∀ index, index < orig.length → off ≤ index →
      index < off + data.length → Covered pageSize orig saved index) :
    Writing src pageSize level orig saved (crashAnswer proc machine (.writeAt src off data)).1 := by
  have spares : (Call.writeAt src off data).Spares .journal := by
    rw [Spares, phase.onMain]
    decide
  apply phase.touch proc _ spares (fun _ _ => by simp) phase.handle
  · rcases phase.main with ⟨file, found, agrees⟩
    exact ⟨writeAt file off data,
      content_crash_write proc machine .main src file found phase.handle off data,
      agrees.tornWrite (tornWrite_whole file off data) covered⟩
  · rintro image (left | ⟨_, before, after, left, rfl, torn⟩)
    · exact phase.disk image left
    rcases phase.disk _ left with ⟨was, same, agreed⟩
    cases same
    exact ⟨after, rfl, agreed.tornWrite torn covered⟩

theorem Writing.truncate (proc : Nat) : Writing src pageSize level orig saved
      (crashAnswer proc machine (.truncate src orig.length)).1 := by
  have spares : (Call.truncate src orig.length).Spares .journal := by
    rw [Spares, phase.onMain]
    decide
  apply phase.touch proc _ spares (fun _ _ => by simp) phase.handle
  · rcases phase.main with ⟨file, found, agrees⟩
    exact ⟨ByteFile.truncate file orig.length,
      content_crash_truncate proc machine .main src file found phase.handle _,
      agrees.tornTruncate (tornTruncate_whole file _) (Nat.le_refl _)⟩
  · rintro image (left | ⟨_, before, after, left, rfl, torn⟩)
    · exact phase.disk image left
    rcases phase.disk _ left with ⟨was, same, agreed⟩
    cases same
    exact ⟨after, rfl, agreed.tornTruncate torn (Nat.le_refl _)⟩

theorem Writing.sync (proc : Nat) :
    Writing src pageSize level orig saved (crashAnswer proc machine (.sync src)).1 := by
  refine phase.touch proc (.sync src) trivial ?_ phase.handle phase.main ?_
  · rintro file onJournal same
    cases same
    rw [phase.onMain] at onJournal
    cases onJournal
  · rintro image ⟨left, _⟩
    exact phase.disk image left

theorem Writing.step
    (proc : Nat) (call : Call) (main : call.Spares .main) (journal : call.Spares .journal)
    (noSync : ∀ file : Handle, file.path = .journal → call ≠ .sync file) :
    Writing src pageSize level orig saved (crashAnswer proc machine call).1 := by
  have mainSame := unixAnswer_spares proc .main machine.world call main
  apply phase.touch proc call journal noSync (mainSame.handle.trans phase.handle)
  · rcases phase.main with ⟨file, found, agrees⟩
    exact ⟨file, mainSame.content.trans found, agrees⟩
  · intro image left
    exact phase.disk image (imagesAfter_spares _ _ _ call main image left)

end

theorem Committed.step (phase : Committed src level saved committed machine)
    (proc : Nat) (call : Call) (main : call.Spares .main) (journal : call.Spares .journal)
    (noSync : ∀ file : Handle, file.path = .journal → call ≠ .sync file) :
    Committed src level saved committed (crashAnswer proc machine call).1 := by
  have mainSame := unixAnswer_spares proc .main machine.world call main
  have journalSame := unixAnswer_spares proc .journal machine.world call journal
  refine ⟨mainSame.handle.trans phase.handle, ?_, mainSame.content.trans phase.main, ?_,
    phase.nonzero, ?_, ?_⟩
  · intro edits
    obtain ⟨gone, durable⟩ := phase.journal edits
    refine ⟨journalSame.content.trans gone, ?_⟩
    intro image left
    exact durable image (imagesAfter_spares _ _ _ call journal image left)
  · intro full image left
    exact phase.disk full image (imagesAfter_spares _ _ _ call main image left)
  · intro none
    rw [synced_answer]
    rintro (before | ⟨file, onJournal, rfl⟩)
    · exact phase.unsynced none before
    · exact noSync file onJournal rfl
  · have noDelete : call ≠ .delete .journal := by
      rintro rfl
      exact journal rfl
    rw [deleted_answer, or_iff_left noDelete]
    exact phase.deleted

theorem FlushPhase.lock (phase : FlushPhase src pageSize level orig saved old committed machine)
    (proc : Nat) (region : Region) (kind : LockKind) :
    FlushPhase src pageSize level orig saved old committed
      (crashAnswer proc machine (.setLock region kind)).1 := by
  cases phase with
  | journaling phase =>
    exact .journaling (phase.step proc _ trivial trivial fun _ _ => by simp)
  | writing phase => exact .writing (phase.step proc _ trivial trivial (fun _ _ => by simp))
  | committed phase => exact .committed (phase.step proc _ trivial trivial (fun _ _ => by simp))

theorem Writing.delete (phase : Writing src pageSize level orig saved machine)
    (proc : Nat) (main : machine.world.content .main = some committed)
    (durable : level = .full → ∀ image, machine.disk .main image → image = some committed)
    (edits : saved ≠ []) : Committed src level saved committed
      (crashAnswer proc machine (.delete .journal)).1 := by
  have same := unixAnswer_spares proc .main machine.world (.delete .journal)
    (by simp [Spares])
  refine ⟨phase.handle, ?_, same.content.trans main, ?_, ?_, fun none => absurd none edits, ?_⟩
  · intro _
    refine ⟨World.content_unlink _ _, ?_⟩
    simp [crashAnswer, imagesAfter]
  · intro full image left
    apply durable full
    simpa [crashAnswer, imagesAfter] using left
  · rcases phase.journal with none | ⟨_, _, saves, _⟩
    · exact absurd none edits
    · exact fun pageNum mem => (saves.inside pageNum mem).1
  · rw [deleted_answer]
    simp [edits]

end Steps

section Flushing

variable {proc : Nat} {source : Handle} {pageSize : UInt32} {level : SynchronousMode}
  {orig : Bytes} {saved : List UInt32} {old : Option Bytes} {committed : Bytes}

/-- Every call of the flush is one of its calls, made in one of its phases. -/
def FlushGuard (source : Handle) (pageSize : UInt32) (level : SynchronousMode) (orig : Bytes)
    (saved : List UInt32) (old : Option Bytes) (committed : Bytes) (machine : Machine)
    (call : Call) : Prop :=
  FlushPhase source pageSize level orig saved old committed machine ∧ FlushCall source call

theorem readPageAt_always {State : Type} {guard : Machine → Call → Prop} {machine : Machine}
    {state : State} {post : Machine → State → Except PageError Bytes → Prop} {pageNum : UInt32}
    (allowed : guard machine (.readAt source (pageOffset pageSize pageNum) pageSize.toNat))
    (zero : pageNum = 0 → post machine state (.error .invalidPageNumber)) (read : pageNum ≠ 0 → post
      (crashAnswer proc machine (.readAt source (pageOffset pageSize pageNum) pageSize.toNat)).1
      state (mainPage machine.world source pageSize pageNum)) :
    Always (crashVfs proc).toSystem guard post (readPageAt source pageSize pageNum) state machine := by
  rw [readPageAt]
  by_cases none : pageNum = 0
  · rw [if_pos none]
    exact zero none
  rw [if_neg none, always_bind, always_readAt]
  refine ⟨allowed, ?_⟩
  have ends := read none
  simp only [mainPage, if_neg none] at ends
  simp only [Continue]
  by_cases whole : (readAt (machine.world.inode source) (pageOffset pageSize pageNum)
      pageSize.toNat).length = pageSize.toNat
  · rw [if_pos whole] at ends ⊢
    exact ends
  · rw [if_neg whole] at ends ⊢
    exact ends

theorem Journaling.mainPage_eq {machine : Machine}
    (phase : Journaling source pageSize orig saved old machine)
    (pageNum : UInt32) (page : Bytes)
    (read : mainPage machine.world source pageSize pageNum = .ok page) :
    pageNum ≠ 0 ∧ page = readAt orig (pageOffset pageSize pageNum) pageSize.toNat ∧
      pageOffset pageSize pageNum + pageSize.toNat ≤ orig.length := by
  have inode : machine.world.inode source = orig := by
    rw [← phase.handle]
    exact ((machine.world.content_eq_some_iff orig .main).mp phase.main).2
  rw [mainPage] at read
  split at read
  · cases read
  rename_i some
  simp only [inode] at read
  split at read
  swap
  · cases read
  rename_i whole
  cases read
  refine ⟨some, rfl, ?_⟩
  rw [length_readAt] at whole
  by_cases empty : pageSize.toNat = 0
  · rw [pageOffset, empty]
    exact Nat.zero_le _
  · omega

variable (pager : Pager)

theorem writeRecords_phases (hdr : JournalHeader) (file : Handle) (kept rest : List UInt32)
    (machine : Machine) (split : kept ++ rest = saved)
    (inside : SavedInside pageSize orig kept) (size : hdr.pageSize = pageSize)
    (room : journalHeaderLen ≤ hdr.sectorSize.toNat)
    (counts : hdr.initialPageCount = headerCount orig)
    (phase : Journaling source pageSize orig saved old machine)
    (found : machine.world.content .journal = some (withRecords hdr 0
      (savedPages pageSize orig kept) (writeAt (old.getD []) 0 (headerRegion hdr))))
    (onFile : machine.world.handle .journal = file) : Always (crashVfs proc).toSystem
      (FlushGuard source pageSize level orig saved old committed)
      (fun after last res => last = pager ∧ Journaling source pageSize orig saved old after ∧
        (res = .ok () → SavedInside pageSize orig saved ∧
          after.world.content .journal = some (withRecords hdr 0
            (savedPages pageSize orig saved) (writeAt (old.getD []) 0 (headerRegion hdr))) ∧
          after.world.handle .journal = file))
      (writeRecords ⟨file, hdr.pageSize, hdr.sectorSize, hdr.nonce⟩ source pageSize
        kept.length rest) pager machine := by
  -- The journal holds the records of `kept` in order; each turn moves one page from `rest`.
  induction rest generalizing kept machine with
  | nil =>
    rw [append_nil] at split
    subst split
    exact ⟨rfl, phase, fun _ => ⟨inside, found, onFile⟩⟩
  | cons pageNum rest ih =>
    have onJournal : file.path = .journal := by
      rw [← onFile]
      rfl
    rw [writeRecords, always_bind, always_free]
    apply readPageAt_always
    · exact ⟨.journaling phase, rfl⟩
    · exact fun _ => ⟨rfl, phase, by simp⟩
    intro some
    have phase1 := phase.step proc
      (.readAt source (pageOffset pageSize pageNum) pageSize.toNat) trivial trivial
      (fun _ _ => by simp)
    cases read : mainPage machine.world source pageSize pageNum with
    | error error => exact ⟨rfl, phase1, by simp⟩
    | ok page =>
      rcases phase.mainPage_eq pageNum page read with ⟨_, rfl, pageInside⟩
      simp only [Except.mapError, Continue]
      rw [always_bind, always_free, JournalWriter.writeRecord, always_writeAt]
      refine ⟨⟨.journaling phase1, inr onJournal⟩, ?_⟩
      have apart : file.path ≠ .main := by
        rw [onJournal]
        decide
      have more : SavedInside pageSize orig (kept ++ [pageNum]) := by
        intro other mem
        rcases mem_append.mp mem with earlier | new
        · exact inside other earlier
        · rw [mem_singleton.mp new]
          exact ⟨some, pageInside⟩
      have longer : (kept ++ [pageNum]) ++ rest = saved := by
        rw [append_assoc]
        exact split
      have content := content_crash_write proc (crashAnswer proc machine
        (.readAt source (pageOffset pageSize pageNum) pageSize.toNat)).1 .journal file
        _ found onFile (recordOffset hdr.sectorSize hdr.pageSize kept.length)
        (recordBytes hdr.nonce pageNum
          (readAt orig (pageOffset pageSize pageNum) pageSize.toNat))
      have grown : withRecords hdr 0 (savedPages pageSize orig (kept ++ [pageNum]))
          (writeAt (old.getD []) 0 (headerRegion hdr)) =
          writeAt (withRecords hdr 0 (savedPages pageSize orig kept)
              (writeAt (old.getD []) 0 (headerRegion hdr)))
            (recordOffset hdr.sectorSize hdr.pageSize kept.length)
            (recordBytes hdr.nonce pageNum
              (readAt orig (pageOffset pageSize pageNum) pageSize.toNat)) := by
        rw [savedPages, map_append, withRecords_append, Nat.zero_add, length_map]
        rfl
      rw [← grown] at content
      have phase2 := phase1.grow proc
        (.writeAt file (recordOffset hdr.sectorSize hdr.pageSize kept.length)
          (recordBytes hdr.nonce pageNum
            (readAt orig (pageOffset pageSize pageNum) pageSize.toNat)))
        apart (fun _ _ => by simp) (by simp)
        (by rw [content]; exact .records hdr _ rest longer more size room counts)
      have next := ih (kept ++ [pageNum]) _ longer more phase2 content onFile
      rw [length_append] at next
      exact next

theorem length_lt_of_nodup (pages : List UInt32) (nodup : pages.Nodup)
    (some : ∀ pageNum ∈ pages, pageNum ≠ 0) : pages.length < 2 ^ 32 := by
  have fresh : (0 : UInt32) ∉ pages := fun mem => some 0 mem rfl
  have numbers := (nodup_cons.mpr ⟨fresh, nodup⟩).map UInt32.toFin_injective
  have short := numbers.length_le_card
  rw [length_map, Fintype.card_fin] at short
  exact short

section

variable (hdr : JournalHeader) (machine : Machine)
  (phase : Journaling source pageSize orig saved old machine)
  (fresh : machine.world.content .journal = old)

include hdr machine phase fresh

theorem create_phases (size : hdr.pageSize = pageSize)
    (counts : hdr.initialPageCount = headerCount orig) : Always (crashVfs proc).toSystem
      (FlushGuard source pageSize level orig saved old committed)
      (fun after _ res => Journaling source pageSize orig saved old after ∧
        ∀ writer, res = .ok writer → journalHeaderLen ≤ hdr.sectorSize.toNat ∧
          writer = ⟨after.world.handle .journal, hdr.pageSize, hdr.sectorSize, hdr.nonce⟩ ∧
          after.world.content .journal = some (writeAt (old.getD []) 0 (headerRegion hdr)))
      (JournalWriter.create hdr.pageSize hdr.sectorSize hdr.initialPageCount hdr.nRec
        hdr.nonce) () machine := by
  rw [JournalWriter.create, always_bind, always_createOrOpenWrite]
  refine ⟨⟨.journaling phase, rfl⟩, ?_⟩
  have found := content_crash_create proc machine .journal
  rw [fresh] at found
  have created := phase.grow proc (.createOrOpenWrite .journal) (by simp [Spares])
    (fun _ _ => by simp) (by simp) (by rw [found]; exact .opened)
  generalize (crashAnswer proc machine (.createOrOpenWrite .journal)).1 = open_ at created found ⊢
  simp only [Continue]
  by_cases tight : hdr.sectorSize.toNat < journalHeaderLen
  · rw [if_pos tight]
    exact ⟨created, by simp⟩
  have room := Nat.not_lt.mp tight
  rw [if_neg tight, always_bind, always_writeAt]
  have content := content_crash_write proc open_ .journal _ _ found rfl 0 (headerRegion hdr)
  have started := created.grow proc (.writeAt (open_.world.handle .journal) 0
    (headerRegion hdr)) (by simp [Spares]) (fun _ _ => by simp) (by simp)
    (by
      rw [content]
      exact .records hdr [] saved rfl (by simp [SavedInside]) size room counts)
  refine ⟨⟨.journaling created, inr rfl⟩, started, ?_⟩
  rintro writer ⟨⟩
  exact ⟨room, rfl, content⟩

end

def Pager.JournalEnds (pager : Pager) (orig : Bytes) (saved : List UInt32) (old : Option Bytes)
    (after : Machine) (last : Pager) (res : Except PagerError Unit) : Prop :=
  last = pager ∧
  (res = .ok () → Writing pager.source pager.pageSize pager.synchronous orig saved after ∧
    SavedInside pager.pageSize orig saved ∧ after.world.content .main = some orig) ∧
  ∀ error, res = .error error → Journaling pager.source pager.pageSize orig saved old after

section

variable (machine : Machine)
  (phase : Journaling pager.source pager.pageSize orig saved old machine)
  (fresh : machine.world.content .journal = old) (nodup : saved.Nodup) (edits : saved ≠ [])

include machine phase fresh nodup edits

theorem writeJournalWith_phases (hdr : JournalHeader) (headerSize : hdr.pageSize = pager.pageSize)
    (records : hdr.nRec = UInt32.ofNat saved.length)
    (counts : hdr.initialPageCount = headerCount orig) : Always (crashVfs proc).toSystem
      (FlushGuard pager.source pager.pageSize pager.synchronous orig saved old committed)
      (pager.JournalEnds orig saved old) (writeJournalWith hdr saved) pager machine := by
  rw [writeJournalWith, always_bind]
  simp only [always_get, Continue]
  rw [always_bind, always_free]
  apply Always.mono (create_phases hdr machine phase fresh headerSize counts)
  rintro created ⟨⟩ res ⟨journaling, whenCreated⟩
  cases res with
  | error error => exact ⟨rfl, by simp, fun _ _ => journaling⟩
  | ok writer =>
    rcases whenCreated writer rfl with ⟨room, rfl, found⟩
    simp only [Except.mapError, Continue]
    rw [always_bind]
    apply Always.mono (writeRecords_phases pager hdr _ [] saved created rfl
      (by simp [SavedInside]) headerSize room counts journaling found rfl)
    rintro written last res ⟨rfl, recorded, whenWritten⟩
    cases res with
    | error error => exact ⟨rfl, by simp, fun _ _ => recorded⟩
    | ok done =>
      rcases whenWritten rfl with ⟨inside, content, handle⟩
      have counted : hdr.nRec.toNat = saved.length := by
        have short := length_lt_of_nodup saved nodup fun pageNum mem =>
          (inside pageNum mem).1
        rw [records, UInt32.toNat_ofNat', Nat.mod_eq_of_lt short]
      have saves := journalSaves_written hdr (old.getD []) inside headerSize room counts
        counted
      simp only [Continue]
      apply always_when
      · intro synced
        rw [always_free, JournalWriter.sync, always_sync]
        refine ⟨⟨.journaling recorded, inr rfl⟩, rfl, ?_, by simp [Except.mapError]⟩
        intro _
        refine ⟨?_, inside, recorded.main⟩
        rw [← handle]
        exact recorded.synced proc _ content saves edits
      · intro unsynced
        refine ⟨rfl, fun _ => ⟨?_, inside, recorded.main⟩, by simp⟩
        refine recorded.complete (inr ⟨_, content, saves, ?_⟩)
        intro notOff
        simp [notOff] at unsynced

theorem writeJournal_phases (count : UInt32) (counts : count = headerCount orig) :
    Always (crashVfs proc).toSystem
      (FlushGuard pager.source pager.pageSize pager.synchronous orig saved old committed)
      (pager.JournalEnds orig saved old) (writeJournal count saved) pager machine := by
  rw [writeJournal, always_bind]
  simp only [always_get, Continue]
  rw [always_bind, always_randomNonce]
  refine ⟨⟨.journaling phase, trivial⟩, ?_⟩
  have begun := phase.step proc .randomNonce trivial trivial (fun _ _ => by simp)
  exact writeJournalWith_phases pager _ begun fresh nodup edits _ rfl rfl counts

end

theorem writeDirty_phases (entries : List (UInt32 × Bytes)) (machine : Machine) (file : Bytes)
    (phase : Writing source pageSize level orig saved machine)
    (found : machine.world.content .main = some file)
    (fits : ∀ entry ∈ entries, entry.1 ≠ 0 ∧ entry.2.length = pageSize.toNat)
    (inCover : ∀ entry ∈ entries, ∀ index, index < orig.length →
      pageOffset pageSize entry.1 ≤ index → index < pageOffset pageSize entry.1 + entry.2.length →
      Covered pageSize orig saved index) : Always (crashVfs proc).toSystem
      (FlushGuard source pageSize level orig saved old committed)
      (fun after last res => last = pager ∧ res = .ok () ∧
        Writing source pageSize level orig saved after ∧
        after.world.content .main = some (writePages pageSize file entries))
      (writeDirty source pageSize entries) pager machine := by
  induction entries generalizing machine file with
  | nil => exact ⟨rfl, rfl, phase, found⟩
  | cons entry rest ih =>
    obtain ⟨pageNum, bytes⟩ := entry
    obtain ⟨nonzero, sized⟩ := fits (pageNum, bytes) mem_cons_self
    rw [writeDirty, always_bind, always_free, writePageAt, if_neg nonzero,
      if_neg (not_not.mpr sized), always_writeAt]
    refine ⟨⟨.writing phase, inl rfl⟩, ?_⟩
    have written := phase.write proc (pageOffset pageSize pageNum) bytes
      (inCover (pageNum, bytes) mem_cons_self)
    have content := content_crash_write proc machine .main source file found phase.handle
      (pageOffset pageSize pageNum) bytes
    exact ih _ _ written content (fun other mem => fits other (.tail _ mem))
      fun other mem => inCover other (.tail _ mem)

theorem readBeU32_page1 (pageSize : UInt32) (orig : Bytes) (count : UInt32)
    (read : readBeU32 (readAt orig 0 pageSize.toNat) pageCountOffset = .ok count) :
    count = headerCount orig := by
  rw [readBeU32, be32At] at read
  split at read
  swap
  · cases read
  rename_i value found
  cases read
  split at found
  · rename_i whole
    cases found
    rw [length_readAt, length_readAt] at whole
    rw [headerCount, readAt_front _ _ _ _ (by omega)]
  · cases found

def Pager.toJournal (pager : Pager) (orig : Bytes) : List UInt32 :=
  pager.dirty.keys.filter fun pageNum => pageNum ≤ headerCount orig

def Pager.committedMain (pager : Pager) (orig : Bytes) : Bytes :=
  writePages pager.pageSize orig pager.dirty.entries

theorem entries_covered (sized : ∀ entry ∈ pager.dirty.entries, entry.2.length = pager.pageSize.toNat) :
    ∀ entry ∈ pager.dirty.entries, ∀ index, index < orig.length →
      pageOffset pager.pageSize entry.1 ≤ index →
      index < pageOffset pager.pageSize entry.1 + entry.2.length →
      Covered pager.pageSize orig (pager.toJournal orig) index := by
  intro entry mem index inside low high
  have isKey : entry.1 ∈ pager.dirty.keys := mem_map_of_mem mem
  rw [sized entry mem] at high
  by_cases counted : entry.1 ≤ headerCount orig
  · exact inl ⟨entry.1, mem_filter.mpr ⟨isKey, by simpa using counted⟩, low, high⟩
  refine inr (Nat.le_trans ?_ low)
  have beyond : (headerCount orig).toNat < entry.1.toNat := by
    rw [UInt32.le_iff_toNat_le] at counted
    omega
  exact Nat.mul_le_mul_right _ (by omega)

theorem entries_nonzero (nonzero : ∀ pageNum ∈ pager.toJournal orig, pageNum ≠ 0) :
    ∀ entry ∈ pager.dirty.entries, entry.1 ≠ 0 := by
  intro entry mem zero
  have isKey : entry.1 ∈ pager.dirty.keys := mem_map_of_mem mem
  refine nonzero entry.1 (mem_filter.mpr ⟨isKey, ?_⟩) zero
  simp [zero]

theorem commitPoint_phases (machine : Machine)
    (phase : Writing source pageSize level orig saved machine)
    (written : machine.world.content .main = some committed) :
    Always (crashVfs proc).toSystem
      (FlushGuard source pageSize level orig saved old committed)
      (fun after last res => Committed source level saved committed after ∧
        last = { pager with dirty := empty } ∧ res = .ok ())
      (do
        when (level = .full) (Vfs.sync .vfs source)
        when (!saved.isEmpty) (Vfs.delete .vfs .journal)
        Action.modify fun committed => { committed with dirty := empty } : PagerM Unit)
      pager machine := by
  rw [always_bind]
  refine Always.mono (?_ : Always _ _ (fun synced last res => last = pager ∧ res = .ok () ∧
    Writing source pageSize level orig saved synced ∧
    synced.world.content .main = some committed ∧
    (level = .full → ∀ image, synced.disk .main image → image = some committed)) _ _ _) ?_
  · apply always_when
    · intro _
      rw [always_sync]
      refine ⟨⟨.writing phase, inl rfl⟩, rfl, rfl, phase.sync proc, written, ?_⟩
      rintro _ image ⟨_, durable⟩
      rw [durable phase.handle.symm]
      exact written
    · intro notFull
      refine ⟨rfl, rfl, phase, written, ?_⟩
      intro full
      simp [full] at notFull
  rintro synced _ _ ⟨rfl, rfl, writing, main, durable⟩
  simp only [Continue]
  rw [always_bind]
  apply always_when
  · intro edited
    have edits : saved ≠ [] := by simpa using edited
    rw [always_delete]
    exact ⟨⟨.writing writing, rfl⟩, writing.delete proc main durable edits, rfl, rfl⟩
  · intro unedited
    have none : saved = [] := by simpa using unedited
    refine ⟨⟨writing.handle, ?_, main, durable, ?_, writing.unsynced, ?_⟩, rfl, rfl⟩
    · exact fun edits => absurd none edits
    · simp [none]
    · simp [none, writing.kept]

abbrev Pager.Journals (pager : Pager) (orig : Bytes) (old : Option Bytes) (machine : Machine) :
    Prop :=
  Journaling pager.source pager.pageSize orig (pager.toJournal orig) old machine

def Pager.FlushEnds (pager : Pager) (orig : Bytes) (old : Option Bytes) (after : Machine)
    (last : Pager) (res : Except PagerError Unit) : Prop :=
  (res = .ok () → Committed pager.source pager.synchronous (pager.toJournal orig)
      (pager.committedMain orig) after ∧ last = { pager with dirty := empty }) ∧
  ∀ error, res = .error error → pager.Journals orig old after ∧ last = pager

variable (proc) in
theorem flushLocked_phases (machine : Machine)
    (phase : pager.Journals orig old machine) (fresh : machine.world.content .journal = old)
    (sized : ∀ entry ∈ pager.dirty.entries, entry.2.length = pager.pageSize.toNat) :
    Always (crashVfs proc).toSystem
      (FlushGuard pager.source pager.pageSize pager.synchronous orig
        (pager.toJournal orig) old (pager.committedMain orig))
      (pager.FlushEnds orig old) flushLocked pager machine := by
  have nodup : (pager.toJournal orig).Nodup := pager.dirty.keys_nodup.filter _
  rw [flushLocked, always_bind]
  simp only [always_get, Continue]
  rw [always_bind, always_free]
  apply readPageAt_always
  · exact ⟨.journaling phase, rfl⟩
  · intro impossible
    simp at impossible
  intro _
  have begun := phase.step proc
    (.readAt pager.source (pageOffset pager.pageSize 1) pager.pageSize.toNat) trivial trivial
    (fun _ _ => by simp)
  cases read : mainPage machine.world pager.source pager.pageSize 1 with
  | error error => exact ⟨by simp, fun _ _ => ⟨begun, rfl⟩⟩
  | ok page1 =>
    obtain ⟨_, rfl, _⟩ := phase.mainPage_eq 1 page1 read
    have front : pageOffset pager.pageSize 1 = 0 := by simp [pageOffset]
    rw [front]
    rw [front] at begun
    simp only [Except.mapError, Continue]
    rw [always_bind, always_check]
    cases counted : readBeU32 (readAt orig 0 pager.pageSize.toNat) pageCountOffset with
    | error error => exact ⟨by simp, fun _ _ => ⟨begun, rfl⟩⟩
    | ok count =>
      obtain rfl := readBeU32_page1 pager.pageSize orig count counted
      simp only [Continue]
      rw [always_bind]
      refine Always.mono
        (?_ : Always _ _ (pager.JournalEnds orig (pager.toJournal orig) old) _ _ _) ?_
      -- With no page of the old file edited, no journal is written and none is needed.
      · apply always_when
        · intro edited
          have edits : pager.toJournal orig ≠ [] := by
            simpa [toJournal] using edited
          exact writeJournal_phases pager _ begun fresh nodup edits _ rfl
        · intro none
          have empty : pager.toJournal orig = [] := by simpa [toJournal] using none
          refine ⟨rfl, fun _ => ⟨begun.complete (inl empty), ?_, begun.main⟩, by simp⟩
          simp [empty, SavedInside]
      rintro ready last res ⟨rfl, whenOk, whenError⟩
      cases res with
      | error error => exact ⟨by simp, fun _ _ => ⟨whenError error rfl, rfl⟩⟩
      | ok done =>
        obtain ⟨writing, inside, main⟩ := whenOk rfl
        have nonzero := entries_nonzero last fun pageNum mem => (inside pageNum mem).1
        simp only [Continue]
        rw [always_bind]
        apply Always.mono (writeDirty_phases last last.dirty.entries ready orig writing
          main (fun entry mem => ⟨nonzero entry mem, sized entry mem⟩)
          (entries_covered last sized))
        rintro wrote last res ⟨rfl, rfl, still, written⟩
        simp only [Continue]
        apply Always.mono (commitPoint_phases last wrote still written)
        rintro after final res ⟨ended, rfl, rfl⟩
        exact ⟨fun _ => ⟨ended, rfl⟩, by simp⟩

variable (proc) in
theorem setLockLevel_always {inv : Machine → Prop}
    (kept : ∀ machine region kind, inv machine →
      inv (crashAnswer proc machine (.setLock region kind)).1)
    (target : LockLevel) (machine : Machine) (holds : inv machine) :
    Always (crashVfs proc).toSystem (fun machine call => inv machine ∧ LockCall call)
      (fun after last _ => inv after ∧ ∃ lock, last = { pager with lock })
      (setLockLevel target) pager machine := by
  rw [setLockLevel, always_zoom]
  have makes : Makes LockCall (setLevel target) := setLevel_makes (fun _ _ => trivial) target
  have ladder : Always (crashVfs proc).toSystem
      (fun machine call => inv machine ∧ LockCall call) (fun after _ _ => inv after)
      (setLevel target) pager.lock machine := by
    apply Only.always makes (crashVfs_possible proc) _ holds
    intro before call after reply isLock still taken
    cases call with
    | setLock region kind =>
      have answered : crashAnswer proc before (.setLock region kind) = (after, reply) := taken
      have next := kept before region kind still
      rw [answered] at next
      exact next
    | _ => exact isLock.elim
  apply Always.mono ladder
  intro after lock res still
  exact ⟨still, lock, rfl⟩

variable (proc) in
theorem releaseTxLock_always {inv : Machine → Prop} (kept : ∀ machine region kind, inv machine →
      inv (crashAnswer proc machine (.setLock region kind)).1)
    (machine : Machine) (holds : inv machine) :
    Always (crashVfs proc).toSystem (fun machine call => inv machine ∧ LockCall call)
      (fun after _ _ => inv after) releaseTxLock pager machine := by
  rw [releaseTxLock, always_bind]
  simp only [always_get, Continue]
  by_cases raised : LockLevel.shared < pager.txLockLevel
  · rw [if_pos raised, always_bind]
    apply Always.mono (setLockLevel_always proc pager kept .shared machine holds)
    rintro after last res ⟨still, _⟩
    cases res with
    | error | ok => exact still
  · rw [if_neg raised]
    exact holds

def Pager.Flushing (pager : Pager) (orig : Bytes) (old : Option Bytes) (machine : Machine) :
    Prop :=
  FlushPhase pager.source pager.pageSize pager.synchronous orig (pager.toJournal orig) old
    (pager.committedMain orig) machine

def Pager.FlushStep (pager : Pager) (orig : Bytes) (old : Option Bytes) (machine : Machine)
    (call : Call) : Prop :=
  pager.Flushing orig old machine ∧ (FlushCall pager.source call ∨ LockCall call)

theorem Pager.flushing_lock (machine : Machine) (region : Region) (kind : LockKind)
    (still : pager.Flushing orig old machine) :
    pager.Flushing orig old (crashAnswer proc machine (.setLock region kind)).1 :=
  FlushPhase.lock still proc region kind

variable (proc) in
theorem flushUnderLock_phases (machine : Machine)
    (phase : pager.Journals orig old machine) (fresh : machine.world.content .journal = old)
    (sized : ∀ entry ∈ pager.dirty.entries, entry.2.length = pager.pageSize.toNat) :
    Always (crashVfs proc).toSystem (pager.FlushStep orig old)
      (fun after _ _ => pager.Flushing orig old after)
      (do
        let res ← attempt flushLocked
        setLockLevel .shared
        Action.modify fun released => { released with txLockLevel := .shared }
        check res : PagerM Unit)
      pager machine := by
  rw [always_bind, always_attempt]
  have flushed := flushLocked_phases proc pager machine phase fresh sized
  apply (flushed.weaken fun _ _ allowed => ⟨allowed.1, inl allowed.2⟩).mono
  rintro after last res ⟨whenOk, whenError⟩
  have ended : pager.Flushing orig old after := by
    cases res with
    | error error => exact .journaling (whenError error rfl).1
    | ok done => exact .committed (whenOk rfl).1
  simp only [Continue]
  rw [always_bind]
  have lowered := setLockLevel_always proc last pager.flushing_lock .shared after ended
  apply (lowered.weaken fun _ _ allowed => ⟨allowed.1, inr allowed.2⟩).mono
  rintro released final outcome ⟨still, _⟩
  cases outcome with
  | error | ok => exact still

variable (proc) in
theorem flush_phases (machine : Machine) (phase : pager.Journals orig old machine)
    (fresh : machine.world.content .journal = old) (legacy : pager.journalMode = .legacy)
    (sized : ∀ entry ∈ pager.dirty.entries, entry.2.length = pager.pageSize.toNat) :
    Always (crashVfs proc).toSystem (pager.FlushStep orig old)
      (fun after _ _ => pager.Flushing orig old after) flush pager machine := by
  rw [flush, always_bind]
  simp only [always_get, Continue]
  by_cases clean : pager.dirty.isEmpty = true
  · rw [if_pos clean]
    have released := releaseTxLock_always proc pager pager.flushing_lock machine
      (.journaling phase : pager.Flushing orig old machine)
    exact released.weaken fun _ _ allowed => ⟨allowed.1, inr allowed.2⟩
  rw [if_neg clean, if_neg (by rw [legacy]; decide), always_bind]
  have climbed : Always (crashVfs proc).toSystem
      (fun machine call =>
        (pager.Journals orig old machine ∧ machine.world.content .journal = old) ∧ LockCall call)
      (fun after last _ =>
        (pager.Journals orig old after ∧ after.world.content .journal = old) ∧
          ∃ lock, last = { pager with lock })
      (setLockLevel .exclusive) pager machine := by
    apply setLockLevel_always proc pager _ .exclusive machine ⟨phase, fresh⟩
    rintro before region kind ⟨still, same⟩
    have unmoved := unixAnswer_spares proc .journal before.world (.setLock region kind) trivial
    exact ⟨still.step proc _ trivial trivial fun _ _ => by simp, unmoved.content.trans same⟩
  apply (climbed.weaken fun _ _ allowed => ⟨.journaling allowed.1.1, inr allowed.2⟩).mono
  rintro locked last res ⟨⟨journaling, unmoved⟩, lock, rfl⟩
  cases res with
  | error error => exact .journaling journaling
  | ok done => exact flushUnderLock_phases proc { pager with lock } locked journaling unmoved sized

end Flushing

end SqliteRs
