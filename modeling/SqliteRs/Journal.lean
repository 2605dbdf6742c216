import SqliteRs.Vfs

/-!
The rollback journal. A header padded to one sector is followed by records, each
a page number, the page as it was and a checksum that samples one byte in 200.
Recovery writes back every record up to the first one that is cut short or whose
checksum is wrong, and reports the page count to truncate to.
-/

namespace SqliteRs

open ByteFile

def journalMagic : Bytes := [0xd9, 0xd5, 0x05, 0xf9, 0x20, 0xa1, 0x63, 0xd7]

def journalHeaderLen : Nat := 28

inductive JournalError where
  | headerTooShort (len : Nat)
  | recordTruncated (index : UInt32) (expected got : Nat)
  | vfs (source : VfsError)
  deriving DecidableEq, Repr

def recordLen (pageSize : UInt32) : Nat := 4 + pageSize.toNat + 4

structure JournalHeader where
  nRec : UInt32
  nonce : UInt32
  initialPageCount : UInt32
  sectorSize : UInt32
  pageSize : UInt32
  deriving DecidableEq, Repr

namespace JournalHeader

def parse (buf : Bytes) : Except JournalError JournalHeader :=
  if buf.length < journalHeaderLen then .error (.headerTooShort buf.length)
  else
    .ok
      { nRec := be32 (readAt buf 8 4)
        nonce := be32 (readAt buf 12 4)
        initialPageCount := be32 (readAt buf 16 4)
        sectorSize := be32 (readAt buf 20 4)
        pageSize := be32 (readAt buf 24 4) }

def serialize (header : JournalHeader) : Bytes :=
  journalMagic ++ be32Bytes header.nRec ++ be32Bytes header.nonce ++
    be32Bytes header.initialPageCount ++ be32Bytes header.sectorSize ++ be32Bytes header.pageSize

end JournalHeader

/-- Samples downwards from an index; the file length bounds the rounds. -/
def sampleBytes (page : Bytes) : Nat → Nat → UInt32 → UInt32
  | 0, _, sum => sum
  | fuel + 1, idx, sum =>
    if 0 < idx ∧ idx < page.length then
      sampleBytes page fuel (idx - 200) (sum + UInt32.ofNat (page.getD idx 0).toNat)
    else sum

def pageChecksum (nonce : UInt32) (page : Bytes) : UInt32 :=
  sampleBytes page page.length (page.length - 200) nonce

structure JournalWriter where
  file : Handle
  pageSize : UInt32
  sectorSize : UInt32
  nonce : UInt32

def recordBytes (nonce pageNum : UInt32) (orig : Bytes) : Bytes :=
  be32Bytes pageNum ++ orig ++ be32Bytes (pageChecksum nonce orig)

def headerRegion (header : JournalHeader) : Bytes :=
  header.serialize ++ zeros (header.sectorSize.toNat - journalHeaderLen)

def recordOffset (sectorSize pageSize : UInt32) (index : Nat) : Nat :=
  sectorSize.toNat + index * recordLen pageSize

namespace JournalWriter

variable {State : Type}

def create (pageSize sectorSize initialPageCount nRec nonce : UInt32) :
    Vfs State JournalError JournalWriter := do
  let file ← Vfs.createOrOpenWrite .vfs .journal
  if sectorSize.toNat < journalHeaderLen then Action.throw (.headerTooShort sectorSize.toNat)
  else
    Vfs.writeAt .vfs file 0
      (headerRegion { nRec, nonce, initialPageCount, sectorSize, pageSize })
    pure { file, pageSize, sectorSize, nonce }

def writeRecord (writer : JournalWriter) (index : Nat) (pageNum : UInt32) (orig : Bytes) :
    Vfs State JournalError Unit :=
  Vfs.writeAt .vfs writer.file (recordOffset writer.sectorSize writer.pageSize index)
    (recordBytes writer.nonce pageNum orig)

def sync (writer : JournalWriter) : Vfs State JournalError Unit := Vfs.sync .vfs writer.file

end JournalWriter

/-- The record at an index, if it is all there and its checksum is right. -/
def validRecordAt (journalBytes : Bytes) (header : JournalHeader) (index : Nat) :
    Option (UInt32 × Bytes) :=
  let record := readAt journalBytes (recordOffset header.sectorSize header.pageSize index)
    (recordLen header.pageSize)
  if record.length < recordLen header.pageSize then none
  else
    let pageNum := be32 (readAt record 0 4)
    let pageData := readAt record 4 header.pageSize.toNat
    let stored := be32 (readAt record (4 + header.pageSize.toNat) 4)
    if pageChecksum header.nonce pageData ≠ stored then none else some (pageNum, pageData)

/-- Where recovery writes a page; page number zero goes to the start of the file too. -/
def pageOffset (pageSize pageNum : UInt32) : Nat := (pageNum.toNat - 1) * pageSize.toNat

def replayRecords (journalBytes : Bytes) (header : JournalHeader) (dbFile : Handle) :
    Nat → Nat → Vfs Unit JournalError Unit
  | 0, _ => pure ()
  | remaining + 1, index =>
    match validRecordAt journalBytes header index with
    | none => pure ()
    | some (pageNum, pageData) => do
        Vfs.writeAt .vfs dbFile (pageOffset header.pageSize pageNum) pageData
        replayRecords journalBytes header dbFile remaining (index + 1)

structure RecoveredJournal where
  initialPageCount : UInt32
  pageSize : UInt32

def recover (journalBytes : Bytes) (dbFile : Handle) : Vfs Unit JournalError RecoveredJournal := do
  let header ← Action.check (JournalHeader.parse journalBytes)
  replayRecords journalBytes header dbFile header.nRec.toNat 0
  pure { initialPageCount := header.initialPageCount, pageSize := header.pageSize }

end SqliteRs
