import SqliteRs.PagerOpen

/-!
The journal a flush writes, and what recovery makes of it. A journal whose
records were all written reads back as those records, whatever the file held
before. Recovery from such a journal restores the main file exactly, from any
file that still agrees with it outside the recorded pages, if the page count
in the header accounts for the whole file.
-/

namespace SqliteRs

open List

open ByteFile

section RoundTrip

theorem recordOffset_succ (sectorSize pageSize : UInt32) (index : Nat) :
    recordOffset sectorSize pageSize (index + 1) =
      recordOffset sectorSize pageSize index + recordLen pageSize := by
  simp [recordOffset, Nat.add_mul, Nat.add_assoc]

theorem length_recordBytes (pageSize nonce pageNum : UInt32) (page : Bytes)
    (sized : page.length = pageSize.toNat) :
    (recordBytes nonce pageNum page).length = recordLen pageSize := by
  simp only [recordBytes, recordLen, length_append, length_be32Bytes, sized]

theorem recordBytes_ne_nil (nonce pageNum : UInt32) (page : Bytes) :
    recordBytes nonce pageNum page ≠ [] := by
  simp [recordBytes, be32Bytes_ne_nil]

theorem validRecordAt_written (bytes : Bytes) (header : JournalHeader) (index : Nat)
    (pageNum : UInt32) (page : Bytes) (sized : page.length = header.pageSize.toNat)
    (stored : readAt bytes (recordOffset header.sectorSize header.pageSize index)
      (recordLen header.pageSize) = recordBytes header.nonce pageNum page) :
    validRecordAt bytes header index = some (pageNum, page) := by
  have whole := length_recordBytes header.pageSize header.nonce pageNum page sized
  have num : readAt (recordBytes header.nonce pageNum page) 0 4 = be32Bytes pageNum := by
    rfl
  have data : readAt (recordBytes header.nonce pageNum page) 4 header.pageSize.toNat = page := by
    rw [recordBytes, append_assoc,
      readAt_append_right (be32Bytes pageNum) _ 4 _ (Nat.le_of_eq (length_be32Bytes pageNum)),
      length_be32Bytes, readAt_append_left _ _ _ _ (by omega),
      readAt_zero_self page _ sized]
  have sum : readAt (recordBytes header.nonce pageNum page) (4 + header.pageSize.toNat) 4 =
      be32Bytes (pageChecksum header.nonce page) := by
    have front : (be32Bytes pageNum ++ page).length = 4 + header.pageSize.toNat := by
      rw [length_append, length_be32Bytes, sized]
    rw [recordBytes, readAt_append_right _ _ _ _ (Nat.le_of_eq front), front, Nat.sub_self]
    rfl
  simp only [validRecordAt, stored, whole, Nat.lt_irrefl, if_false, num, data, sum,
    be32_be32Bytes, ne_eq, not_true_eq_false]

def withRecords (header : JournalHeader) : Nat → List (UInt32 × Bytes) → Bytes → Bytes
  | _, [], file => file
  | index, (pageNum, page) :: rest, file =>
    withRecords header (index + 1) rest
      (writeAt file (recordOffset header.sectorSize header.pageSize index)
        (recordBytes header.nonce pageNum page))

theorem withRecords_append (header : JournalHeader) (first second : List (UInt32 × Bytes))
    (index : Nat) (file : Bytes) : withRecords header index (first ++ second) file =
      withRecords header (index + first.length) second (withRecords header index first file) := by
  induction first generalizing index file with
  | nil => rfl
  | cons record rest ih =>
    rw [cons_append, withRecords, ih, Nat.add_right_comm]
    rfl

variable (hdr : JournalHeader)

section

variable (records : List (UInt32 × Bytes)) (index : Nat) (file : Bytes)
  (sized : ∀ record ∈ records, record.2.length = hdr.pageSize.toNat)
  (filled : recordOffset hdr.sectorSize hdr.pageSize index ≤ file.length)

include records index file sized filled

theorem readAt_withRecords (start length : Nat)
    (before : start + length ≤ recordOffset hdr.sectorSize hdr.pageSize index) :
    readAt (withRecords hdr index records file) start length = readAt file start length := by
  induction records generalizing index file with
  | nil => rfl
  | cons record rest ih =>
    obtain ⟨pageNum, page⟩ := record
    have pageSized := sized (pageNum, page) mem_cons_self
    have whole := length_recordBytes hdr.pageSize hdr.nonce pageNum page pageSized
    have next := recordOffset_succ hdr.sectorSize hdr.pageSize index
    rw [withRecords, ih (index + 1) _ (fun other mem => sized other (.tail _ mem))]
    · exact readAt_writeAt_disjoint _ _ _ _ _ (by omega) (Or.inl before)
    · rw [length_writeAt _ _ _ (recordBytes_ne_nil _ _ _)]
      omega
    · omega

theorem acceptedRecords_withRecords :
    acceptedRecords (withRecords hdr index records file) hdr records.length index = records := by
  induction records generalizing index file with
  | nil => rfl
  | cons record rest ih =>
    obtain ⟨pageNum, page⟩ := record
    have pageSized := sized (pageNum, page) mem_cons_self
    have whole := length_recordBytes hdr.pageSize hdr.nonce pageNum page pageSized
    have next := recordOffset_succ hdr.sectorSize hdr.pageSize index
    have restSized : ∀ other ∈ rest, other.2.length = hdr.pageSize.toNat :=
      fun other mem => sized other (.tail _ mem)
    have longer : recordOffset hdr.sectorSize hdr.pageSize (index + 1) ≤
        (writeAt file (recordOffset hdr.sectorSize hdr.pageSize index)
          (recordBytes hdr.nonce pageNum page)).length := by
      rw [length_writeAt _ _ _ (recordBytes_ne_nil _ _ _)]
      omega
    have stored : readAt (withRecords hdr index ((pageNum, page) :: rest) file)
        (recordOffset hdr.sectorSize hdr.pageSize index) (recordLen hdr.pageSize) =
          recordBytes hdr.nonce pageNum page := by
      rw [withRecords, readAt_withRecords hdr rest (index + 1) _ restSized longer _ _
        (Nat.le_of_eq next.symm), ← whole]
      exact readAt_writeAt_same _ _ _
    rw [length_cons, acceptedRecords, validRecordAt_written _ hdr index pageNum page pageSized stored]
    simp [withRecords, ih (index + 1) _ restSized longer]

end

theorem parse_of_serialized (bytes : Bytes) (long : journalHeaderLen ≤ bytes.length)
    (front : readAt bytes 0 journalHeaderLen = hdr.serialize) :
    JournalHeader.parse bytes = .ok hdr := by
  have field : ∀ off value, off + 4 ≤ journalHeaderLen → readAt hdr.serialize off 4 = be32Bytes value →
      be32 (readAt bytes off 4) = value := by
    intro off value inside stored
    rw [← front, readAt_front _ _ _ _ inside] at stored
    rw [stored, be32_be32Bytes]
  simp [JournalHeader.parse, Nat.not_lt.mpr long, field 8 hdr.nRec (by decide) rfl,
    field 12 hdr.nonce (by decide) rfl, field 16 hdr.initialPageCount (by decide) rfl,
    field 20 hdr.sectorSize (by decide) rfl, field 24 hdr.pageSize (by decide) rfl]

theorem hot_of_serialized (bytes : Bytes)
    (front : readAt bytes 0 journalHeaderLen = hdr.serialize) : hotBytes bytes = true := by
  have magic : readAt hdr.serialize 0 journalMagic.length = journalMagic := rfl
  rw [← front, readAt_front _ _ _ _ (by decide)] at magic
  exact decide_eq_true magic

end RoundTrip

section Saved

variable (pageSize : UInt32) (orig : Bytes) (saved : List UInt32)

def savedPages : List (UInt32 × Bytes) :=
  saved.map fun pageNum => (pageNum, readAt orig (pageOffset pageSize pageNum) pageSize.toNat)

def headerCount (file : Bytes) : UInt32 := be32 (readAt file pageCountOffset 4)

def SavedAt (index : Nat) : Prop :=
  ∃ pageNum ∈ saved, pageOffset pageSize pageNum ≤ index ∧
    index < pageOffset pageSize pageNum + pageSize.toNat

/-- The bytes a flush may change: those of the saved pages and those behind the counted pages. -/
def Covered (index : Nat) : Prop :=
  SavedAt pageSize saved index ∨ (headerCount orig).toNat * pageSize.toNat ≤ index

def SavedInside : Prop :=
  ∀ pageNum ∈ saved, pageNum ≠ 0 ∧
    pageOffset pageSize pageNum + pageSize.toNat ≤ orig.length

/-- A journal that holds the file's page count and its saved pages as they were. -/
structure JournalSaves (journalBytes : Bytes) : Prop where
  hot : hotBytes journalBytes = true
  inside : SavedInside pageSize orig saved
  header : ∃ header, JournalHeader.parse journalBytes = .ok header ∧ header.pageSize = pageSize ∧
    header.initialPageCount = headerCount orig ∧
    journalRecords journalBytes header = savedPages pageSize orig saved

/-- What the journal file holds while a flush writes it, from what it held before: nothing new, an
opened file, or a header and some of the records. -/
inductive JournalGrowth (old : Option Bytes) : Option Bytes → Prop
  | untouched : JournalGrowth old old
  | opened : JournalGrowth old (some (old.getD []))
  | records (header : JournalHeader) (kept rest : List UInt32) (split : kept ++ rest = saved)
      (inside : SavedInside pageSize orig kept) (size : header.pageSize = pageSize)
      (room : journalHeaderLen ≤ header.sectorSize.toNat)
      (count : header.initialPageCount = headerCount orig) :
      JournalGrowth old (some (withRecords header 0 (savedPages pageSize orig kept)
        (writeAt (old.getD []) 0 (headerRegion header))))

variable {pageSize orig saved}

theorem savedPages_sized (inside : SavedInside pageSize orig saved) :
    ∀ record ∈ savedPages pageSize orig saved, record.2.length = pageSize.toNat := by
  intro record mem
  obtain ⟨pageNum, isSaved, rfl⟩ := mem_map.mp mem
  exact length_readAt_of_le _ _ _ (inside pageNum isSaved).2

theorem journalSaves_written (header : JournalHeader) (old : Bytes)
    (inside : SavedInside pageSize orig saved) (size : header.pageSize = pageSize)
    (room : journalHeaderLen ≤ header.sectorSize.toNat)
    (count : header.initialPageCount = headerCount orig)
    (records : header.nRec.toNat = saved.length) : JournalSaves pageSize orig saved
      (withRecords header 0 (savedPages pageSize orig saved)
        (writeAt old 0 (headerRegion header))) := by
  subst size
  have sized := savedPages_sized inside
  have regionLength : (headerRegion header).length = header.sectorSize.toNat := by
    have serialized : header.serialize.length = journalHeaderLen := rfl
    rw [headerRegion, length_append, length_zeros]
    omega
  have regionSome : headerRegion header ≠ [] := by
    intro none
    rw [none] at regionLength
    simp only [length_nil, journalHeaderLen] at regionLength room
    omega
  have filled : recordOffset header.sectorSize header.pageSize 0 ≤
      (writeAt old 0 (headerRegion header)).length := by
    rw [length_writeAt _ _ _ regionSome, recordOffset]
    omega
  have front : readAt (withRecords header 0 (savedPages header.pageSize orig saved)
      (writeAt old 0 (headerRegion header))) 0 journalHeaderLen = header.serialize := by
    rw [readAt_withRecords header _ 0 _ sized filled 0 journalHeaderLen
      (by rw [recordOffset]; omega), writeAt_eq_append _ _ _ (Nat.zero_le _)]
    rfl
  have long : journalHeaderLen ≤ (withRecords header 0 (savedPages header.pageSize orig saved)
      (writeAt old 0 (headerRegion header))).length := by
    have whole := congrArg List.length front
    have serialized : header.serialize.length = journalHeaderLen := rfl
    rw [length_readAt] at whole
    omega
  refine ⟨hot_of_serialized header _ front, inside, header,
    parse_of_serialized header _ long front, rfl, count, ?_⟩
  have listed : saved.length = (savedPages header.pageSize orig saved).length := by
    rw [savedPages, length_map]
  rw [journalRecords, records, listed]
  exact acceptedRecords_withRecords header _ 0 _ sized filled

theorem writeAt_original (file : Bytes) (off length index : Nat)
    (inside : off + length ≤ orig.length) (known : index < orig.length)
    (long : orig.length ≤ file.length)
    (good : file[index]? = orig[index]? ∨ (off ≤ index ∧ index < off + length)) :
    (writeAt file off (readAt orig off length))[index]? = orig[index]? := by
  have whole := length_readAt_of_le orig off length inside
  by_cases covered : off ≤ index ∧ index < off + length
  · have relative : index - off < length := by omega
    have place : off + (index - off) = index := by omega
    rw [getElem?_writeAt_inside _ _ _ _ (by rw [whole]; exact covered), getElem?_readAt,
      if_pos relative, place]
  · rcases good with same | inRange
    · rw [getElem?_writeAt_outside _ _ _ _ (by omega) (by rw [whole]; exact covered)]
      exact same
    · exact absurd inRange covered

theorem writePages_savedPages (inside : SavedInside pageSize orig saved) (file : Bytes)
    (long : orig.length ≤ file.length) (index : Nat) (known : index < orig.length)
    (good : file[index]? = orig[index]? ∨ SavedAt pageSize saved index) :
    (writePages pageSize file (savedPages pageSize orig saved))[index]? = orig[index]? := by
  induction saved generalizing file with
  | nil =>
    rcases good with same | ⟨pageNum, mem, _⟩
    · exact same
    · simp at mem
  | cons first rest ih =>
    have firstInside := (inside first mem_cons_self).2
    have restInside : SavedInside pageSize orig rest :=
      fun pageNum mem => inside pageNum (.tail _ mem)
    apply ih restInside (writeAt file (pageOffset pageSize first)
      (readAt orig (pageOffset pageSize first) pageSize.toNat))
    · exact Nat.le_trans long (le_length_writeAt _ _ _)
    rcases good with same | ⟨pageNum, mem, low, high⟩
    · exact Or.inl (writeAt_original _ _ _ _ firstInside known long (Or.inl same))
    rcases mem_cons.mp mem with rfl | later
    · exact Or.inl (writeAt_original _ _ _ _ firstInside known long (Or.inr ⟨low, high⟩))
    · exact Or.inr ⟨pageNum, later, low, high⟩

theorem recoveredMain_restores {bytes file : Bytes} {header : JournalHeader}
    (saves : JournalSaves pageSize orig saved bytes)
    (parsed : JournalHeader.parse bytes = .ok header)
    (whole : (headerCount orig).toNat * pageSize.toNat = orig.length)
    (agrees : AgreesOutside (Covered pageSize orig saved) orig file) :
    recoveredMain bytes header file = orig := by
  obtain ⟨_, inside, found, foundParsed, size, count, records⟩ := saves
  rw [parsed] at foundParsed
  cases foundParsed
  apply ext_getElem?
  intro index
  rw [recoveredMain, records, size, count, whole, getElem?_truncate]
  by_cases known : index < orig.length
  swap
  · rw [if_neg known, List.getElem?_eq_none (Nat.not_lt.mp known)]
  have longer := Nat.le_trans agrees.long (le_length_writePages pageSize
    (savedPages pageSize orig saved) file)
  rw [if_pos known, if_pos (Nat.lt_of_lt_of_le known longer)]
  apply writePages_savedPages inside file agrees.long index known
  by_cases covered : SavedAt pageSize saved index
  · exact Or.inr covered
  refine Or.inl (agrees.bytes index known ?_)
  rintro (saved | behind)
  · exact covered saved
  · omega

end Saved

end SqliteRs
