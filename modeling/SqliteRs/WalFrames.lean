import SqliteRs.CommitLog
import SqliteRs.Vfs

/-!
What a `-wal` file says. It is a 32-byte header and frames of a 24-byte header and one
page, each with the salts of the header and a checksum that runs on from the frame before
it. A scan stops at the first frame whose salts or checksum are wrong; such a frame is a
torn tail and no error. Both scans of the source are functions of the list of frames that
are accepted. Writing frames with the checksum continued extends the list, and bytes past
an accepted frame have no influence on the frames before them. Native words are
little-endian here.
-/

namespace SqliteRs

open List

open ByteFile

def headerLen : Nat := 32

def frameHeaderLen : Nat := 24

def formatVersionNumber : UInt32 := 3007000

abbrev Checksum : Type := UInt32 × UInt32

inductive WalError where
  | headerTooShort (len : Nat)
  | invalidMagic (magic : UInt32)
  | invalidPageSize (pageSize : UInt32)
  | headerChecksumMismatch (stored computed : Checksum)
  | vfs (source : VfsError)
  deriving DecidableEq, Repr

structure WalHeader where
  nativeChecksum : Bool
  pageSize : UInt32
  salt1 : UInt32
  salt2 : UInt32
  formatVersion : UInt32
  checkpointSeq : UInt32
  headerChecksum : Checksum
  deriving DecidableEq, Repr

def readU32 (buf : Bytes) (offset : Nat) : UInt32 := be32 (readAt buf offset 4)

def readWord (nativeChecksum : Bool) (bytes : Bytes) : UInt32 :=
  if nativeChecksum then le32 bytes else be32 bytes

/-- Sums 8-byte chunks as word pairs; a trailing partial chunk is ignored. -/
def checksum (nativeChecksum : Bool) : Bytes → Checksum → Checksum
  | b0 :: b1 :: b2 :: b3 :: b4 :: b5 :: b6 :: b7 :: rest, (s1, s2) =>
    let next1 := s1 + readWord nativeChecksum [b0, b1, b2, b3] + s2
    let next2 := s2 + readWord nativeChecksum [b4, b5, b6, b7] + next1
    checksum nativeChecksum rest (next1, next2)
  | _, sums => sums

def isPowerOfTwo (value : UInt32) : Bool := value != 0 && value &&& (value - 1) == 0

def validPageSize (pageSize : UInt32) : Bool :=
  !(decide (pageSize < 512) || !isPowerOfTwo pageSize || decide (65536 < pageSize))

namespace WalHeader

def magic (nativeChecksum : Bool) : UInt32 := if nativeChecksum then 0x377f0682 else 0x377f0683

def parseFields (bytes : Bytes) (nativeChecksum : Bool) : Except WalError WalHeader :=
  let pageSize := readU32 bytes 8
  if validPageSize pageSize then
    let stored := (readU32 bytes 24, readU32 bytes 28)
    let computed := checksum nativeChecksum (readAt bytes 0 24) (0, 0)
    if computed = stored then
      .ok
        { nativeChecksum
          pageSize
          salt1 := readU32 bytes 16
          salt2 := readU32 bytes 20
          formatVersion := readU32 bytes 4
          checkpointSeq := readU32 bytes 12
          headerChecksum := stored }
    else .error (.headerChecksumMismatch stored computed)
  else .error (.invalidPageSize pageSize)

/-- The length check comes first, so no later field read can be short. -/
def parse (bytes : Bytes) : Except WalError WalHeader :=
  if bytes.length < headerLen then .error (.headerTooShort bytes.length)
  else if readU32 bytes 0 = 0x377f0682 then parseFields bytes true
  else if readU32 bytes 0 = 0x377f0683 then parseFields bytes false
  else .error (.invalidMagic (readU32 bytes 0))

def checksummed (header : WalHeader) : Bytes :=
  be32Bytes (magic header.nativeChecksum) ++ be32Bytes header.formatVersion ++
    be32Bytes header.pageSize ++ be32Bytes header.checkpointSeq ++ be32Bytes header.salt1 ++
    be32Bytes header.salt2

def serialize (header : WalHeader) : Bytes :=
  header.checksummed ++ be32Bytes header.headerChecksum.1 ++ be32Bytes header.headerChecksum.2

def new (nativeChecksum : Bool) (pageSize salt1 salt2 checkpointSeq : UInt32) : WalHeader :=
  let header : WalHeader :=
    { nativeChecksum, pageSize, salt1, salt2, formatVersion := formatVersionNumber,
      checkpointSeq, headerChecksum := (0, 0) }
  { header with headerChecksum := checksum nativeChecksum header.checksummed (0, 0) }

def frameSize (header : WalHeader) : Nat := frameHeaderLen + header.pageSize.toNat

end WalHeader

/-- A frame as the scan keeps it; `dbSize` is zero unless the frame commits. -/
structure WalFrame where
  pageNumber : UInt32
  dbSize : UInt32
  content : Bytes
  deriving DecidableEq, Repr

def WalFrame.commits (frame : WalFrame) : Bool := frame.dbSize != 0

/-- The frame check both scans make at an offset: salts, then the running checksum. -/
def validFrameAt (header : WalHeader) (walBytes : Bytes) (offset : Nat) (running : Checksum) :
    Option (WalFrame × Checksum) :=
  let fh := readAt walBytes offset frameHeaderLen
  let pageContent := readAt walBytes (offset + frameHeaderLen) header.pageSize.toNat
  if readU32 fh 8 ≠ header.salt1 ∨ readU32 fh 12 ≠ header.salt2 then none
  else
    let afterFrameHeader := checksum header.nativeChecksum (readAt fh 0 8) running
    let afterPage := checksum header.nativeChecksum pageContent afterFrameHeader
    if afterPage ≠ (readU32 fh 16, readU32 fh 20) then none
    else some (⟨readU32 fh 0, readU32 fh 4, pageContent⟩, afterPage)

abbrev PageMap : Type := OrderedMap UInt32 Bytes

structure CommittedScan where
  scan : CommitLog.Scan UInt32 Bytes
  committedDbSize : UInt32

def CommittedScan.frame (state : CommittedScan) (frame : WalFrame) : CommittedScan :=
  { scan := state.scan.apply WalFrame.commits WalFrame.pageNumber WalFrame.content frame
    committedDbSize := if frame.commits then frame.dbSize else state.committedDbSize }

/-- The scan loop. Each round consumes a frame, so the file length bounds the rounds. -/
def committedLoop (header : WalHeader) (walBytes : Bytes) :
    Nat → Nat → Checksum → CommittedScan → CommittedScan
  | 0, _, _, state => state
  | fuel + 1, offset, running, state =>
    if offset + header.frameSize ≤ walBytes.length then
      match validFrameAt header walBytes offset running with
      | none => state
      | some (frame, afterPage) =>
        committedLoop header walBytes fuel (offset + header.frameSize) afterPage
          (state.frame frame)
    else state

def committedPages (header : WalHeader) (walBytes : Bytes) : PageMap × UInt32 :=
  let final := committedLoop header walBytes walBytes.length headerLen header.headerChecksum
    ⟨⟨OrderedMap.empty, []⟩, 0⟩
  (CommitLog.restore final.scan.map final.scan.undo, final.committedDbSize)

def lastValidLoop (header : WalHeader) (walBytes : Bytes) :
    Nat → Nat → Checksum → Nat × Checksum
  | 0, offset, running => (offset, running)
  | fuel + 1, offset, running =>
    if offset + header.frameSize ≤ walBytes.length then
      match validFrameAt header walBytes offset running with
      | none => (offset, running)
      | some (_, afterPage) =>
        lastValidLoop header walBytes fuel (offset + header.frameSize) afterPage
    else (offset, running)

/-- Where and with which checksum the next frame is appended. Commits play no part. -/
def lastValidFrameState (header : WalHeader) (walBytes : Bytes) : Nat × Checksum :=
  lastValidLoop header walBytes walBytes.length headerLen header.headerChecksum

namespace WalHeader

theorem parse_congr (left right : Bytes) (leftLong : headerLen ≤ left.length)
    (rightLong : headerLen ≤ right.length)
    (same : left.take headerLen = right.take headerLen) : parse left = parse right := by
  have word : ∀ off, off + 4 ≤ headerLen → readU32 left off = readU32 right off := by
    intro off inside
    simp only [readU32]
    rw [← readAt_take left headerLen off 4 inside, same, readAt_take right headerLen off 4 inside]
  have summed : readAt left 0 24 = readAt right 0 24 := by
    rw [← readAt_take left headerLen 0 24 (by decide), same,
      readAt_take right headerLen 0 24 (by decide)]
  simp only [headerLen] at leftLong rightLong word
  simp [parse, parseFields, headerLen, Nat.not_lt.mpr leftLong, Nat.not_lt.mpr rightLong, summed,
    word 0 (by omega), word 4 (by omega), word 8 (by omega), word 12 (by omega), word 16 (by omega),
    word 20 (by omega), word 24 (by omega), word 28 (by omega)]

variable (bytes : Bytes)

theorem parse_long (hdr : WalHeader) (parsed : parse bytes = .ok hdr) : headerLen ≤ bytes.length := by
  by_contra short
  simp only [parse, Nat.not_le.mp short] at parsed
  cases parsed

theorem parse_error (error : WalError) (failed : parse bytes = .error error)
    (src : VfsError) : error ≠ .vfs src := by
  rintro rfl
  simp only [parse, parseFields] at failed
  split at failed
  · cases failed
  · repeat' split at failed
    all_goals cases failed

theorem parse_take_append (rest : Bytes) (hdr : WalHeader) (kept : Nat)
    (parsed : parse bytes = .ok hdr) (enough : headerLen ≤ kept) :
    parse (bytes.take kept ++ rest) = .ok hdr := by
  have long := parse_long bytes hdr parsed
  rw [← parsed]
  apply parse_congr
  · rw [length_append, length_take]
    omega
  · exact long
  · rw [take_append_of_le_length (by rw [length_take]; omega), take_take, Nat.min_eq_left enough]

theorem parse_readAt (long : headerLen ≤ bytes.length) :
    parse (readAt bytes 0 headerLen) = parse bytes := by
  apply parse_congr
  · exact Nat.le_of_eq (length_readAt_of_le _ _ _ (by omega)).symm
  · exact long
  · simp [readAt, drop_zero, take_take]

end WalHeader

open Nat WalFrame CommitLog CommittedScan

namespace WalFrame

def Sized (header : WalHeader) (frame : WalFrame) : Prop :=
  frame.content.length = header.pageSize.toNat

instance (header : WalHeader) (frame : WalFrame) : Decidable (frame.Sized header) :=
  inferInstanceAs (Decidable (_ = _))

def chain (header : WalHeader) (running : Checksum) (frame : WalFrame) : Checksum :=
  checksum header.nativeChecksum frame.content
    (checksum header.nativeChecksum (be32Bytes frame.pageNumber ++ be32Bytes frame.dbSize) running)

def headerBytes (header : WalHeader) (running : Checksum) (frame : WalFrame) : Bytes :=
  let after := frame.chain header running
  be32Bytes frame.pageNumber ++ be32Bytes frame.dbSize ++ be32Bytes header.salt1 ++
    be32Bytes header.salt2 ++ be32Bytes after.1 ++ be32Bytes after.2

def encode (header : WalHeader) (running : Checksum) (frame : WalFrame) : Bytes :=
  frame.headerBytes header running ++ frame.content

variable (header : WalHeader)

@[simp] theorem length_headerBytes (running : Checksum) (frame : WalFrame) :
    (frame.headerBytes header running).length = frameHeaderLen := rfl

theorem length_encode (running : Checksum) (frame : WalFrame)
    (sized : frame.Sized header) : (frame.encode header running).length = header.frameSize := by
  rw [encode, length_append, length_headerBytes, sized, WalHeader.frameSize]

end WalFrame

def chainFrames (header : WalHeader) (running : Checksum) (frames : List WalFrame) : Checksum :=
  frames.foldl (WalFrame.chain header) running

def encodeFrames (header : WalHeader) : Checksum → List WalFrame → Bytes
  | _, [] => []
  | running, frame :: rest =>
    frame.encode header running ++ encodeFrames header (frame.chain header running) rest

def acceptFrames (header : WalHeader) : Nat → Checksum → Bytes → List WalFrame
  | 0, _, _ => []
  | fuel + 1, running, bytes =>
    if header.frameSize ≤ bytes.length then
      match validFrameAt header bytes 0 running with
      | none => []
      | some (frame, after) =>
        frame :: acceptFrames header fuel after (bytes.drop header.frameSize)
    else []

def framesFrom (header : WalHeader) (running : Checksum) (bytes : Bytes) : List WalFrame :=
  acceptFrames header bytes.length running bytes

def walFrames (header : WalHeader) (walBytes : Bytes) : List WalFrame :=
  framesFrom header header.headerChecksum (walBytes.drop headerLen)

section FrameBytes

variable (hdr : WalHeader) (running : Checksum)

theorem frameSize_pos : 0 < hdr.frameSize := by
  simp only [WalHeader.frameSize, frameHeaderLen]
  omega

theorem validFrameAt_drop (log : Bytes) (off : Nat) : validFrameAt hdr log off running =
      validFrameAt hdr (log.drop off) 0 running := by
  simp [validFrameAt, readAt_drop]

theorem checksum_inj (native : Bool) (bytes : Bytes) {one other : Checksum}
    (same : checksum native bytes one = checksum native bytes other) : one = other := by
  induction bytes, one using checksum.induct native generalizing other with
  | case1 b0 b1 b2 b3 b4 b5 b6 b7 rest s1 s2 next1 next2 =>
    rename_i ih
    have sums := ih same
    simp only [Prod.mk.injEq] at sums
    obtain ⟨first, second⟩ := sums
    rw [← first, UInt32.add_left_inj, UInt32.add_left_inj] at second
    simp only [next1, second, UInt32.add_left_inj] at first
    exact Prod.ext first second
  | case2 bytes sums short =>
    obtain ⟨s1, s2⟩ := sums
    obtain ⟨t1, t2⟩ := other
    unfold checksum at same
    split at same
    · exact (short _ _ _ _ _ _ _ _ _ _ _ rfl rfl).elim
    split at same
    · exact (short _ _ _ _ _ _ _ _ _ _ _ rfl rfl).elim
    · exact same

/-- The stored checksum says what it runs on from. -/
theorem validFrameAt_running {bytes : Bytes} {off : Nat} {one other : Checksum}
    {found : WalFrame × Checksum} (here : validFrameAt hdr bytes off one = some found)
    (there : (validFrameAt hdr bytes off other).isSome) : one = other := by
  simp only [validFrameAt] at here there
  split at here
  · cases here
  rename_i salts
  rw [if_neg salts] at there
  split at here
  · cases here
  rename_i summed
  split at there
  · cases there
  rename_i also
  exact checksum_inj _ _ (checksum_inj _ _ ((not_not.mp summed).trans (not_not.mp also).symm))

variable (bytes : Bytes) (frame : WalFrame)

theorem readU32_four (off : Nat) (left : Bytes) (value : UInt32) (right : Bytes)
    (split : bytes = left ++ (be32Bytes value ++ right)) (place : left.length = off) :
    readU32 bytes off = value := by
  rw [readU32, split, readAt_append_right _ _ _ _ (by omega), place, Nat.sub_self,
    readAt_append_left _ _ _ _ (by simp), readAt_zero_self _ _ (length_be32Bytes value),
    be32_be32Bytes]

theorem validFrameAt_encode (rest : Bytes) (sized : frame.Sized hdr) :
    validFrameAt hdr (frame.encode hdr running ++ rest) 0 running =
      some (frame, frame.chain hdr running) := by
  have fh : readAt (frame.encode hdr running ++ rest) 0 frameHeaderLen =
      frame.headerBytes hdr running := by
    rw [encode, append_assoc, readAt_append_left _ _ _ _ (by simp),
      readAt_zero_self _ _ (length_headerBytes hdr running frame)]
  have page : readAt (frame.encode hdr running ++ rest) (0 + frameHeaderLen)
      hdr.pageSize.toNat = frame.content := by
    rw [encode, append_assoc, readAt_append_right _ _ _ _ (by simp),
      WalFrame.length_headerBytes, Nat.zero_add, Nat.sub_self,
      readAt_append_left _ _ _ _ (by rw [zero_add]; exact le_of_eq sized.symm),
      readAt_zero_self _ _ sized]
  -- The six words of the frame header, read back from where they were written.
  have word0 : readU32 (frame.headerBytes hdr running) 0 = frame.pageNumber :=
    readU32_four _ _ [] _ _ (by simp; rfl) rfl
  have word4 : readU32 (frame.headerBytes hdr running) 4 = frame.dbSize :=
    readU32_four _ _ (be32Bytes frame.pageNumber) _ _ (by simp [headerBytes]; rfl) rfl
  have word8 : readU32 (frame.headerBytes hdr running) 8 = hdr.salt1 :=
    readU32_four _ _ (be32Bytes frame.pageNumber ++ be32Bytes frame.dbSize) _ _
      (by simp; rfl) rfl
  have word12 : readU32 (frame.headerBytes hdr running) 12 = hdr.salt2 :=
    readU32_four _ _
      (be32Bytes frame.pageNumber ++ be32Bytes frame.dbSize ++ be32Bytes hdr.salt1) _ _
      (by simp; rfl) rfl
  have word16 : readU32 (frame.headerBytes hdr running) 16 = (frame.chain hdr running).1 :=
    readU32_four _ _ (be32Bytes frame.pageNumber ++ be32Bytes frame.dbSize ++
      be32Bytes hdr.salt1 ++ be32Bytes hdr.salt2) _ _
      (by simp; rfl) rfl
  have word20 : readU32 (frame.headerBytes hdr running) 20 = (frame.chain hdr running).2 :=
    readU32_four _ _ (be32Bytes frame.pageNumber ++ be32Bytes frame.dbSize ++
      be32Bytes hdr.salt1 ++ be32Bytes hdr.salt2 ++
      be32Bytes (frame.chain hdr running).1) _ [] (by simp [headerBytes]) rfl
  have summed : readAt (frame.headerBytes hdr running) 0 8 =
      be32Bytes frame.pageNumber ++ be32Bytes frame.dbSize := rfl
  simp only [validFrameAt, fh, page, word0, word4, word8, word12, word16, word20, summed]
  simp [chain]

theorem validFrameAt_some (after : Checksum) (room : hdr.frameSize ≤ bytes.length)
    (valid : validFrameAt hdr bytes 0 running = some (frame, after)) :
    frame.Sized hdr ∧ after = frame.chain hdr running ∧
      bytes = frame.encode hdr running ++ bytes.drop hdr.frameSize := by
  have pageRoom : frameHeaderLen + hdr.pageSize.toNat ≤ bytes.length := room
  simp only [validFrameAt, zero_add] at valid
  split at valid
  · simp at valid
  rename_i salts
  split at valid
  · simp at valid
  rename_i sums
  simp only [not_or, not_not] at salts sums
  obtain ⟨salt1, salt2⟩ := salts
  obtain ⟨rfl, rfl⟩ := valid
  have fhLength : (readAt bytes 0 frameHeaderLen).length = 24 :=
    length_readAt_of_le _ _ _ (by simp only [frameHeaderLen] at *; omega)
  generalize front : readAt bytes 0 frameHeaderLen = fh at *
  -- Words decoded from the frame header are its bytes again when encoded.
  have word : ∀ off, off + 4 ≤ 24 → be32Bytes (readU32 fh off) = readAt fh off 4 := by
    intro off inside
    exact be32Bytes_be32 _ (length_readAt_of_le _ _ _ (by omega))
  have summed : readAt fh 0 8 = be32Bytes (readU32 fh 0) ++ be32Bytes (readU32 fh 4) := by
    rw [word 0 (by omega), word 4 (by omega)]
    exact (readAt_append_next _ 0 4 4).symm
  have chained : checksum hdr.nativeChecksum (readAt bytes frameHeaderLen hdr.pageSize.toNat)
      (checksum hdr.nativeChecksum (readAt fh 0 8) running) = chain hdr running
        ⟨readU32 fh 0, readU32 fh 4, readAt bytes frameHeaderLen hdr.pageSize.toNat⟩ := by
    rw [summed]
    rfl
  refine ⟨length_readAt_of_le _ _ _ pageRoom, chained, ?_⟩
  have whole : headerBytes hdr running
      ⟨readU32 fh 0, readU32 fh 4, readAt bytes frameHeaderLen hdr.pageSize.toNat⟩ = fh := by
    simp only [headerBytes]
    rw [← chained, sums, ← salt1, ← salt2]
    simp only [word 0 (by omega), word 4 (by omega), word 8 (by omega), word 12 (by omega),
      word 16 (by omega), word 20 (by omega)]
    rw [readAt_append_next, readAt_append_next, readAt_append_next, readAt_append_next,
      readAt_append_next]
    exact readAt_zero_self fh 24 fhLength
  rw [encode, whole, ← front]
  simp only [readAt, drop_zero, WalHeader.frameSize, ← drop_drop]
  rw [append_assoc, take_append_drop, take_append_drop]

theorem length_encodeFrames (frames : List WalFrame) (sized : ∀ frame ∈ frames, frame.Sized hdr) :
    (encodeFrames hdr running frames).length = frames.length * hdr.frameSize := by
  induction frames generalizing running with
  | nil => simp [encodeFrames]
  | cons frame rest ih =>
    have first := length_encode hdr running frame (sized frame (by simp))
    have later := ih (frame.chain hdr running)
      (fun other mem => sized other (mem_cons_of_mem _ mem))
    simp only [encodeFrames, length_append, first, later, length_cons]
    rw [add_mul, one_mul, add_comm]

theorem encodeFrames_append (left right : List WalFrame) :
    encodeFrames hdr running (left ++ right) = encodeFrames hdr running left ++
        encodeFrames hdr (chainFrames hdr running left) right := by
  induction left generalizing running with
  | nil => rfl
  | cons frame rest ih =>
    simp only [cons_append, encodeFrames, ih, append_assoc]
    rfl

end FrameBytes

section Acceptance

variable (hdr : WalHeader)

theorem acceptFrames_encode (frame : WalFrame) (running : Checksum) (rest : Bytes) (fuel : Nat)
    (sized : frame.Sized hdr) : acceptFrames hdr (fuel + 1) running (frame.encode hdr running ++ rest) =
      frame :: acceptFrames hdr fuel (frame.chain hdr running) rest := by
  have length := length_encode hdr running frame sized
  have room : hdr.frameSize ≤ (frame.encode hdr running ++ rest).length := by
    rw [length_append]
    omega
  have dropped : (frame.encode hdr running ++ rest).drop hdr.frameSize = rest := by
    rw [← length, drop_left]
  rw [acceptFrames, if_pos room, validFrameAt_encode hdr running frame rest sized]
  simp [dropped]

theorem acceptFrames_spec (fuel : Nat) (running : Checksum) (bytes : Bytes)
    (enough : bytes.length ≤ fuel) : (∀ frame ∈ acceptFrames hdr fuel running bytes, frame.Sized hdr) ∧
      bytes = encodeFrames hdr running (acceptFrames hdr fuel running bytes) ++
        bytes.drop ((acceptFrames hdr fuel running bytes).length * hdr.frameSize) ∧
      ∀ more, bytes.length ≤ more →
        acceptFrames hdr more running bytes = acceptFrames hdr fuel running bytes := by
  -- A frame takes at least one byte, so the length of `bytes` is fuel enough.
  induction fuel generalizing running bytes with
  | zero =>
    have empty : bytes = [] := eq_nil_of_length_eq_zero (by omega)
    subst empty
    refine ⟨by simp [acceptFrames], by simp [acceptFrames, encodeFrames], ?_⟩
    intro more _
    have positive := frameSize_pos hdr
    cases more with
    | zero => rfl
    | succ more => simp [acceptFrames, not_le.mpr positive]
  | succ fuel ih =>
    have positive := frameSize_pos hdr
    by_cases room : hdr.frameSize ≤ bytes.length
    · cases valid : validFrameAt hdr bytes 0 running with
      | none =>
        simp only [acceptFrames, room, valid]
        refine ⟨by simp, by simp [encodeFrames], ?_⟩
        intro more _
        cases more with
        | zero => rfl
        | succ more => simp only [acceptFrames, room, valid]
      | some pair =>
        obtain ⟨frame, after⟩ := pair
        obtain ⟨sized, chained, split⟩ :=
          validFrameAt_some hdr running bytes frame after room valid
        have dropped : (bytes.drop hdr.frameSize).length ≤ fuel := by
          rw [length_drop]
          omega
        obtain ⟨laterSized, laterSplit, laterFuel⟩ :=
          ih after (bytes.drop hdr.frameSize) dropped
        simp only [acceptFrames, room, if_true, valid]
        refine ⟨?_, ?_, ?_⟩
        · intro other mem
          rcases mem_cons.mp mem with same | later
          · rw [same]
            exact sized
          · exact laterSized other later
        · have offsets : (acceptFrames hdr fuel after
                (bytes.drop hdr.frameSize)).length * hdr.frameSize + hdr.frameSize =
              ((frame :: acceptFrames hdr fuel after
                (bytes.drop hdr.frameSize)).length) * hdr.frameSize := by
            rw [length_cons, add_mul, one_mul]
          rw [drop_drop, add_comm, offsets] at laterSplit
          simp only [encodeFrames, ← chained, append_assoc]
          rw [← laterSplit]
          exact split
        · intro more moreEnough
          cases more with
          | zero => omega
          | succ more =>
            simp only [acceptFrames, room, if_true, valid]
            rw [laterFuel more (by rw [length_drop]; omega)]
    · simp only [acceptFrames, room]
      refine ⟨by simp, by simp [encodeFrames], ?_⟩
      intro more _
      cases more with
      | zero => rfl
      | succ more => simp only [acceptFrames, room, if_false]

theorem framesFrom_sized (running : Checksum) (bytes : Bytes) :
    ∀ frame ∈ framesFrom hdr running bytes, frame.Sized hdr :=
  (acceptFrames_spec hdr bytes.length running bytes (le_refl _)).1

theorem framesFrom_split (running : Checksum) (bytes : Bytes) :
    bytes = encodeFrames hdr running (framesFrom hdr running bytes) ++
      bytes.drop ((framesFrom hdr running bytes).length * hdr.frameSize) :=
  (acceptFrames_spec hdr bytes.length running bytes (le_refl _)).2.1

theorem acceptFrames_eq_framesFrom (fuel : Nat) (running : Checksum) (bytes : Bytes)
    (enough : bytes.length ≤ fuel) :
    acceptFrames hdr fuel running bytes = framesFrom hdr running bytes :=
  (acceptFrames_spec hdr bytes.length running bytes (le_refl _)).2.2 fuel enough

theorem framesFrom_encode_append (running : Checksum) (frames : List WalFrame) (rest : Bytes)
    (sized : ∀ frame ∈ frames, frame.Sized hdr) :
    framesFrom hdr running (encodeFrames hdr running frames ++ rest) =
      frames ++ framesFrom hdr (chainFrames hdr running frames) rest := by
  induction frames generalizing running with
  | nil => rfl
  | cons frame later ih =>
    have frameSized := sized frame (by simp)
    have laterSized : ∀ other ∈ later, other.Sized hdr :=
      fun other mem => sized other (mem_cons_of_mem _ mem)
    have length := length_encode hdr running frame frameSized
    have positive := frameSize_pos hdr
    simp only [encodeFrames, append_assoc, framesFrom]
    rw [length_append, length]
    obtain ⟨fuel, bound⟩ : ∃ fuel, hdr.frameSize +
        (encodeFrames hdr (frame.chain hdr running) later ++ rest).length = fuel + 1 :=
      ⟨hdr.frameSize - 1 + (encodeFrames hdr (frame.chain hdr running) later ++ rest).length, by omega⟩
    rw [bound, acceptFrames_encode hdr frame running _ fuel frameSized,
      acceptFrames_eq_framesFrom hdr fuel _ _ (by omega), ih _ laterSized]
    rfl

theorem framesFrom_take_append (running : Checksum) (bytes rest : Bytes) (count : Nat)
    (known : count ≤ (framesFrom hdr running bytes).length) :
    framesFrom hdr running (bytes.take (count * hdr.frameSize) ++ rest) =
      (framesFrom hdr running bytes).take count ++ framesFrom hdr
          (chainFrames hdr running ((framesFrom hdr running bytes).take count)) rest := by
  generalize accepted : framesFrom hdr running bytes = frames at known
  have split := framesFrom_split hdr running bytes
  have sized := framesFrom_sized hdr running bytes
  rw [accepted] at split sized
  have sizedTake : ∀ frame ∈ frames.take count, frame.Sized hdr :=
    fun frame mem => sized frame (mem_of_mem_take mem)
  have front : bytes.take (count * hdr.frameSize) =
      encodeFrames hdr running (frames.take count) := by
    have parts := encodeFrames_append hdr running (frames.take count) (frames.drop count)
    rw [take_append_drop] at parts
    have length := length_encodeFrames hdr running (frames.take count) sizedTake
    rw [length_take, min_eq_left known] at length
    rw [split, parts, append_assoc, take_append_of_le_length (by omega), take_of_length_le (by omega)]
  rw [front]
  exact framesFrom_encode_append hdr running (frames.take count) rest sizedTake

end Acceptance

section Refused

variable {hdr : WalHeader} {running : Checksum}

theorem framesFrom_eq_nil_iff {bytes : Bytes} (room : hdr.frameSize ≤ bytes.length) :
    framesFrom hdr running bytes = [] ↔ validFrameAt hdr bytes 0 running = none := by
  have positive := frameSize_pos hdr
  obtain ⟨fuel, length⟩ : ∃ fuel, bytes.length = fuel + 1 := ⟨bytes.length - 1, by omega⟩
  rw [framesFrom, length, acceptFrames, if_pos room]
  cases validFrameAt hdr bytes 0 running <;> simp

/-- Bytes behind a whole frame that is refused do not make it valid. -/
theorem framesFrom_append_of_refused {bytes : Bytes} (more : Bytes)
    (room : hdr.frameSize ≤ bytes.length) (refused : framesFrom hdr running bytes = []) :
    framesFrom hdr running (bytes ++ more) = [] := by
  have longer : hdr.frameSize ≤ (bytes ++ more).length := by
    rw [length_append]
    omega
  rw [framesFrom_eq_nil_iff room] at refused
  rw [framesFrom_eq_nil_iff longer, ← refused]
  simp only [WalHeader.frameSize] at room
  simp only [validFrameAt, readAt_append_left bytes more 0 frameHeaderLen (by omega),
    readAt_append_left bytes more (0 + frameHeaderLen) hdr.pageSize.toNat (by omega)]

theorem framesFrom_encode_of_ne {other : Checksum} (differ : other ≠ running)
    {frames : List WalFrame} (sized : ∀ frame ∈ frames, frame.Sized hdr) :
    framesFrom hdr running (encodeFrames hdr other frames) = [] := by
  cases frames with
  | nil => rfl
  | cons frame rest =>
    have valid := validFrameAt_encode hdr other frame
      (encodeFrames hdr (frame.chain hdr other) rest) (sized frame (by simp))
    rw [encodeFrames, framesFrom_eq_nil_iff, Option.eq_none_iff_forall_ne_some]
    · intro found also
      exact differ (validFrameAt_running hdr valid (by simp [also]))
    · rw [length_append, length_encode hdr other frame (sized frame (by simp))]
      omega

end Refused

def frameWrites (frames : List WalFrame) : List (UInt32 × Bytes) :=
  CommitLog.effects WalFrame.pageNumber WalFrame.content frames

def committedFrames (frames : List WalFrame) : List WalFrame :=
  CommitLog.committed WalFrame.commits frames

def uncommittedFrames (frames : List WalFrame) : List WalFrame :=
  CommitLog.uncommitted WalFrame.commits frames

/-- The database size the last commit frame declares, zero without one. -/
def commitSize (frames : List WalFrame) : UInt32 :=
  frames.foldl (fun size frame => if frame.commits then frame.dbSize else size) 0

section Scans

variable (hdr : WalHeader)

variable (log : Bytes) (fuel off : Nat)

theorem committedLoop_frames (running : Checksum)
    (state : CommittedScan) (enough : (log.drop off).length ≤ fuel) :
    committedLoop hdr log fuel off running state =
      (framesFrom hdr running (log.drop off)).foldl frame state := by
  rw [← acceptFrames_eq_framesFrom hdr fuel running _ enough]
  induction fuel generalizing off running state with
  | zero => rfl
  | succ fuel ih =>
    have positive := frameSize_pos hdr
    rw [length_drop] at enough
    rw [committedLoop, acceptFrames, validFrameAt_drop hdr running log off]
    have roomDrop : hdr.frameSize ≤ (log.drop off).length ↔ off + hdr.frameSize ≤ log.length := by
      rw [length_drop]
      omega
    by_cases room : off + hdr.frameSize ≤ log.length
    · rw [if_pos room, if_pos (roomDrop.mpr room)]
      cases validFrameAt hdr (log.drop off) 0 running with
      | none => rfl
      | some pair =>
        simp only [drop_drop]
        exact ih _ _ _ (by rw [length_drop]; omega)
    · rw [if_neg room, if_neg (roomDrop.not.mpr room)]
      rfl

theorem lastValidLoop_frames (running : Checksum)
    (enough : (log.drop off).length ≤ fuel) : lastValidLoop hdr log fuel off running =
      (off + (framesFrom hdr running (log.drop off)).length * hdr.frameSize,
        chainFrames hdr running (framesFrom hdr running (log.drop off))) := by
  rw [← acceptFrames_eq_framesFrom hdr fuel running _ enough]
  induction fuel generalizing off running with
  | zero => simp [lastValidLoop, acceptFrames, chainFrames]
  | succ fuel ih =>
    have positive := frameSize_pos hdr
    rw [length_drop] at enough
    rw [lastValidLoop, acceptFrames, validFrameAt_drop hdr running log off]
    have roomDrop : hdr.frameSize ≤ (log.drop off).length ↔ off + hdr.frameSize ≤ log.length := by
      rw [length_drop]
      omega
    by_cases room : off + hdr.frameSize ≤ log.length
    · rw [if_pos room, if_pos (roomDrop.mpr room)]
      cases valid : validFrameAt hdr (log.drop off) 0 running with
      | none => simp [chainFrames]
      | some pair =>
        obtain ⟨frame, after⟩ := pair
        obtain ⟨_, chained, _⟩ := validFrameAt_some hdr running _ frame after (roomDrop.mpr room) valid
        simp only [drop_drop, length_cons]
        rw [ih _ _ (by rw [length_drop]; omega), chained, add_mul, one_mul,
          add_assoc, add_comm hdr.frameSize]
        rfl
    · rw [if_neg room, if_neg (roomDrop.not.mpr room)]
      simp [chainFrames]

theorem foldl_frame (frames : List WalFrame) (state : CommittedScan) :
    frames.foldl frame state = ⟨frames.foldl
          (CommitLog.Scan.apply commits pageNumber content) state.scan,
        frames.foldl (fun size frame => if frame.commits then frame.dbSize else size)
          state.committedDbSize⟩ := by
  induction frames generalizing state with
  | nil => rfl
  | cons frame rest ih => rw [foldl_cons, ih]; rfl

theorem committedPages_frames : committedPages hdr log =
      (OrderedMap.empty.writes (frameWrites (committedFrames (walFrames hdr log))),
        commitSize (walFrames hdr log)) := by
  have loop := committedLoop_frames hdr log log.length headerLen
    hdr.headerChecksum ⟨⟨OrderedMap.empty, []⟩, 0⟩ (by rw [length_drop]; omega)
  simp only [committedPages, loop, foldl_frame, restore_scan]
  simp only [walFrames, committedFrames]
  split
  · rfl
  rename_i unclosed
  rw [committed_eq_nil _ _ (by simpa using unclosed)]
  rfl

theorem lastValidFrameState_frames : lastValidFrameState hdr log =
      (headerLen + (walFrames hdr log).length * hdr.frameSize,
        chainFrames hdr hdr.headerChecksum (walFrames hdr log)) :=
  lastValidLoop_frames hdr log log.length headerLen hdr.headerChecksum
    (by rw [length_drop]; omega)

theorem walFrames_sized : ∀ frame ∈ walFrames hdr log, frame.Sized hdr :=
  framesFrom_sized hdr hdr.headerChecksum (log.drop headerLen)

theorem walFrames_inside (long : headerLen ≤ log.length) :
    headerLen + (walFrames hdr log).length * hdr.frameSize ≤ log.length := by
  have split := congrArg List.length (framesFrom_split hdr hdr.headerChecksum (log.drop headerLen))
  have length := length_encodeFrames hdr hdr.headerChecksum _
    (framesFrom_sized hdr hdr.headerChecksum (log.drop headerLen))
  rw [length_append, length_drop] at split
  simp only [walFrames]
  omega

theorem walFrames_take_append (rest : Bytes) (count : Nat) (long : headerLen ≤ log.length)
    (known : count ≤ (walFrames hdr log).length) :
    walFrames hdr (log.take (headerLen + count * hdr.frameSize) ++ rest) =
      (walFrames hdr log).take count ++ framesFrom hdr
          (chainFrames hdr hdr.headerChecksum ((walFrames hdr log).take count)) rest := by
  have cut : (log.take (headerLen + count * hdr.frameSize) ++ rest).drop headerLen =
      (log.drop headerLen).take (count * hdr.frameSize) ++ rest := by
    rw [drop_append_of_le_length (by rw [length_take]; omega), drop_take]
    congr 2
    omega
  rw [walFrames, cut]
  exact framesFrom_take_append hdr hdr.headerChecksum (log.drop headerLen) rest count known

/-- Frames written behind the file on from another checksum or place than that of its valid
frames are never read. -/
theorem walFrames_append_unreached {running : Checksum} {frames : List WalFrame}
    (long : headerLen ≤ log.length)
    (whole : ∃ count, log.length = headerLen + count * hdr.frameSize)
    (differ : (log.length, running) ≠ lastValidFrameState hdr log)
    (sized : ∀ frame ∈ frames, frame.Sized hdr) :
    walFrames hdr (log ++ encodeFrames hdr running frames) = walFrames hdr log := by
  have inside := walFrames_inside hdr log long
  have cut := fun more => walFrames_take_append hdr log
    (log.drop (headerLen + (walFrames hdr log).length * hdr.frameSize) ++ more) _ long (le_refl _)
  simp only [← append_assoc, take_append_drop, take_length] at cut
  rw [cut]
  apply append_right_eq_self.mpr
  have ends := cut []
  rw [append_nil, append_nil, self_eq_append_right] at ends
  rw [lastValidFrameState_frames] at differ
  obtain ⟨count, length⟩ := whole
  rcases Nat.lt_or_eq_of_le inside with short | exact
  · apply framesFrom_append_of_refused _ _ ends
    have ahead : (walFrames hdr log).length < count := by
      rw [length] at short
      exact Nat.lt_of_mul_lt_mul_right (a := hdr.frameSize) (by omega)
    have room := Nat.mul_le_mul_right hdr.frameSize ahead
    rw [succ_mul] at room
    rw [length_drop]
    omega
  · rw [drop_of_length_le (le_of_eq exact.symm), nil_append]
    refine framesFrom_encode_of_ne (fun same => differ ?_) sized
    rw [same, exact]

end Scans

section Commits

variable (frames left right : List WalFrame)

theorem commitSize_foldl (start : UInt32) :
    frames.foldl (fun size frame => if frame.commits then frame.dbSize else size) start =
      if frames.any commits then commitSize frames else start := by
  induction frames generalizing start with
  | nil => rfl
  | cons frame rest ih =>
    rw [commitSize, foldl_cons, foldl_cons, ih, ih, any_cons]
    by_cases later : rest.any commits = true
    · simp [later, Bool.or_true]
    by_cases closing : frame.commits = true
    · simp [closing, Bool.true_or]
    · simp [later, closing, Bool.or_self, Bool.false_eq_true]

theorem commitSize_append :
    commitSize (left ++ right) =
      if right.any commits then commitSize right else commitSize left := by
  rw [commitSize, foldl_append, commitSize_foldl]
  rfl

theorem commitSize_committed : commitSize (committedFrames frames) = commitSize frames := by
  have parts := committed_append_uncommitted commits frames
  have tail := commitSize_append (committedFrames frames) (uncommittedFrames frames)
  have unclosed : (uncommittedFrames frames).any commits = false :=
    uncommitted_unclosed commits frames
  rw [unclosed, committedFrames, uncommittedFrames, parts] at tail
  simpa [committedFrames] using tail.symm

theorem frameWrites_append : frameWrites (left ++ right) = frameWrites left ++ frameWrites right := by
  simp [frameWrites, effects]

/-- Frames at the start of the log whose salts and cumulative checksums are right. -/
def ValidRun (hdr : WalHeader) (log : Bytes) (frames : List WalFrame) : Prop :=
  (∀ frame ∈ frames, frame.Sized hdr) ∧
    encodeFrames hdr hdr.headerChecksum frames <+: log.drop headerLen

theorem walFrames_longest (hdr : WalHeader) (log : Bytes) : ValidRun hdr log (walFrames hdr log) ∧
    ∀ frames, ValidRun hdr log frames → frames <+: walFrames hdr log := by
  refine ⟨⟨walFrames_sized hdr log, _, (framesFrom_split hdr _ _).symm⟩, ?_⟩
  rintro frames ⟨sized, rest, split⟩
  rw [walFrames, ← split, framesFrom_encode_append hdr _ frames rest sized]
  exact prefix_append _ _

theorem exists_last_commit : frames.any commits = false ∨
    ∃ before last after, frames = before ++ last :: after ∧ last.commits = true ∧
      after.any commits = false := by
  induction frames with
  | nil => exact .inl rfl
  | cons frame rest ih =>
    rcases ih with unclosed | ⟨before, last, after, rfl, closing, unclosed⟩
    · cases closing : frame.commits with
      | false => exact .inl (by simp [closing, unclosed])
      | true => exact .inr ⟨[], frame, rest, rfl, closing, unclosed⟩
    · exact .inr ⟨frame :: before, last, after, rfl, closing, unclosed⟩

/-- The undone scan reads the snapshot at the last commit frame of the longest valid run. -/
theorem committed_pages_of_longest_run (hdr : WalHeader) (log : Bytes) :
    ∃ frames, ValidRun hdr log frames ∧ (∀ run, ValidRun hdr log run → run <+: frames) ∧
      ((∀ frame ∈ frames, frame.dbSize = 0) ∧ committedPages hdr log = (OrderedMap.empty, 0) ∨
        ∃ before last after, frames = before ++ last :: after ∧ last.dbSize ≠ 0 ∧
          (∀ frame ∈ after, frame.dbSize = 0) ∧ (committedPages hdr log).2 = last.dbSize ∧
          ∀ page, (committedPages hdr log).1.get page =
            OrderedMap.lastWrite page (frameWrites (before ++ [last]))) := by
  obtain ⟨valid, longest⟩ := walFrames_longest hdr log
  refine ⟨walFrames hdr log, valid, longest, ?_⟩
  rw [committedPages_frames, committedFrames]
  rcases exists_last_commit (walFrames hdr log) with
    unclosed | ⟨before, last, after, split, closing, unclosed⟩
  · have size := commitSize_append [] (walFrames hdr log)
    rw [unclosed] at size
    rw [committed_eq_nil _ _ unclosed]
    exact .inl ⟨by simpa [commits] using unclosed, congrArg _ size⟩
  -- The scan has undone what follows the last commit frame.
  rw [append_cons] at split
  have size : commitSize (walFrames hdr log) = last.dbSize := by
    rw [split, commitSize, foldl_append, commitSize_foldl, unclosed]
    simp [closing]
  rw [size, split, committed_append_unclosed _ _ _ unclosed,
    committed_concat _ _ _ closing]
  exact .inr ⟨before, last, after, by simp, by simpa [commits] using closing,
    by simpa [commits] using unclosed, rfl, by simp⟩

end Commits

end SqliteRs
