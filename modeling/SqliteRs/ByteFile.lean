import Mathlib

/-!
Files as byte strings with positioned reads and writes. A write past the end
fills the gap with zero bytes, an empty write changes nothing, and a read past
the end is short. Two files are compared byte by byte, so every law below is
about one index.
Of a write that was not synced a crash may leave any bytes, of a truncation any length.
-/

namespace SqliteRs

open List

abbrev Bytes := List UInt8

instance instLinearOrderUInt32 : LinearOrder UInt32 where
  le_refl value := UInt32.le_refl value
  le_trans _ _ _ := UInt32.le_trans
  le_antisymm _ _ := UInt32.le_antisymm
  le_total := UInt32.le_total
  lt_iff_le_not_ge left right := by
    simp only [UInt32.lt_iff_toNat_lt, UInt32.le_iff_toNat_le]
    omega
  toDecidableLE := inferInstance
  toDecidableLT := inferInstance
  toDecidableEq := inferInstance

namespace ByteFile

def zeros (count : Nat) : Bytes := List.replicate count 0

def readAt (file : Bytes) (offset length : Nat) : Bytes := (file.drop offset).take length

def writeAt (file : Bytes) (offset : Nat) (data : Bytes) : Bytes :=
  if data.isEmpty then file
  else
    file.take offset ++ zeros (offset - file.length) ++ data ++ file.drop (offset + data.length)

def truncate (file : Bytes) (length : Nat) : Bytes :=
  file.take length ++ zeros (length - file.length)

@[simp] theorem length_zeros (count : Nat) : (zeros count).length = count := by
  simp [zeros]

section

variable (file : Bytes)

include file

theorem length_readAt (off length : Nat) :
    (readAt file off length).length = min length (file.length - off) := by
  simp [readAt]

theorem length_readAt_of_le (off length : Nat)
    (inside : off + length ≤ file.length) : (readAt file off length).length = length := by
  rw [length_readAt]
  omega

theorem getElem?_readAt (off length index : Nat) :
    (readAt file off length)[index]? =
      if index < length then file[off + index]? else none := by
  simp [readAt, List.getElem?_take, List.getElem?_drop]

@[simp] theorem writeAt_nil (off : Nat) : writeAt file off [] = file := rfl

section

variable (off : Nat) (data : Bytes)

include off data

theorem length_writeAt (written : data ≠ []) :
    (writeAt file off data).length = max file.length (off + data.length) := by
  simp only [writeAt, List.isEmpty_iff, written, if_false, length_append, length_take,
    length_zeros, length_drop]
  omega

theorem le_length_writeAt : file.length ≤ (writeAt file off data).length := by
  by_cases written : data = []
  · simp [written]
  · rw [length_writeAt file off data written]
    exact Nat.le_max_left _ _

variable (index : Nat)

theorem getElem?_writeAt :
    (writeAt file off data)[index]? = if off ≤ index ∧ index < off + data.length then data[index - off]?
      else if index < off ∧ file.length ≤ index ∧ data ≠ [] then some 0
      else file[index]? := by
  by_cases written : data = []
  · have outside : ¬ (off ≤ index ∧ index < off + ([] : Bytes).length) := by simp
    simp [written, writeAt_nil, ne_eq, not_true_eq_false, and_false]
  · simp only [writeAt, List.isEmpty_iff, written, if_false, List.getElem?_append, zeros]
    grind

theorem getElem?_writeAt_inside (inside : off ≤ index ∧ index < off + data.length) :
    (writeAt file off data)[index]? = data[index - off]? := by
  rw [getElem?_writeAt, if_pos inside]

theorem getElem?_writeAt_outside
    (known : index < file.length) (outside : ¬ (off ≤ index ∧ index < off + data.length)) :
    (writeAt file off data)[index]? = file[index]? := by
  have noGap : ¬ (index < off ∧ file.length ≤ index ∧ data ≠ []) := by omega
  rw [getElem?_writeAt, if_neg outside, if_neg noGap]

end

theorem length_truncate (length : Nat) : (truncate file length).length = length := by
  simp only [truncate, length_append, length_take, length_zeros]
  omega

theorem getElem?_truncate (length index : Nat) :
    (truncate file length)[index]? =
      if index < length then (if index < file.length then file[index]? else some 0) else none := by
  simp only [truncate, zeros]
  grind

theorem readAt_writeAt_same (off : Nat) (data : Bytes) :
    readAt (writeAt file off data) off data.length = data := by
  apply ext_getElem?
  intro index
  rw [getElem?_readAt]
  by_cases inside : index < data.length
  · rw [if_pos inside, getElem?_writeAt_inside _ _ _ _ (by omega)]
    congr 1
    omega
  · rw [if_neg inside, List.getElem?_eq_none (by omega)]

theorem readAt_writeAt_disjoint (off : Nat) (data : Bytes) (start length : Nat)
    (known : start + length ≤ file.length) (apart : start + length ≤ off ∨ off + data.length ≤ start) :
    readAt (writeAt file off data) start length = readAt file start length := by
  apply ext_getElem?
  intro index
  simp only [getElem?_readAt]
  by_cases inside : index < length
  · rw [if_pos inside, if_pos inside, getElem?_writeAt_outside _ _ _ _ (by omega) (by omega)]
  · rw [if_neg inside, if_neg inside]

theorem writeAt_eq_append (off : Nat) (data : Bytes) (known : off ≤ file.length) :
    writeAt file off data = file.take off ++ (data ++ file.drop (off + data.length)) := by
  by_cases written : data = []
  · simp [written]
  · have noGap : off - file.length = 0 := by omega
    simp [writeAt, written, noGap, zeros]

end

theorem getElem?_eq_of_readAt {left right : Bytes} {off length index : Nat}
    (same : readAt left off length = readAt right off length) (low : off ≤ index)
    (high : index < off + length) : left[index]? = right[index]? := by
  have atIndex := congrArg (fun bytes : Bytes => bytes[index - off]?) same
  simp only [getElem?_readAt] at atIndex
  rw [if_pos (by omega), if_pos (by omega), Nat.add_sub_cancel' low] at atIndex
  exact atIndex

theorem readAt_truncate (file : Bytes) (length off count : Nat)
    (inside : off + count ≤ length) (long : length ≤ file.length) :
    readAt (truncate file length) off count = readAt file off count := by
  apply ext_getElem?
  intro index
  rw [getElem?_readAt, getElem?_readAt]
  split
  · rw [getElem?_truncate, if_pos (by omega)]
    exact if_pos (by omega)
  · rfl

@[simp] theorem readAt_zero_length (file : Bytes) : readAt file 0 file.length = file := by
  simp [readAt]

/-! Four-byte words. -/

section Words

def be32Bytes (value : UInt32) : Bytes :=
  [UInt8.ofNat (value.toNat / 2 ^ 24), UInt8.ofNat (value.toNat / 2 ^ 16),
    UInt8.ofNat (value.toNat / 2 ^ 8), UInt8.ofNat value.toNat]

def be32 : Bytes → UInt32
  | [first, second, third, fourth] =>
    UInt32.ofNat (first.toNat * 2 ^ 24 + second.toNat * 2 ^ 16 + third.toNat * 2 ^ 8 + fourth.toNat)
  | _ => 0

def le32Bytes (value : UInt32) : Bytes := (be32Bytes value).reverse

def le32 (bytes : Bytes) : UInt32 := be32 bytes.reverse

variable (bytes : Bytes) (kept : Nat) (left right : Bytes) (value : UInt32)

@[simp] theorem length_be32Bytes : (be32Bytes value).length = 4 := rfl

@[simp] theorem be32_be32Bytes : be32 (be32Bytes value) = value := by
  have bound : value.toNat < 2 ^ 32 := value.toNat_lt
  apply UInt32.toNat_inj.mp
  simp only [be32Bytes, be32, UInt8.toNat_ofNat', UInt32.toNat_ofNat']
  omega

theorem be32Bytes_be32 (four : bytes.length = 4) : be32Bytes (be32 bytes) = bytes := by
  match bytes, four with
  | [first, second, third, fourth], _ =>
    have firstBound := first.toNat_lt
    have secondBound := second.toNat_lt
    have thirdBound := third.toNat_lt
    have fourthBound := fourth.toNat_lt
    simp only [be32, be32Bytes, UInt32.toNat_ofNat', List.cons.injEq, and_true]
    refine ⟨?_, ?_, ?_, ?_⟩ <;>
      (apply UInt8.toNat_inj.mp; simp only [UInt8.toNat_ofNat']; omega)

theorem be32Bytes_ne_nil : be32Bytes value ≠ [] := by simp [be32Bytes]

theorem readAt_drop (start off length : Nat) :
    readAt (bytes.drop start) off length = readAt bytes (start + off) length := by
  simp [readAt, drop_drop]

theorem readAt_take (off length : Nat) (inside : off + length ≤ kept) :
    readAt (bytes.take kept) off length = readAt bytes off length := by
  simp only [readAt, drop_take, take_take]
  congr 1
  omega

theorem readAt_front (off length : Nat) (inside : off + length ≤ kept) :
    readAt (readAt bytes 0 kept) off length = readAt bytes off length :=
  readAt_take bytes kept off length inside

theorem readAt_append_left (off length : Nat) (inside : off + length ≤ left.length) :
    readAt (left ++ right) off length = readAt left off length := by
  apply ext_getElem?
  intro index
  simp only [getElem?_readAt]
  by_cases short : index < length
  · rw [if_pos short, if_pos short, List.getElem?_append_left (by omega)]
  · rw [if_neg short, if_neg short]

theorem readAt_append_right (off length : Nat) (after : left.length ≤ off) :
    readAt (left ++ right) off length = readAt right (off - left.length) length := by
  apply ext_getElem?
  intro index
  simp only [getElem?_readAt]
  by_cases short : index < length
  · rw [if_pos short, if_pos short, List.getElem?_append_right (by omega)]
    congr 1
    omega
  · rw [if_neg short, if_neg short]

theorem readAt_append_next (off length next : Nat) :
    readAt bytes off length ++ readAt bytes (off + length) next = readAt bytes off (length + next) := by
  rw [readAt, readAt, readAt, ← drop_drop, ← take_add]

@[simp] theorem readAt_zero_self (length : Nat) (whole : bytes.length = length) :
    readAt bytes 0 length = bytes := by
  simp [← whole]

def be32At (bytes : Bytes) (offset : Nat) : Option UInt32 :=
  let word := readAt bytes offset 4
  if word.length = 4 then some (be32 word) else none

end Words

end ByteFile

end SqliteRs

namespace SqliteRs.ByteFile

structure TornWrite (file : Bytes) (offset : Nat) (data : Bytes) (image : Bytes) : Prop where
  grows : file.length ≤ image.length
  bounded : image.length ≤ max file.length (offset + data.length)
  bytes : ∀ index, index < image.length →
    (offset ≤ index ∧ index < offset + data.length ∧ image[index]? = data[index - offset]?) ∨
      image[index]? = some (file.getD index 0)

/-- A file at some length on the way to a truncation or extension. -/
structure TornTruncate (file : Bytes) (length : Nat) (image : Bytes) : Prop where
  reached : ∃ between, min file.length length ≤ between ∧ between ≤ max file.length length ∧
    image = truncate file between

theorem getElem?_of_lt_length (file : Bytes) (index : Nat) (inside : index < file.length) :
    file[index]? = some (file.getD index 0) := by
  simp [inside]

theorem TornWrite.refl (file : Bytes) (off : Nat) (data : Bytes) : TornWrite file off data file := by
  refine ⟨Nat.le_refl _, Nat.le_max_left _ _, ?_⟩
  intro index inside
  exact Or.inr (getElem?_of_lt_length file index inside)

theorem tornWrite_whole (file : Bytes) (off : Nat) (data : Bytes) :
    TornWrite file off data (writeAt file off data) := by
  by_cases none : data = []
  · rw [none]
    exact TornWrite.refl file off []
  have length := length_writeAt file off data none
  refine ⟨?_, Nat.le_of_eq length, ?_⟩
  · rw [length]
    exact Nat.le_max_left _ _
  intro index inside
  rw [getElem?_writeAt]
  by_cases covered : off ≤ index ∧ index < off + data.length
  · rw [if_pos covered]
    exact Or.inl ⟨covered.1, covered.2, rfl⟩
  rw [if_neg covered]
  refine Or.inr ?_
  split
  · rename_i gap
    rw [List.getD_eq_getElem?_getD, List.getElem?_eq_none gap.2.1]
    rfl
  rename_i solid
  have known : index < file.length := by
    by_contra beyond
    have low : index < off := by omega
    exact solid ⟨low, Nat.not_lt.mp beyond, none⟩
  exact getElem?_of_lt_length file index known

theorem TornWrite.outside {file : Bytes} {off : Nat} {data image : Bytes}
    (torn : TornWrite file off data image) (index : Nat) (known : index < file.length)
    (apart : ¬ (off ≤ index ∧ index < off + data.length)) : image[index]? = file[index]? := by
  rcases torn.bytes index (Nat.lt_of_lt_of_le known torn.grows) with ⟨low, high, _⟩ | same
  · exact absurd ⟨low, high⟩ apart
  · rw [same, getElem?_of_lt_length file index known]

theorem tornTruncate_whole (file : Bytes) (length : Nat) :
    TornTruncate file length (truncate file length) :=
  ⟨length, Nat.min_le_right _ _, Nat.le_max_right _ _, rfl⟩

/-- A file that still agrees with a reference outside a cover, and is at least as long. -/
structure AgreesOutside (cover : Nat → Prop) (reference file : Bytes) : Prop where
  long : reference.length ≤ file.length
  bytes : ∀ index, index < reference.length → ¬ cover index → file[index]? = reference[index]?

namespace AgreesOutside

variable {cover : Nat → Prop} {reference file : Bytes}

theorem refl (reference : Bytes) : AgreesOutside cover reference reference :=
  ⟨Nat.le_refl _, fun _ _ _ => rfl⟩

theorem tornWrite {off : Nat} {data image : Bytes} (agrees : AgreesOutside cover reference file)
    (torn : TornWrite file off data image)
    (covered : ∀ index, index < reference.length → off ≤ index → index < off + data.length →
      cover index) : AgreesOutside cover reference image := by
  refine ⟨Nat.le_trans agrees.long torn.grows, ?_⟩
  intro index inside uncovered
  rw [← agrees.bytes index inside uncovered]
  apply torn.outside index (Nat.lt_of_lt_of_le inside agrees.long)
  rintro ⟨low, high⟩
  exact uncovered (covered index inside low high)

theorem tornTruncate {length : Nat} {image : Bytes} (agrees : AgreesOutside cover reference file)
    (torn : TornTruncate file length image) (enough : reference.length ≤ length) :
    AgreesOutside cover reference image := by
  obtain ⟨between, low, high, rfl⟩ := torn.reached
  have long := agrees.long
  refine ⟨?_, ?_⟩
  · rw [length_truncate]
    omega
  intro index inside uncovered
  have kept : index < between := by omega
  have known : index < file.length := by omega
  rw [getElem?_truncate, if_pos kept, if_pos known]
  exact agrees.bytes index inside uncovered

end AgreesOutside

end SqliteRs.ByteFile
