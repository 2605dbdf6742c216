import SqliteRs.BtreePages
import SqliteRs.SqlValue

/-!
Variable-length integers and the record format. An integer is written in groups
of seven bits, the highest first, with a flag on all but the last; a ninth byte
holds eight bits. A record is a header, which is its own length and a serial
type for each column, and then the bodies of the columns.
-/

namespace SqliteRs

open List

variable {values others : List Value}

inductive RecordError where
  | unexpectedEof (offset : Nat)
  | headerTooShort (declared varintLen : Nat)
  | headerOverrun (offset headerLen : Nat)
  | trailingData (trailing : Nat)
  | invalidUtf8
  | invalidUtf16

theorem bind_ok_iff {Error First Second : Type} {act : Except Error First}
    {next : First → Except Error Second} {res : Second} :
    (act >>= next) = .ok res ↔ ∃ value, act = .ok value ∧ next value = .ok res := by
  cases act <;> simp [bind, Except.bind]

def varintFrom (result index : Nat) : Bytes → Except RecordError (Nat × Nat)
  | [] => .error (.unexpectedEof index)
  | byte :: rest =>
    if index = 8 then .ok (result * 256 + byte.toNat, 9)
    else if byte.toNat < 128 then .ok (result * 128 + byte.toNat, index + 1)
    else varintFrom (result * 128 + byte.toNat % 128) (index + 1) rest

def decodeVarint : Bytes → Except RecordError (Nat × Nat) := varintFrom 0 0

def flaggedGroups (value : Nat) : Nat → Bytes
  | 0 => []
  | groups + 1 => flaggedGroups (value / 128) groups ++ [.ofNat (value % 128 + 128)]

def encodeVarint (value : Nat) : Bytes :=
  if value < 2 ^ 56 then
    flaggedGroups (value / 128) (varintLen value - 1) ++ [.ofNat (value % 128)]
  else flaggedGroups (value / 256) 8 ++ [.ofNat (value % 256)]

theorem varintLen_of_large {value : Nat} (large : ¬ value < 2 ^ 56) : varintLen value = 9 := by
  unfold varintLen
  split_ifs <;> first | rfl | omega

theorem encodeVarint_length (value : Nat) : (encodeVarint value).length = varintLen value := by
  have flagged (groups value : Nat) : (flaggedGroups value groups).length = groups := by
    induction groups generalizing value with
    | zero => rfl
    | succ groups ih => rw [flaggedGroups, length_append, ih, length_singleton]
  unfold encodeVarint
  split
  · rw [length_append, flagged]
    exact Nat.sub_add_cancel (varintLen_pos value)
  · rename_i large
    rw [length_append, flagged, varintLen_of_large large, length_singleton]

theorem varintFrom_flagged (groups : Nat) {value result index : Nat} (rest : Bytes)
    (bound : index + groups ≤ 8) : varintFrom result index (flaggedGroups value groups ++ rest) =
      varintFrom (result * 128 ^ groups + value % 128 ^ groups) (index + groups) rest := by
  induction groups generalizing value rest with
  | zero => simp [flaggedGroups, Nat.mod_one]
  | succ groups ih =>
    have more : 128 ^ (groups + 1) = 128 * 128 ^ groups := Nat.pow_succ'
    rw [flaggedGroups, append_assoc, ih _ (by omega), singleton_append, varintFrom,
      if_neg (by omega), UInt8.toNat_ofNat', if_neg (by omega), more, Nat.mod_mul]
    congr 1
    rw [show (value % 128 + 128) % 2 ^ 8 % 128 = value % 128 by omega]
    ring

theorem varintFrom_spec (buf : Bytes) {result index : Nat} (small : result < 2 ^ (7 * index))
    (bound : index ≤ 8) : (∃ offset, varintFrom result index buf = .error (.unexpectedEof offset)) ∨
      ∃ value len, varintFrom result index buf = .ok (value, len) ∧ 0 < len ∧ len ≤ 9 ∧
        len ≤ index + buf.length ∧ (len < 9 → value < 2 ^ (7 * len)) := by
  induction buf generalizing result index with
  | nil => exact .inl ⟨index, rfl⟩
  | cons byte rest ih =>
    have room : 2 ^ (7 * (index + 1)) = 2 ^ (7 * index) * 128 := by rw [Nat.mul_succ, Nat.pow_add]
    rw [varintFrom, length_cons]
    split
    · exact .inr ⟨_, _, rfl, by omega, le_refl _, by omega, by omega⟩
    split
    · exact .inr ⟨_, _, rfl, by omega, by omega, by omega, fun _ => by omega⟩
    · rw [← Nat.add_assoc, Nat.add_right_comm]
      exact ih (by omega) (by omega)

theorem varintLen_le_of_lt {value len : Nat} (positive : 0 < len)
    (small : len < 9 → value < 2 ^ (7 * len)) : varintLen value ≤ len := by
  by_cases long : 9 ≤ len
  · exact (varintLen_le value).trans long
  have fits := small (by omega)
  have eight : len ≤ 8 := by omega
  unfold varintLen
  interval_cases len <;> split_ifs <;> omega

theorem lt_of_varintLen {value : Nat} (short : varintLen value < 9) :
    value < 2 ^ (7 * varintLen value) := by
  unfold varintLen at short ⊢
  split_ifs at short ⊢ <;> omega

theorem decodeVarint_encodeVarint {value : Nat} (bound : value < 2 ^ 64) (rest : Bytes) :
    decodeVarint (encodeVarint value ++ rest) = .ok (value, varintLen value) := by
  unfold encodeVarint decodeVarint
  split
  · rename_i small
    have short : varintLen value < 9 := by
      unfold varintLen
      split_ifs <;> omega
    have fits := lt_of_varintLen short
    obtain ⟨groups, len⟩ := Nat.exists_eq_succ_of_ne_zero (varintLen_pos value).ne'
    rw [len] at fits short ⊢
    have high : value / 128 < 128 ^ groups := by
      rw [Nat.div_lt_iff_lt_mul (by decide), ← Nat.pow_succ, show 128 = 2 ^ 7 from rfl, ← Nat.pow_mul]
      exact fits
    rw [append_assoc, Nat.succ_sub_one, varintFrom_flagged _ _ (by omega), Nat.mod_eq_of_lt high,
      singleton_append, varintFrom, if_neg (by omega), UInt8.toNat_ofNat', if_pos (by omega)]
    congr 2 <;> omega
  · rename_i large
    rw [append_assoc, varintFrom_flagged _ _ (by decide), varintLen_of_large large]
    simp [varintFrom]
    omega

theorem varint_codec_exact (value : UInt64) :
    let code := encodeVarint value.toNat
    1 ≤ code.length ∧ code.length ≤ 9 ∧ code.length = varintLen value.toNat ∧
    (∀ rest, decodeVarint (code ++ rest) = .ok (value.toNat, code.length)) ∧
    (∀ buf len, decodeVarint buf = .ok (value.toNat, len) → code.length ≤ len) ∧
    ∀ buf, (∃ offset, decodeVarint buf = .error (.unexpectedEof offset)) ∨
      ∃ read len, decodeVarint buf = .ok (read, len) ∧ len ≤ 9 ∧ len ≤ buf.length := by
  have spec (buf : Bytes) := @varintFrom_spec buf 0 0 (by decide) (by decide)
  simp only [encodeVarint_length]
  refine ⟨varintLen_pos _, varintLen_le _, trivial, decodeVarint_encodeVarint value.toNat_lt,
    fun buf len done => ?_, fun buf => ?_⟩
  · rcases spec buf with ⟨_, failed⟩ | ⟨read, _, ok, positive, _, _, fits⟩
    · cases failed.symm.trans done
    · cases ok.symm.trans done
      exact varintLen_le_of_lt positive fits
  · rcases spec buf with failed | ⟨read, len, ok, _, high, inside, _⟩
    · exact .inl failed
    · exact .inr ⟨read, len, ok, high, by omega⟩

/-- The bit pattern of a number. -/
def Binary64.toBits : Binary64 → Nat
  | .nan => 0x7FF8000000000000
  | .posInf => 0x7FF0000000000000
  | .negInf => 0xFFF0000000000000
  | .negZero => 2 ^ 63
  | .finite value =>
    let exponent := max (floorLog2 value - 52) (-1074)
    let fraction := inUnits 2 exponent value
    let magnitude := (exponent + 1074).toNat * 2 ^ 52 + fraction.1 / fraction.2
    if value = 0 then 0 else if value < 0 then 2 ^ 63 + magnitude else magnitude

inductive TextEncoding where
  | utf8
  | utf16Le
  | utf16Be

def encodeUtf16 (chars : List Char) : List UInt16 := chars.flatMap fun char =>
  if char.toNat < 0x10000 then [.ofNat char.toNat]
  else [.ofNat (0xD800 + (char.toNat - 0x10000) / 0x400), .ofNat (0xDC00 + char.toNat % 0x400)]

def encodedTextLen (chars : List Char) : TextEncoding → Nat
  | .utf8 => (chars.flatMap String.utf8EncodeChar).length
  | .utf16Le | .utf16Be => 2 * (encodeUtf16 chars).length

def textBody (chars : List Char) : TextEncoding → Bytes
  | .utf8 => chars.flatMap String.utf8EncodeChar
  | .utf16Le => (encodeUtf16 chars).flatMap fun unit : UInt16 => [unit.toUInt8, (unit >>> 8).toUInt8]
  | .utf16Be => (encodeUtf16 chars).flatMap fun unit : UInt16 => [(unit >>> 8).toUInt8, unit.toUInt8]

/-- The lowest bytes of a number in two's complement, the highest of them first. -/
def beBytes (number : Int) : Nat → Bytes
  | 0 => []
  | left + 1 => .ofNat (number / 256 ^ left % 256).toNat :: beBytes number left

def integerSerialType (number : Int) : Nat :=
  if number = 0 then 8
  else if number = 1 then 9
  else if -2 ^ 7 ≤ number ∧ number < 2 ^ 7 then 1
  else if -2 ^ 15 ≤ number ∧ number < 2 ^ 15 then 2
  else if -2 ^ 23 ≤ number ∧ number < 2 ^ 23 then 3
  else if -2 ^ 31 ≤ number ∧ number < 2 ^ 31 then 4
  else if -2 ^ 47 ≤ number ∧ number < 2 ^ 47 then 5
  else 6

def integerBody (number : Int) : Nat → Bytes
  | 1 => beBytes number 1
  | 2 => beBytes number 2
  | 3 => beBytes number 3
  | 4 => beBytes number 4
  | 5 => beBytes number 6
  | 6 => beBytes number 8
  | _ => []

def serialTypeLen : Nat → Nat
  | 0 | 8 | 9 | 10 | 11 => 0
  | 1 => 1
  | 2 => 2
  | 3 => 3
  | 4 => 4
  | 5 => 6
  | 6 | 7 => 8
  | number => if number % 2 = 0 then (number - 12) / 2 else (number - 13) / 2

def serialType (encoding : TextEncoding) : Value → Nat
  | .null => 0
  | .integer number => integerSerialType number
  | .real _ => 7
  | .blob bytes => 12 + 2 * bytes.length
  | .text chars => 13 + 2 * encodedTextLen chars encoding

def bodyBytes (encoding : TextEncoding) (serialType : Nat) : Value → Bytes
  | .null => []
  | .integer number => integerBody number serialType
  | .real number => beBytes number.toBits 8
  | .blob bytes => bytes
  | .text chars => textBody chars encoding

/-- Adds one to a declared length until it counts its own varint. -/
def growHeader (rest : Nat) : Nat → Nat → Option Nat
  | 0, _ => none
  | fuel + 1, len => if varintLen len + rest = len then some len else growHeader rest fuel (len + 1)

def encodeRecordInto (fuel : Nat) (encoding : TextEncoding) (values : List Value) : Option Bytes :=
  let types := values.map (serialType encoding)
  let rest := (types.map varintLen).sum
  (growHeader rest fuel (rest + 1)).map fun headerLen =>
    encodeVarint headerLen ++ types.flatMap encodeVarint ++
      values.flatMap fun value => bodyBytes encoding (serialType encoding value) value

section Decode

def beNat (bytes : Bytes) : Nat := bytes.foldl (fun number byte => number * 256 + byte.toNat) 0

def beInt (bytes : Bytes) : Int :=
  if 2 * beNat bytes < 256 ^ bytes.length then beNat bytes
  else (beNat bytes : Int) - 256 ^ bytes.length

def Binary64.ofBits (bits : Nat) : Binary64 :=
  let exponent : Nat := bits / 2 ^ 52 % 2 ^ 11
  let fraction : Nat := bits % 2 ^ 52
  if exponent = 2047 then
    if fraction ≠ 0 then .nan else if 2 ^ 63 ≤ bits then .negInf else .posInf
  else
    let magnitude : Rat := if exponent = 0 then fraction * 2 ^ (-1074 : Int)
      else (2 ^ 52 + fraction) * 2 ^ ((exponent : Int) - 1075)
    if 2 ^ 63 ≤ bits then if magnitude = 0 then .negZero else .finite (-magnitude)
    else .finite magnitude

def utf16Units (unit : UInt8 → UInt8 → Nat) : Bytes → Option (List Nat)
  | [] => some []
  | [_] => none
  | first :: second :: rest => (utf16Units unit rest).map (unit first second :: ·)

/-- A unit of a surrogate pair is refused unless the other one stands beside it. -/
def decodeUtf16 : List Nat → Option (List Char)
  | [] => some []
  | [unit] => if unit < 0xD800 ∨ 0xDFFF < unit then some [.ofNat unit] else none
  | unit :: low :: rest =>
    if unit < 0xD800 ∨ 0xDFFF < unit then (decodeUtf16 (low :: rest)).map (.ofNat unit :: ·)
    else if unit < 0xDC00 ∧ 0xDC00 ≤ low ∧ low ≤ 0xDFFF then
      (decodeUtf16 rest).map
        (.ofNat (0x10000 + (unit - 0xD800) * 0x400 + (low - 0xDC00)) :: ·)
    else none

def decodeText (bytes : Bytes) : TextEncoding → Except RecordError (List Char)
  | .utf8 => ((ByteArray.mk bytes.toArray).utf8Decode?.map Array.toList).elim (.error .invalidUtf8) .ok
  | .utf16Le => ((utf16Units (fun low high => high.toNat * 256 + low.toNat) bytes).bind
      decodeUtf16).elim (.error .invalidUtf16) .ok
  | .utf16Be => ((utf16Units (fun high low => high.toNat * 256 + low.toNat) bytes).bind
      decodeUtf16).elim (.error .invalidUtf16) .ok

def decodeVarintAt (buf : Bytes) (pos : Nat) : Except RecordError (Nat × Nat) :=
  if buf.length < pos then .error (.unexpectedEof pos)
  else (decodeVarint (buf.drop pos)).mapError fun
    | .unexpectedEof offset => .unexpectedEof (pos + offset)
    | other => other

def takeBytes (buf : Bytes) (pos len : Nat) : Except RecordError Bytes :=
  if pos + len ≤ buf.length then .ok ((buf.drop pos).take len) else .error (.unexpectedEof pos)

def decodeSerialValue (serialType : Nat) (buf : Bytes) (pos : Nat) (encoding : TextEncoding) :
    Except RecordError (Value × Nat) :=
  let body := takeBytes buf pos (serialTypeLen serialType)
  let value : Except RecordError Value := match serialType with
    | 0 | 10 | 11 => .ok .null
    | 8 => .ok (.integer 0)
    | 9 => .ok (.integer 1)
    | 1 | 2 | 3 | 4 | 5 | 6 => body.map fun bytes => .integer (beInt bytes)
    | 7 => body.map fun bytes => match Binary64.ofBits (beNat bytes) with
      | .nan => .null
      | number => .real number
    | number => if number % 2 = 0 then body.map .blob else do
        let chars ← decodeText (← body) encoding
        return .text chars
  value.map (·, serialTypeLen serialType)

/-- A serial type takes at least one byte, so there are no more of them than bytes. -/
def decodeTypes (payload : Bytes) (headerLen : Nat) : Nat → Nat → Except RecordError (List Nat)
  | 0, _ => .ok []
  | fuel + 1, pos =>
    if pos < headerLen then do
      let (serialType, len) ← decodeVarintAt payload pos
      if headerLen < pos + len then .error (.headerOverrun pos headerLen)
      else return serialType :: (← decodeTypes payload headerLen fuel (pos + len))
    else .ok []

def decodeBodies (payload : Bytes) (encoding : TextEncoding) :
    List Nat → Nat → Except RecordError (List Value × Nat)
  | [], pos => .ok ([], pos)
  | serialType :: rest, pos => do
      let (value, len) ← decodeSerialValue serialType payload pos encoding
      let (values, last) ← decodeBodies payload encoding rest (pos + len)
      return (value :: values, last)

def decodeRecord (payload : Bytes) (encoding : TextEncoding) : Except RecordError (List Value) := do
  let (headerLen, len) ← decodeVarintAt payload 0
  if headerLen < len then .error (.headerTooShort headerLen len)
  else
    let types ← decodeTypes payload headerLen (payload.length + 1) len
    let (values, last) ← decodeBodies payload encoding types headerLen
    if last ≠ payload.length then .error (.trailingData (payload.length - last)) else return values

example : (encodeRecordInto 2 .utf16Le [.integer (-70000), .null, .text ['a', '𝄞'], .blob [1, 2]]).map
    (fun record => (decodeRecord record .utf16Le).toOption) =
      some (some [.integer (-70000), .null, .text ['a', '𝄞'], .blob [1, 2]]) := by decide

end Decode

theorem growHeader_some {rest : Nat} (fuel : Nat) {start : Nat}
    (low : start ≤ varintLen (rest + start)) (enough : 10 ≤ fuel + start) :
    ∃ len, growHeader rest fuel (rest + start) = some len ∧ varintLen len + rest = len := by
  induction fuel generalizing start with
  | zero =>
    have := varintLen_le (rest + start)
    omega
  | succ fuel ih =>
    unfold growHeader
    split
    · rename_i done
      exact ⟨_, rfl, done⟩
    · have grown : varintLen (rest + start) ≤ varintLen (rest + (start + 1)) :=
        varintLen_le_of_lt (varintLen_pos _) fun short => by
          have := lt_of_varintLen short
          omega
      exact @ih (start + 1) (by omega) (by omega)

theorem bodyBytes_length (encoding : TextEncoding) (value : Value) :
    (bodyBytes encoding (serialType encoding value) value).length =
      serialTypeLen (serialType encoding value) := by
  have long {number : Nat} (long : 12 ≤ number) : serialTypeLen number = (number - 12) / 2 := by
    unfold serialTypeLen
    split
    all_goals try omega
    split <;> omega
  cases value with
  | null | real => rfl
  | integer number =>
    simp only [serialType, bodyBytes, integerSerialType]
    split_ifs <;> rfl
  | blob bytes =>
    rw [serialType, bodyBytes, long (by omega)]
    omega
  | text chars =>
    rw [serialType, bodyBytes, long (by omega)]
    cases encoding <;> simp [textBody, encodedTextLen, length_flatMap] <;> omega

theorem encoded_header_counts_itself (fuel : Nat) (encoding : TextEncoding) (values : List Value) :
    let types := values.map (serialType encoding)
    ∃ (headerLen : Nat) (bodies : List Bytes), encodeRecordInto (fuel + 9) encoding values =
        some (encodeVarint headerLen ++ types.flatMap encodeVarint ++ bodies.flatten) ∧
      headerLen = (encodeVarint headerLen ++ types.flatMap encodeVarint).length ∧
      (headerLen < 2 ^ 64 → ∀ rest, decodeVarint (encodeVarint headerLen ++ rest) =
        .ok (headerLen, varintLen headerLen)) ∧
      bodies.map length = types.map serialTypeLen := by
  intro types
  obtain ⟨headerLen, grown, counted⟩ :=
    @growHeader_some (types.map varintLen).sum (fuel + 9) 1 (varintLen_pos _) (by omega)
  refine ⟨headerLen, values.map fun value => bodyBytes encoding (serialType encoding value) value,
    ?_, ?_, decodeVarint_encodeVarint, ?_⟩
  · rw [encodeRecordInto, grown]
    rfl
  · simp only [length_append, length_flatMap, encodeVarint_length]
    exact counted.symm
  · simp [types, bodyBytes_length]

theorem beBytes_inj {number other : Int} {len : Nat} (same : beBytes number len = beBytes other len) :
    number % 256 ^ len = other % 256 ^ len := by
  have split (number : Int) (len : Nat) : number % 256 ^ (len + 1) =
      number % 256 ^ len + 256 ^ len * (number / 256 ^ len % 256) := by
    rw [Int.pow_succ, Int.emod_def, Int.emod_def, Int.emod_def,
      ← Int.ediv_ediv_of_nonneg (by positivity)]
    ring
  have byte {number other : Int}
      (same : UInt8.ofNat (number % 256).toNat = .ofNat (other % 256).toNat) :
      number % 256 = other % 256 := by
    have := congrArg UInt8.toNat same
    simp only [UInt8.toNat_ofNat'] at this
    omega
  induction len with
  | zero => simp
  | succ len ih =>
    simp only [beBytes, cons.injEq] at same
    rw [split, split, ih same.2, byte same.1]

namespace Binary64

/-- A number that binary64 has: a whole count of its units, of 53 bits unless the units are
the smallest ones. -/
def Exact : Binary64 → Prop
  | .finite value =>
    let exponent := max (floorLog2 value - 52) (-1074)
    let fraction := inUnits 2 exponent value
    let count := fraction.1 / fraction.2
    value = 0 ∨ fraction.2 ∣ fraction.1 ∧ 0 < count ∧ count < 2 ^ 53 ∧ exponent ≤ 971 ∧
      (exponent = -1074 ∨ 2 ^ 52 ≤ count)
  | _ => True

/-- The unit and the count that the bits of a number stand for. -/
structure Counts (value : Rat) (exponent : Int) (count : Nat) : Prop where
  whole : (inUnits 2 exponent value).1 = (inUnits 2 exponent value).2 * count
  positive : 0 < count
  narrow : count < 2 ^ 53
  low : -1074 ≤ exponent
  high : exponent ≤ 971
  wide : exponent = -1074 ∨ 2 ^ 52 ≤ count
  bits : (finite value).toBits =
    (if value < 0 then 2 ^ 63 else 0) + ((exponent + 1074).toNat * 2 ^ 52 + count)

theorem Exact.counts {value : Rat} (exact : (finite value).Exact) (nonzero : value ≠ 0) :
    ∃ exponent count, Counts value exponent count := by
  obtain ⟨whole, positive, narrow, high, wide⟩ := exact.resolve_left nonzero
  refine ⟨_, _, (Nat.mul_div_cancel' whole).symm, positive, narrow, le_max_right _ _, high, wide, ?_⟩
  simp only [toBits, nonzero, if_false]
  split <;> simp

theorem Counts.inj {value other : Rat} {exponent : Int} {count : Nat} (sign : value < 0 ↔ other < 0)
    (left : Counts value exponent count) (right : Counts other exponent count) : value = other := by
  have crossed : value.num.natAbs * other.den = other.num.natAbs * value.den := by
    have left := left.whole
    have right := right.whole
    cases exponent with
    | ofNat up =>
      simp only [inUnits] at left right
      rw [left, right]
      ring
    | negSucc down =>
      simp only [inUnits] at left right
      apply Nat.eq_of_mul_eq_mul_right (show 0 < 2 ^ (down + 1) by positivity)
      rw [Nat.mul_right_comm, left, Nat.mul_right_comm other.num.natAbs, right]
      ring
  rw [← Rat.num_neg, ← Rat.num_neg] at sign
  have crossed := congrArg (Nat.cast : Nat → Int) crossed
  push_cast at crossed
  rw [Rat.eq_iff_mul_eq_mul]
  rcases Int.lt_or_le value.num 0 with low | high
  · rw [abs_of_neg low, abs_of_neg (sign.mp low)] at crossed
    linarith
  · rw [abs_of_nonneg high, abs_of_nonneg (not_lt.mp (mt sign.mpr (not_lt.mpr high)))] at crossed
    exact crossed

theorem finite_bits {value : Rat} (exact : (finite value).Exact) :
    (finite value).toBits < 0x7FF0000000000000 ∨
      2 ^ 63 < (finite value).toBits ∧ (finite value).toBits < 0xFFF0000000000000 := by
  by_cases zero : value = 0
  · simp [toBits, zero]
  obtain ⟨exponent, count, held⟩ := exact.counts zero
  obtain ⟨-, positive, narrow, -, high, -, bits⟩ := held
  rw [bits]
  split <;> omega

theorem toBits_lt {number : Binary64} (exact : number.Exact) : number.toBits < 2 ^ 64 := by
  cases number with
  | finite value =>
    have := finite_bits exact
    omega
  | _ => decide

theorem toBits_inj {number other : Binary64} (exact : number.Exact) (right : other.Exact)
    (same : number.toBits = other.toBits) : number = other := by
  have zero : (finite 0).toBits = 0 := rfl
  cases number with
  | finite value =>
    cases other with
    | finite next =>
      by_cases none : value = 0 <;> by_cases also : next = 0
      · rw [none, also]
      · obtain ⟨_, _, held⟩ := right.counts also
        have := held.positive
        rw [none, zero, held.bits] at same
        omega
      · obtain ⟨_, _, held⟩ := exact.counts none
        have := held.positive
        rw [also, zero, held.bits] at same
        omega
      obtain ⟨exponent, count, held⟩ := exact.counts none
      obtain ⟨unit, amount, kept⟩ := right.counts also
      have ⟨_, _, narrow, low, high, wide, bits⟩ := held
      have ⟨_, _, slim, above, below, broad, pattern⟩ := kept
      rw [bits, pattern] at same
      have sign : value < 0 ↔ next < 0 := by
        by_cases left : value < 0 <;> by_cases right : next < 0 <;>
          simp only [left, right, if_true, if_false] at same ⊢ <;> omega
      simp only [sign, Nat.add_left_cancel_iff] at same
      obtain rfl : exponent = unit := by omega
      obtain rfl : count = amount := by omega
      rw [held.inj sign kept]
    | _ =>
      have := finite_bits exact
      rw [same] at this
      simp [toBits] at this
  | _ =>
    cases other with
    | finite next =>
      have := finite_bits right
      rw [← same] at this
      simp [toBits] at this
    | _ => first | rfl | simp [toBits] at same

end Binary64


theorem encodeVarint_append_inj {value other : Nat} {rest more : Bytes} (bound : value < 2 ^ 64)
    (limit : other < 2 ^ 64) (same : encodeVarint value ++ rest = encodeVarint other ++ more) :
    value = other ∧ rest = more := by
  have read := decodeVarint_encodeVarint bound rest
  rw [same, decodeVarint_encodeVarint limit more] at read
  cases read
  exact ⟨rfl, append_cancel_left same⟩

theorem varints_append_inj {values others : List Nat} {rest more : Bytes}
    (bound : ∀ value ∈ values, value < 2 ^ 64) (limit : ∀ other ∈ others, other < 2 ^ 64)
    (long : (values.map varintLen).sum = (others.map varintLen).sum)
    (same : values.flatMap encodeVarint ++ rest = others.flatMap encodeVarint ++ more) :
    values = others ∧ rest = more := by
  induction values generalizing others with
  | nil =>
    cases others with
    | nil => exact ⟨rfl, same⟩
    | cons other others =>
      have := varintLen_pos other
      simp only [map_nil, sum_nil, map_cons, sum_cons] at long
      omega
  | cons value values ih =>
    cases others with
    | nil =>
      have := varintLen_pos value
      simp only [map_nil, sum_nil, map_cons, sum_cons] at long
      omega
    | cons other others =>
      rw [flatMap_cons, flatMap_cons, append_assoc, append_assoc] at same
      rw [forall_mem_cons] at bound limit
      obtain ⟨rfl, later⟩ := encodeVarint_append_inj bound.1 limit.1 same
      rw [map_cons, map_cons, sum_cons, sum_cons, Nat.add_left_cancel_iff] at long
      obtain ⟨rfl, left⟩ := ih bound.2 limit.2 long later
      exact ⟨rfl, left⟩

/-- A value as a register holds it: an integer of 64 bits, a number that binary64 has, a text
or blob whose length a serial type can say. -/
def Value.Held : Value → Prop
  | .null => True
  | .integer number => -2 ^ 63 ≤ number ∧ number < 2 ^ 63
  | .real number => number.Exact
  | .blob bytes => bytes.length < 2 ^ 62
  | .text chars => encodedTextLen chars .utf8 < 2 ^ 62

theorem integerSerialType_range (number : Int) :
    0 < integerSerialType number ∧ integerSerialType number < 10 ∧ integerSerialType number ≠ 7 := by
  unfold integerSerialType
  split_ifs <;> decide

theorem serialType_lt {value : Value} (held : value.Held) : serialType .utf8 value < 2 ^ 64 := by
  cases value with
  | null | real => simp [serialType]
  | integer number =>
    have := integerSerialType_range number
    rw [serialType]
    omega
  | blob | text =>
    simp only [Value.Held] at held
    rw [serialType]
    omega

/-- One has a type of its own; other integers fill the bytes that their type says. -/
theorem integerSerialType_spec {number : Int} (held : (Value.integer number).Held) :
    let type := integerSerialType number
    (type = 9 ∧ number = 1) ∨ type ≠ 9 ∧ -256 ^ serialTypeLen type ≤ 2 * number ∧
      2 * number < 256 ^ serialTypeLen type ∧
      (integerBody · type) = (beBytes · (serialTypeLen type)) := by
  by_cases one : number = 1
  · exact .inl ⟨by rw [one]; rfl, one⟩
  simp only [Value.Held] at held
  unfold integerSerialType
  rw [if_neg one]
  split_ifs
  all_goals
    refine .inr ⟨by decide, ?_, ?_, rfl⟩ <;> simp only [serialTypeLen] <;> omega

theorem integerBody_inj {number other : Int} (held : (Value.integer number).Held)
    (kept : (Value.integer other).Held) (type : integerSerialType number = integerSerialType other)
    (same : integerBody number (integerSerialType number) =
      integerBody other (integerSerialType number)) : number = other := by
  have left := integerSerialType_spec held
  have right := integerSerialType_spec kept
  simp only [← type] at left right
  rcases left with ⟨one, rfl⟩ | ⟨more, low, high, bytes⟩
  · exact (right.resolve_right fun other => other.1 one).2.symm
  obtain ⟨-, least, most, -⟩ := right.resolve_left fun other => more other.1
  have wrapped := beBytes_inj ((congrFun bytes number).symm.trans (same.trans (congrFun bytes other)))
  have apart := Int.eq_zero_of_abs_lt_dvd (Int.ModEq.dvd wrapped)
    (abs_lt.mpr ⟨by omega, by omega⟩)
  omega

theorem bodyBytes_inj {value other : Value} (held : value.Held) (kept : other.Held)
    (type : serialType .utf8 value = serialType .utf8 other)
    (same : bodyBytes .utf8 (serialType .utf8 value) value =
      bodyBytes .utf8 (serialType .utf8 value) other) : value = other := by
  cases value <;> cases other
  case null.null => rfl
  case integer.integer => rw [integerBody_inj held kept type same]
  case real.real =>
    have low := Binary64.toBits_lt held
    have high := Binary64.toBits_lt kept
    have wrapped := beBytes_inj same
    rw [Binary64.toBits_inj held kept (by omega)]
  case blob.blob => exact congrArg _ same
  case text.text chars more =>
    have same : chars.utf8Encode = more.utf8Encode := congrArg (toByteArray ·) same
    rw [← String.toByteArray_ofList, ← String.toByteArray_ofList, String.toByteArray_inj] at same
    rw [String.ofList_injective same]
  -- Values of different kinds have different types.
  all_goals
    simp only [serialType] at type
    grind [integerSerialType_range]

theorem bodies_inj (held : ∀ value ∈ values, value.Held)
    (kept : ∀ other ∈ others, other.Held)
    (types : values.map (serialType .utf8) = others.map (serialType .utf8))
    (same : (values.flatMap fun value => bodyBytes .utf8 (serialType .utf8 value) value) =
      others.flatMap fun value => bodyBytes .utf8 (serialType .utf8 value) value) :
    values = others := by
  induction values generalizing others with
  | nil => exact (map_eq_nil_iff.mp types.symm).symm
  | cons value values ih =>
    obtain ⟨other, others, rfl, type, later⟩ := map_eq_cons_iff.mp types.symm
    rw [forall_mem_cons] at held kept
    rw [flatMap_cons, flatMap_cons] at same
    obtain ⟨here, there⟩ := append_inj same (by rw [bodyBytes_length, bodyBytes_length, type])
    rw [type] at here
    rw [bodyBytes_inj held.1 kept.1 type.symm (type ▸ here), ih held.2 kept.2 later.symm there]

/-- Records of values as registers hold them have the same bytes only if the values are the
same. -/
theorem encodeRecordInto_inj (few : values.length < 2 ^ 31)
    (short : others.length < 2 ^ 31) (held : ∀ value ∈ values, value.Held)
    (kept : ∀ other ∈ others, other.Held)
    (same : encodeRecordInto 9 .utf8 values = encodeRecordInto 9 .utf8 others) :
    values = others := by
  have header {values : List Value} (few : values.length < 2 ^ 31) :
      ∃ len, growHeader ((values.map (serialType .utf8)).map varintLen).sum 9
          (((values.map (serialType .utf8)).map varintLen).sum + 1) = some len ∧
        varintLen len + ((values.map (serialType .utf8)).map varintLen).sum = len ∧
        len < 2 ^ 64 := by
    obtain ⟨len, grown, counted⟩ := @growHeader_some
      ((values.map (serialType .utf8)).map varintLen).sum 9 1 (varintLen_pos _) (by omega)
    have bound : ((values.map (serialType .utf8)).map varintLen).sum ≤ values.length * 9 := by
      have := sum_le_card_nsmul ((values.map (serialType .utf8)).map varintLen) 9 (by
        intro len mem
        obtain ⟨type, -, rfl⟩ := mem_map.mp mem
        exact varintLen_le type)
      simpa using this
    have := varintLen_le len
    exact ⟨len, grown, counted, by omega⟩
  obtain ⟨len, grown, counted, fits⟩ := header few
  obtain ⟨size, raised, summed, room⟩ := header short
  rw [encodeRecordInto, encodeRecordInto, grown, raised] at same
  simp only [Option.map_some, Option.some.injEq, append_assoc] at same
  obtain ⟨rfl, later⟩ := encodeVarint_append_inj fits room same
  have equal := Nat.add_left_cancel (counted.trans summed.symm)
  obtain ⟨types, bodies⟩ := varints_append_inj
    (forall_mem_map.mpr fun value mem => serialType_lt (held value mem))
    (forall_mem_map.mpr fun other mem => serialType_lt (kept other mem)) equal later
  exact bodies_inj held kept types bodies

end SqliteRs
