import SqliteRs.Binary64
import SqliteRs.ByteFile

/-!
SQL values, their type affinities and the two comparisons the code has for
them: the total order that queries use and the key order that index b-trees
use. The two differ where an integer meets a real, because an index compares
the integer after rounding it to binary64. Both agree with one linear order on
values whose integers survive that rounding.
-/

namespace SqliteRs

inductive Value where
  | null
  | integer (value : Int)
  | real (value : Binary64)
  | text (chars : List Char)
  | blob (bytes : Bytes)
deriving DecidableEq, Repr

inductive Collation where
  | binary
  | noCase
  | rTrim
deriving DecidableEq, Repr

inductive Affinity where
  | text
  | numeric
  | integer
  | real
  | blob
deriving DecidableEq, Repr

/-- UTF-8 keeps the order of code points, so byte order is code point order. -/
def codePoints (chars : List Char) : List Nat := chars.map Char.toNat

def compareText (left right : List Char) : Collation → Ordering
  | .binary => compare (codePoints left) (codePoints right)
  | .noCase => compare (codePoints (left.map Char.toLower)) (codePoints (right.map Char.toLower))
  | .rTrim =>
    compare (codePoints (left.rdropWhile (· = ' '))) (codePoints (right.rdropWhile (· = ' ')))

def valueRank : Value → Nat
  | .null => 0
  | .integer _ | .real _ => 1
  | .text _ => 2
  | .blob _ => 3

def byteValues (bytes : Bytes) : List Nat := bytes.map UInt8.toNat

def compareIntReal (number : Int) (real : Binary64) : Ordering :=
  if real = .nan then .lt
  else if real.partialCmp (.finite (-(2 ^ 63))) = some .lt then .gt
  else if real.partialCmp (.finite (2 ^ 63)) ≠ some .lt then .lt
  else if number < real.truncate then .lt
  else if real.truncate < number then .gt
  else ((Binary64.ofInt number).partialCmp real).getD .eq

def compareReal (left right : Binary64) : Ordering :=
  if left = .nan then if right = .nan then .eq else .gt
  else if right = .nan then .lt
  else (left.partialCmp right).getD .eq

/-- The order that queries and the uniqueness test compare values by. -/
def Value.compare (left right : Value) (collation : Collation) : Ordering :=
  match left, right with
  | .integer x, .integer y => Ord.compare x y
  | .real x, .real y => compareReal x y
  | .integer x, .real y => compareIntReal x y
  | .real x, .integer y => (compareIntReal y x).swap
  | .text x, .text y => compareText x y collation
  | .blob x, .blob y => Ord.compare (byteValues x) (byteValues y)
  | _, _ => Ord.compare (valueRank left) (valueRank right)

def compareValues (left right : Value) : Ordering :=
  match left, right with
  | .integer x, .integer y => compare x y
  | .real x, .real y => (x.partialCmp y).getD .eq
  | .integer x, .real y => ((Binary64.ofInt x).partialCmp y).getD .eq
  | .real x, .integer y => (x.partialCmp (Binary64.ofInt y)).getD .eq
  | .text x, .text y => compare (codePoints x) (codePoints y)
  | .blob x, .blob y => compare (byteValues x) (byteValues y)
  | _, _ => compare (valueRank left) (valueRank right)

/-- Keys compare column by column, and a key that ends first is the lesser. -/
def compareKeys (left right : List Value) : Ordering := List.compareLex compareValues left right

theorem compareKeys_cons (left right : Value) (lefts rights : List Value) :
    compareKeys (left :: lefts) (right :: rights) =
      (compareValues left right).then (compareKeys lefts rights) :=
  List.compareLex_cons_cons

def containsWord (word chars : List Char) : Bool := chars.tails.any word.isPrefixOf

def affinityOf (declaredType : List Char) : Affinity :=
  let upper := declaredType.map Char.toUpper
  if containsWord "INT".toList upper then .integer
  else if containsWord "CHAR".toList upper || containsWord "CLOB".toList upper
      || containsWord "TEXT".toList upper then .text
  else if containsWord "BLOB".toList upper || upper.isEmpty then .blob
  else if containsWord "REAL".toList upper || containsWord "FLOA".toList upper
      || containsWord "DOUB".toList upper then .real
  else .numeric

def trailingDigits (digits : List Char) : List Char := digits.rdropWhile (· = '0')

def orZero (digits : List Char) : List Char := if digits.isEmpty then ['0'] else digits

def formatMagnitude (magnitude : Rat) : List Char :=
  let (number, exponent) := Binary64.significant 15 magnitude
  let digits := Nat.toDigits 10 number
  if exponent < -4 ∨ 15 ≤ exponent then
    let mark := if 0 ≤ exponent then '+' else '-'
    let power := Nat.toDigits 10 exponent.natAbs
    digits.take 1 ++ '.' :: orZero (trailingDigits (digits.drop 1)) ++ 'e' :: mark ::
      (if power.length < 2 then '0' :: power else power)
  else if 0 ≤ exponent then
    let split := exponent.toNat + 1
    digits.take split ++ '.' :: orZero (trailingDigits (digits.drop split))
  else
    '0' :: '.' :: (List.replicate (exponent.natAbs - 1) '0' ++ trailingDigits digits)

def formatReal : Binary64 → List Char
  | .nan => "NULL".toList
  | .negInf => "-9.0e+999".toList
  | .posInf => "9.0e+999".toList
  | .negZero => "-0.0".toList
  | .finite value =>
    if value = 0 then "0.0".toList
    else if value < 0 then '-' :: formatMagnitude (-value)
    else formatMagnitude value

def formatInteger (number : Int) : List Char :=
  if number < 0 then '-' :: Nat.toDigits 10 number.natAbs else Nat.toDigits 10 number.natAbs

/-- The characters that trimming removes: the Unicode white space. -/
def isWhitespace (char : Char) : Bool :=
  let code := char.toNat
  (9 ≤ code && code ≤ 13) || code == 32 || code == 0x85 || code == 0xA0 || code == 0x1680
    || (0x2000 ≤ code && code ≤ 0x200A) || code == 0x2028 || code == 0x2029
    || code == 0x202F || code == 0x205F || code == 0x3000

def parseInteger (chars : List Char) : Option Int :=
  let (negative, digits) := Binary64.readSign chars
  if digits.isEmpty || !digits.all Char.isDigit then none
  else
    let magnitude : Int := Binary64.digitsValue digits
    let number := if negative then -magnitude else magnitude
    if -(2 ^ 63) ≤ number ∧ number < 2 ^ 63 then some number else none

def parseWellFormedNumber (chars : List Char) : Option Value :=
  let trimmed := (chars.dropWhile isWhitespace).rdropWhile isWhitespace
  if trimmed.isEmpty then none
  else match parseInteger trimmed with
    | some number => some (.integer number)
    | none =>
      match Binary64.parse trimmed with
      | some real => if real.isFinite then some (.real real) else none
      | none => none

def forceReal : Value → Value
  | .integer number => .real (Binary64.ofInt number)
  | value => value

def textToNumber : Value → Value
  | .text chars => (parseWellFormedNumber chars).getD (.text chars)
  | value => value

def applyAffinity (affinity : Affinity) (value : Value) : Value :=
  match affinity with
  | .blob => value
  | .text =>
    match value with
    | .integer number => .text (formatInteger number)
    | .real number => .text (formatReal number)
    | other => other
  | .real => forceReal (textToNumber value)
  | .numeric | .integer => textToNumber value

theorem textToNumber_number (value : Value) (num : valueRank value = 1) :
    textToNumber value = value := by
  cases value with
  | text chars => cases num
  | _ => rfl

theorem parseWellFormedNumber_rank (chars : List Char) (value : Value)
    (parsed : parseWellFormedNumber chars = some value) : valueRank value = 1 := by
  simp only [parseWellFormedNumber] at parsed
  split at parsed
  · cases parsed
  split at parsed
  · cases parsed
    rfl
  split at parsed
  · split at parsed <;> cases parsed
    rfl
  · cases parsed

theorem textToNumber_idem (value : Value) : textToNumber (textToNumber value) = textToNumber value := by
  cases value with
  | text chars =>
    simp only [textToNumber]
    cases parsed : parseWellFormedNumber chars with
    | none => simp [parsed]
    | some num =>
      exact textToNumber_number num (parseWellFormedNumber_rank chars num parsed)
  | null | integer | real | blob => rfl

theorem textToNumber_forceReal (value : Value) :
    textToNumber (forceReal (textToNumber value)) = forceReal (textToNumber value) := by
  cases same : textToNumber value with
  | text chars => rw [← same, show forceReal (textToNumber value) = textToNumber value by
      rw [same]; rfl, textToNumber_idem]
  | null | integer | real | blob => rfl

theorem applyAffinity_idem (affinity : Affinity) (value : Value) :
    applyAffinity affinity (applyAffinity affinity value) = applyAffinity affinity value := by
  cases affinity with
  | blob => rfl
  | text => cases value <;> rfl
  | numeric | integer => exact textToNumber_idem value
  | real =>
    simp only [applyAffinity, textToNumber_forceReal]
    cases textToNumber value <;> rfl

theorem textToNumber_null (value : Value) (null : textToNumber value = .null) : value = .null := by
  cases value with
  | text chars =>
    simp only [textToNumber] at null
    cases parsed : parseWellFormedNumber chars with
    | none => rw [parsed] at null; cases null
    | some num =>
      rw [parsed] at null
      cases null
      cases parseWellFormedNumber_rank chars .null parsed
  | _ => exact null

theorem applyAffinity_eq_null (affinity : Affinity) (value : Value)
    (null : applyAffinity affinity value = .null) : value = .null := by
  cases affinity with
  | blob => exact null
  | text => cases value <;> first | rfl | cases null
  | numeric | integer => exact textToNumber_null value null
  | real =>
    apply textToNumber_null
    change forceReal (textToNumber value) = .null at null
    cases num : textToNumber value with
    | null => rfl
    | _ => rw [num] at null; cases null

end SqliteRs
