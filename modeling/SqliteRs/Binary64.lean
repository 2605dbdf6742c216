import Mathlib.Algebra.Order.Ring.Rat
import Mathlib.Data.Nat.Log
import Mathlib.Data.Prod.Lex

/-!
Binary64 numbers by the rational they stand for, with the conversions programs
make: rounding to nearest with ties to even, reading a decimal numeral and
writing a fixed number of significant decimal digits.
-/

namespace SqliteRs

inductive Binary64 where
  | nan
  | negInf
  | posInf
  | negZero
  | finite (value : Rat)
deriving DecidableEq, Repr

namespace Binary64

def roundHalfEven (numerator denominator : Nat) : Nat :=
  let quotient := numerator / denominator
  let twice := 2 * (numerator % denominator)
  if twice < denominator then quotient
  else if denominator < twice then quotient + 1
  else quotient + quotient % 2

/-- A magnitude counted in units of `base ^ exponent`, as a fraction. -/
def inUnits (base : Nat) (exponent : Int) (magnitude : Rat) : Nat × Nat :=
  match exponent with
  | .ofNat up => (magnitude.num.natAbs, magnitude.den * base ^ up)
  | .negSucc down => (magnitude.num.natAbs * base ^ (down + 1), magnitude.den)

def scale (base : Nat) (exponent : Int) (units : Nat) : Rat :=
  match exponent with
  | .ofNat up => ((units * base ^ up : Nat) : Rat)
  | .negSucc down => mkRat units (base ^ (down + 1))

def floorLog2 (magnitude : Rat) : Int :=
  let guess : Int := (Nat.log2 magnitude.num.natAbs : Int) - Nat.log2 magnitude.den
  let fraction := inUnits 2 guess magnitude
  if fraction.1 < fraction.2 then guess - 1 else guess

/-- The nearest number of 53 significant bits, or none past the largest finite. -/
def roundMagnitude (magnitude : Rat) : Option Rat :=
  let exponent := max (floorLog2 magnitude - 52) (-1074)
  let fraction := inUnits 2 exponent magnitude
  let rounded := scale 2 exponent (roundHalfEven fraction.1 fraction.2)
  if ((2 ^ 1024 : Nat) : Rat) ≤ rounded then none else some rounded

def negate : Binary64 → Binary64
  | .nan => .nan
  | .negInf => .posInf
  | .posInf => .negInf
  | .negZero => .finite 0
  | .finite value => if value = 0 then .negZero else .finite (-value)

def round (number : Rat) : Binary64 :=
  if number = 0 then .finite 0
  else
    let nearest := match roundMagnitude |number| with
      | some value => .finite value
      | none => .posInf
    if number < 0 then negate nearest else nearest

def ofInt (number : Int) : Binary64 := round number

def add : Binary64 → Binary64 → Binary64
  | .nan, _ | _, .nan => .nan
  | .posInf, .negInf | .negInf, .posInf => .nan
  | .posInf, _ | _, .posInf => .posInf
  | .negInf, _ | _, .negInf => .negInf
  | .negZero, other | other, .negZero => other
  | .finite left, .finite right => round (left + right)

def divideBy (count : Nat) : Binary64 → Binary64
  | .finite total =>
    match ofInt count with
    | .finite parts => if total = 0 then .finite 0 else round (total / parts)
    | _ => .finite 0
  | total => total

theorem negate_ne_nan (num : Binary64) (real : num ≠ .nan) : negate num ≠ .nan := by
  cases num with
  | nan => exact absurd rfl real
  | finite value =>
    rw [negate]
    split <;> simp
  | _ => simp [negate]

theorem round_ne_nan (num : Rat) : round num ≠ .nan := by
  unfold round
  split
  · simp
  cases roundMagnitude |num| with
  | none => dsimp only; split <;> simp [negate]
  | some value =>
    dsimp only
    split
    · exact negate_ne_nan _ (by simp)
    · simp

def isFinite : Binary64 → Bool
  | .negZero | .finite _ => true
  | _ => false

def level : Binary64 → Option (ℤ ×ₗ ℚ)
  | .nan => none
  | .negInf => some (toLex (-1, 0))
  | .posInf => some (toLex (1, 0))
  | .negZero => some (toLex (0, 0))
  | .finite value => some (toLex (0, value))

def partialCmp (left right : Binary64) : Option Ordering :=
  match left.level, right.level with
  | some a, some b => some (compare a b)
  | _, _ => none

def truncate : Binary64 → Int
  | .finite value => value.num.tdiv value.den
  | _ => 0

def digitsValue (digits : List Char) : Nat :=
  digits.foldl (fun total digit => 10 * total + (digit.toNat - '0'.toNat)) 0

def readSign : List Char → Bool × List Char
  | '-' :: rest => (true, rest)
  | '+' :: rest => (false, rest)
  | chars => (false, chars)

def readExponent : List Char → Option Int
  | [] => some 0
  | mark :: rest =>
    let (negative, digits) := readSign rest
    if (mark = 'e' ∨ mark = 'E') ∧ digits ≠ [] ∧ digits.all Char.isDigit then
      some (if negative then -(digitsValue digits : Int) else digitsValue digits)
    else none

/-- The numeral after its sign: digits with at most one point, then an exponent. -/
def readUnsigned (chars : List Char) : Option Binary64 :=
  let (whole, rest) := chars.span Char.isDigit
  let (fraction, rest) := match rest with
    | '.' :: tail => tail.span Char.isDigit
    | _ => ([], rest)
  if whole = [] ∧ fraction = [] then
    let word := chars.map Char.toLower
    if word = "inf".toList ∨ word = "infinity".toList then some .posInf
    else if word = "nan".toList then some .nan
    else none
  else
    (readExponent rest).map fun exponent =>
      round (scale 10 (exponent - fraction.length) (digitsValue (whole ++ fraction)))

def parse (chars : List Char) : Option Binary64 :=
  let (negative, body) := readSign chars
  (readUnsigned body).map fun value => if negative then negate value else value

def floorLog10 (magnitude : Rat) : Int :=
  let top := magnitude.num.natAbs
  let bottom := magnitude.den
  if bottom ≤ top then Nat.log 10 (top / bottom)
  else -(Nat.clog 10 ((bottom + top - 1) / top) : Int)

/-- The leading `count` decimal digits as one number, and the power of ten of the first. -/
def significant (count : Nat) (magnitude : Rat) : Nat × Int :=
  let exponent := floorLog10 magnitude
  let fraction := inUnits 10 (exponent - (count - 1)) magnitude
  let digits := roundHalfEven fraction.1 fraction.2
  if digits = 10 ^ count then (10 ^ (count - 1), exponent + 1) else (digits, exponent)

example : parse "-12.5e1".toList = some (.finite (-125)) := by decide +kernel

example : ofInt (2 ^ 53 + 1) = .finite (2 ^ 53) := by decide +kernel

end Binary64

end SqliteRs
