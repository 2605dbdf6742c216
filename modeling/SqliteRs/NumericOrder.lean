import SqliteRs.SortOrder

/-!
Integers beside reals. Rounding an integer to binary64 never takes it past a number of 53
bits. So the comparison of queries, which looks at the whole part of the real first, is exact,
and the comparison of index keys goes wrong only where the integer rounds onto the real.
-/

namespace SqliteRs

open Nat Binary64

namespace Binary64

def IsDyadic (value : ℚ) : Prop :=
  ∃ mantissa exponent : ℤ, |mantissa| < 2 ^ 53 ∧ value = mantissa * 2 ^ exponent

theorem roundHalfEven_le {num unit bound : ℕ} (positive : 0 < unit) (le : num ≤ bound * unit) :
    roundHalfEven num unit ≤ bound := by
  have whole := div_add_mod num unit
  have least : num / unit ≤ bound := Nat.div_le_of_le_mul (by rwa [mul_comm])
  simp only [roundHalfEven]
  rcases least.lt_or_eq with less | same
  · split_ifs <;> omega
  · rw [same, mul_comm] at whole
    split_ifs <;> omega

theorem le_roundHalfEven (num unit : ℕ) : num / unit ≤ roundHalfEven num unit := by
  simp only [roundHalfEven]
  split_ifs <;> omega

/-- The unit in the last place of an integer. -/
def lastPlace (num : ℕ) : ℕ := 2 ^ (num.log2 - 52)

theorem roundMagnitude_nat {num : ℕ} (positive : num ≠ 0) (small : num ≤ 2 ^ 63) :
    roundMagnitude num = some ((roundHalfEven num (lastPlace num) * lastPlace num : ℕ) : ℚ) := by
  have low : 2 ^ num.log2 ≤ num := log2_self_le positive
  have top : num.log2 ≤ 63 := (Nat.pow_le_pow_iff_right (by decide)).1 (low.trans small)
  have up (power : ℕ) : inUnits 2 power num = (num, 2 ^ power) := by
    change (_, _) = _
    simp
  have log : floorLog2 num = num.log2 := by
    have guess : (log2 (num : ℚ).num.natAbs : ℤ) - log2 (num : ℚ).den = num.log2 := by
      simp [show log2 1 = 0 from rfl]
    simp only [floorLog2, guess, up, not_lt.2 low, if_false]
  have fits : roundHalfEven num (lastPlace num) ≤ num :=
    roundHalfEven_le (Nat.two_pow_pos _) (Nat.le_mul_of_pos_right num (Nat.two_pow_pos _))
  have bounded : roundHalfEven num (lastPlace num) * lastPlace num < 2 ^ 1024 := by
    have unit : lastPlace num ≤ 2 ^ 11 := Nat.pow_le_pow_right (by decide) (by omega)
    calc _ ≤ 2 ^ 63 * 2 ^ 11 := Nat.mul_le_mul (fits.trans small) unit
      _ = 2 ^ 74 := by norm_num
      _ < 2 ^ 1024 := (Nat.pow_lt_pow_iff_right (by decide)).2 (by decide)
  have unscaled : scale 2 (max (floorLog2 num - 52) (-1074))
      (roundHalfEven (inUnits 2 (max (floorLog2 num - 52) (-1074)) num).1
        (inUnits 2 (max (floorLog2 num - 52) (-1074)) num).2) =
      ((roundHalfEven num (lastPlace num) * lastPlace num : ℕ) : ℚ) := by
    rcases le_or_gt 52 num.log2 with wide | narrow
    · have place : max (floorLog2 num - 52) (-1074) = ((num.log2 - 52 : ℕ) : ℤ) := by omega
      rw [place, up]
      rfl
    -- Units of less than one: an integer is a whole number of them.
    have place : max (floorLog2 num - 52) (-1074) = Int.negSucc (51 - num.log2) := by omega
    have unit : lastPlace num = 1 := by simp [lastPlace, Nat.sub_eq_zero_of_le narrow.le]
    have whole (count : ℕ) : roundHalfEven count 1 = count := by simp [roundHalfEven, mod_one]
    rw [place, unit, whole]
    simp [inUnits, scale, whole, Rat.mkRat_eq_div]
  simp only [roundMagnitude, unscaled]
  rw [if_neg (by exact_mod_cast bounded.not_ge)]

theorem dyadic_multiple {num : ℕ} {value : ℚ} (dyadic : IsDyadic value)
    (large : (2 : ℚ) ^ num.log2 ≤ value) (wide : 52 ≤ num.log2) :
    ∃ times : ℕ, value = (times * lastPlace num : ℕ) := by
  obtain ⟨mantissa, exponent, small, rfl⟩ := dyadic
  have power : (0 : ℚ) < 2 ^ exponent := by positivity
  have positive : 0 < mantissa := by
    by_contra negative
    have : (mantissa : ℚ) ≤ 0 := by exact_mod_cast not_lt.1 negative
    have : (0 : ℚ) < 2 ^ num.log2 := by positivity
    nlinarith
  have below : (2 : ℚ) ^ (num.log2 : ℤ) < 2 ^ (53 + exponent) := by
    have : (mantissa : ℚ) < 2 ^ 53 := by exact_mod_cast (abs_lt.1 small).2
    rw [zpow_natCast, zpow_add₀ (by norm_num)]
    exact large.trans_lt (by gcongr; exact_mod_cast this)
  have fits := (zpow_lt_zpow_iff_right₀ (by norm_num : (1 : ℚ) < 2)).1 below
  obtain ⟨more, split⟩ := Int.le.dest (show ((num.log2 - 52 : ℕ) : ℤ) ≤ exponent by omega)
  refine ⟨2 ^ more * mantissa.toNat, ?_⟩
  have cast : ((mantissa.toNat : ℕ) : ℚ) = mantissa := by exact_mod_cast Int.toNat_of_nonneg positive.le
  rw [← split, zpow_add₀ (by norm_num), zpow_natCast, zpow_natCast, lastPlace]
  push_cast
  rw [cast]
  ring

theorem IsDyadic.neg {value : ℚ} (dyadic : IsDyadic value) : IsDyadic (-value) := by
  obtain ⟨mantissa, exponent, small, rfl⟩ := dyadic
  exact ⟨-mantissa, exponent, by simpa using small, by push_cast; ring⟩

/-- Rounding does not pass a number of 53 bits on either side. -/
theorem roundMagnitude_between {num : ℕ} (positive : num ≠ 0) (small : num ≤ 2 ^ 63) :
    ∃ rounded : ℚ, roundMagnitude num = some rounded ∧ ∀ value, IsDyadic value →
      (num ≤ value → rounded ≤ value) ∧ (value ≤ num → value ≤ rounded) := by
  refine ⟨_, roundMagnitude_nat positive small, fun value dyadic => ?_⟩
  have low : 2 ^ num.log2 ≤ num := log2_self_le positive
  have unit : 0 < lastPlace num := Nat.two_pow_pos _
  rcases le_or_gt 52 num.log2 with wide | narrow
  · have base : 2 ^ 52 * lastPlace num = 2 ^ num.log2 := by
      rw [lastPlace, ← pow_add, Nat.add_sub_cancel' wide]
    have quotient {times : ℕ} (le : times * lastPlace num ≤ num) :
        times * lastPlace num ≤ roundHalfEven num (lastPlace num) * lastPlace num :=
      mul_le_mul_right _ (((le_div_iff_mul_le unit).2 le).trans (le_roundHalfEven _ _))
    constructor
    · intro above
      have large : (2 : ℚ) ^ num.log2 ≤ value := le_trans (by exact_mod_cast low) above
      obtain ⟨times, rfl⟩ := dyadic_multiple dyadic large wide
      exact_mod_cast mul_le_mul_right _ (roundHalfEven_le unit (by exact_mod_cast above))
    · intro below
      rcases le_or_gt ((2 : ℚ) ^ num.log2) value with large | less
      · obtain ⟨times, rfl⟩ := dyadic_multiple dyadic large wide
        exact_mod_cast quotient (by exact_mod_cast below)
      have most := quotient (base.le.trans low)
      rw [base] at most
      exact less.le.trans (by exact_mod_cast most)
  · have one : lastPlace num = 1 := by simp [lastPlace, Nat.sub_eq_zero_of_le narrow.le]
    simp [one, roundHalfEven, mod_one]

theorem ofInt_between {num : ℤ} (low : -(2 ^ 63) ≤ num) (high : num < 2 ^ 63) :
    ∃ rounded : ℚ, (ofInt num).level = some (toLex (0, rounded)) ∧ ∀ value, IsDyadic value →
      (num ≤ value → rounded ≤ value) ∧ (value ≤ num → value ≤ rounded) := by
  rcases eq_or_ne num 0 with rfl | nonzero
  · exact ⟨0, rfl, by simp⟩
  obtain ⟨rounded, found, between⟩ := @roundMagnitude_between num.natAbs (by omega) (by omega)
  have magnitude : |(num : ℚ)| = (num.natAbs : ℕ) := by simp
  rcases lt_or_gt_of_ne nonzero with negative | positive
  · have sign : (num : ℚ) < 0 := by exact_mod_cast negative
    have cast : ((num.natAbs : ℕ) : ℚ) = -num := by rw [← magnitude, abs_of_neg sign]
    refine ⟨-rounded, ?_, fun value dyadic => ?_⟩
    · simp only [ofInt, round, Int.cast_eq_zero, nonzero, if_false, magnitude, found, sign, if_true]
      simp only [negate]
      split
      next zero => simp [zero, level]
      next => rfl
    · have flipped := between (-value) dyadic.neg
      rw [cast] at flipped
      constructor <;> intro le
      · linarith [flipped.2 (by linarith)]
      · linarith [flipped.1 (by linarith)]
  · have sign : ¬ (num : ℚ) < 0 := by exact_mod_cast positive.le.not_gt
    have cast : ((num.natAbs : ℕ) : ℚ) = num := by rw [← magnitude, abs_of_nonneg (not_lt.1 sign)]
    refine ⟨rounded, ?_, by simpa only [cast] using between⟩
    simp only [ofInt, round, Int.cast_eq_zero, nonzero, if_false, magnitude, found, sign]
    rfl

/-- An integer that is the whole part of a number of 53 bits has 53 bits itself. -/
theorem ofInt_of_truncate {num : ℤ} {value : ℚ} (low : -(2 ^ 63) ≤ num) (high : num < 2 ^ 63)
    (dyadic : IsDyadic value) (whole : (Binary64.finite value).truncate = num) :
    ofInt num = .finite num := by
  have short : IsDyadic num := by
    obtain ⟨mantissa, exponent, small, rfl⟩ := dyadic
    rcases le_or_gt 0 exponent with up | down
    · obtain ⟨power, rfl⟩ := Int.eq_ofNat_of_zero_le up
      refine ⟨mantissa, power, small, ?_⟩
      have integer : (mantissa * 2 ^ (power : ℤ) : ℚ) = ((mantissa * 2 ^ power : ℤ) : ℚ) := by
        push_cast
        rw [zpow_natCast]
      rw [← whole, integer, truncate, Rat.num_intCast, Rat.den_intCast]
      simp
    -- A number with a fraction is less than 2 ^ 52.
    have half : (2 : ℚ) ^ exponent ≤ 2 ^ (-1 : ℤ) := zpow_le_zpow_right₀ (by norm_num) (by omega)
    have least : |(mantissa * 2 ^ exponent : ℚ)| < 2 ^ 52 := by
      have mantissaSmall : |(mantissa : ℚ)| < 2 ^ 53 := by exact_mod_cast small
      rw [abs_mul, abs_of_pos (by positivity : (0 : ℚ) < 2 ^ exponent)]
      norm_num at half
      nlinarith [abs_nonneg (mantissa : ℚ)]
    obtain ⟨above, below⟩ := abs_lt.1 least
    refine ⟨num, 0, abs_lt.2 ⟨?_, ?_⟩, by simp⟩ <;> by_contra far
    · have := gt_of_truncate_lt (-(2 ^ 52)) _ (whole.trans_lt (by omega))
      push_cast at this
      linarith
    · have := lt_of_lt_truncate (2 ^ 52) _ (lt_of_lt_of_eq (by omega) whole.symm)
      push_cast at this
      linarith
  obtain ⟨rounded, found, between⟩ := ofInt_between low high
  have same : rounded = num :=
    le_antisymm ((between num short).1 le_rfl) ((between num short).2 le_rfl)
  rcases eq_or_ne num 0 with rfl | nonzero
  · rfl
  · have apart : (0 : ℚ) ≠ num := by exact_mod_cast nonzero.symm
    cases read : ofInt num <;> simp_all [level]

end Binary64

/-- Values a database can hold: 64-bit integers, and reals of 53 bits or infinite. -/
def Value.Stored : Value → Prop
  | .integer num => -(2 ^ 63) ≤ num ∧ num < 2 ^ 63
  | .real .nan => False
  | .real (.finite value) => Binary64.IsDyadic value
  | _ => True

theorem compareIntReal_level {num : ℤ} {real : Binary64} (held : (Value.integer num).Stored)
    (stored : (Value.real real).Stored) {level : ℤ ×ₗ ℚ} (found : real.level = some level) :
    compareIntReal num real = compare (toLex (0, (num : ℚ))) level := by
  cases real with
  | nan => exact stored.elim
  | finite value =>
    cases found
    exact compareIntReal_finite num value held.1 held.2
      (ofInt_of_truncate held.1 held.2 stored)
  | negZero =>
    cases found
    exact compareIntReal_finite num 0 held.1 held.2
      (ofInt_of_truncate held.1 held.2 ⟨0, 0, by simp⟩)
  | negInf | posInf => cases found; rfl

structure PreorderOn (compare : Value → Value → Ordering) (values : Set Value) : Prop where
  reflexive : ∀ value ∈ values, compare value value = .eq
  oriented : ∀ left ∈ values, ∀ right ∈ values, compare left right = (compare right left).swap
  transitive : ∀ first ∈ values, ∀ second ∈ values, ∀ third ∈ values,
    compare first second ≠ .gt → compare second third ≠ .gt → compare first third ≠ .gt

theorem compare_preorderOn (collation : Collation) (values : Set Value) :
    PreorderOn (fun left right => left.compare right collation) values := by
  have lawful : Std.TransCmp fun left right : Value => left.compare right collation := inferInstance
  have reflexive : Std.ReflCmp fun left right : Value => left.compare right collation := inferInstance
  refine ⟨fun _ _ => reflexive.compare_self, fun _ _ _ _ => lawful.eq_swap, ?_⟩
  intro _ _ _ _ _ _ near far
  exact Ordering.ne_gt_iff_isLE.2
    (lawful.isLE_trans (Ordering.ne_gt_iff_isLE.1 near) (Ordering.ne_gt_iff_isLE.1 far))

/-- The order of queries is total under every collation, and exact on an integer and a real. -/
theorem compare_is_total_preorder (collation : Collation) :
    PreorderOn (fun left right => left.compare right collation) .univ ∧
    ∀ num real level, (Value.integer num).Stored → (Value.real real).Stored →
      real.level = some level → (Value.integer num).compare (.real real) collation =
        compare (toLex (0, (num : ℚ))) level :=
  ⟨compare_preorderOn collation .univ, fun _ _ _ held stored => compareIntReal_level held stored⟩

theorem compare_of_large_integer :
    (Value.integer (2 ^ 53 + 1)).compare (.real (.finite (2 ^ 53))) .binary =
      compare (toLex ((0 : ℤ), ((2 ^ 53 + 1 : ℤ) : ℚ))) (toLex (0, 2 ^ 53)) :=
  (compare_is_total_preorder .binary).2 _ _ _ ⟨by norm_num, by norm_num⟩ ⟨1, 53, by norm_num⟩ rfl

/-- The integer does not round onto the real, unless they are equal. -/
def RoundsApart (num : ℤ) (real : Binary64) : Prop :=
  (Binary64.ofInt num).level = real.level → real.level = some (toLex (0, (num : ℚ)))

theorem compare_rounded_iff {rounded num value : ℚ} (up : num ≤ value → rounded ≤ value)
    (down : value ≤ num → value ≤ rounded) :
    compare rounded value = compare num value ↔ (rounded = value → value = num) := by
  rcases lt_trichotomy num value with less | rfl | more
  · rw [compare_lt_iff_lt.2 less, compare_lt_iff_lt, (up less.le).lt_iff_ne]
    exact ⟨fun apart same => (apart same).elim, fun only same => less.ne (only same).symm⟩
  · simp [le_antisymm (up le_rfl) (down le_rfl)]
  · rw [compare_gt_iff_gt.2 more, compare_gt_iff_gt, (down more.le).lt_iff_ne]
    exact ⟨fun apart same => (apart same.symm).elim, fun only same => more.ne (only same.symm)⟩

theorem compareValues_agrees {num : ℤ} {real : Binary64} (held : (Value.integer num).Stored)
    (stored : (Value.real real).Stored) :
    compareValues (.integer num) (.real real) = compareIntReal num real ↔ RoundsApart num real := by
  obtain ⟨rounded, found, between⟩ := ofInt_between held.1 held.2
  simp only [compareValues, partialCmp, RoundsApart, found]
  cases real with
  | nan => exact stored.elim
  | negInf | posInf => simp [compareIntReal_level held stored rfl, level]; rfl
  | negZero =>
    rw [compareIntReal_level held stored rfl]
    have zero := between 0 ⟨0, 0, by simp⟩
    simpa [level, compare_exact_level] using compare_rounded_iff zero.1 zero.2
  | finite value =>
    rw [compareIntReal_level held stored rfl]
    simpa [level, compare_exact_level] using
      compare_rounded_iff (between value stored).1 (between value stored).2

/-- Index keys are in the order of queries exactly on values where no integer rounds onto a
real that it does not equal. -/
theorem index_order_agrees_iff (values : Set Value) (stored : ∀ value ∈ values, value.Stored) :
    (PreorderOn compareValues values ∧ ∀ left ∈ values, ∀ right ∈ values,
      compareValues left right = left.compare right .binary) ↔
    ∀ num real, .integer num ∈ values → .real real ∈ values → RoundsApart num real := by
  constructor
  · rintro ⟨-, agrees⟩ num real held read
    exact (compareValues_agrees (stored _ held) (stored _ read)).1 (agrees _ held _ read)
  intro apart
  have agrees : ∀ left ∈ values, ∀ right ∈ values,
      compareValues left right = left.compare right .binary := by
    intro left held right read
    cases left with
    | integer num =>
      cases right with
      | real real =>
        exact (compareValues_agrees (stored _ held) (stored _ read)).2 (apart _ _ held read)
      | _ => rfl
    | real real =>
      cases right with
      | integer num =>
        have other := (compareValues_agrees (stored _ read) (stored _ held)).2 (apart _ _ read held)
        rw [Value.compare, ← other]
        simp only [compareValues, partialCmp]
        cases real.level with
        | none => cases (ofInt num).level <;> rfl
        | some level =>
          cases (ofInt num).level with
          | none => rfl
          | some rounded =>
            exact (Std.OrientedCmp.eq_swap : compare level rounded = (compare rounded level).swap)
      | real other =>
        have left : real ≠ .nan := by rintro rfl; exact stored _ held
        have right : other ≠ .nan := by rintro rfl; exact stored _ read
        simp [Value.compare, compareReal, compareValues, left, right]
      | _ => rfl
    | _ => cases right <;> rfl
  have order := compare_preorderOn .binary values
  refine ⟨⟨fun value held => ?_, fun left held right read => ?_, ?_⟩, agrees⟩
  · rw [agrees _ held _ held]
    exact order.reflexive value held
  · rw [agrees _ held _ read, agrees _ read _ held]
    exact order.oriented left held right read
  · intro first one second two third three
    rw [agrees _ one _ two, agrees _ two _ three, agrees _ one _ three]
    exact order.transitive first one second two third three

/-- The greatest integer rounds to 2 ^ 63, which the index takes for an equal key. -/
theorem index_merges_rounded_integer :
    (Value.integer (2 ^ 63 - 1)).Stored ∧ (Value.real (.finite (2 ^ 63))).Stored ∧
    compareValues (.integer (2 ^ 63 - 1)) (.real (.finite (2 ^ 63))) = .eq ∧
    (Value.integer (2 ^ 63 - 1)).compare (.real (.finite (2 ^ 63))) .binary = .lt :=
  ⟨⟨by norm_num, by norm_num⟩, ⟨1, 63, by norm_num⟩, by decide +kernel, by decide +kernel⟩

/-- 2 ^ 53 + 1 rounds, but not onto 5 / 2. -/
theorem values_apart_agree :
    PreorderOn compareValues {.integer (2 ^ 53 + 1), .integer 3, .real (.finite (5 / 2)), .null} := by
  refine ((index_order_agrees_iff _ ?_).2 ?_).1
  · simp [Value.Stored]
    exact ⟨5, -1, by norm_num⟩
  · rintro num real (held | held | held | held) (read | read | read | read) same
    all_goals cases held
    all_goals cases read
    all_goals revert same; decide +kernel

end SqliteRs
