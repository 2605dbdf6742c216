import SqliteRs.IndexAggregate

/-!
Integer arithmetic at the ends of its range: shifts by counts of any size and sign, and the
accumulator of SUM, which holds 128 bits and saturates.
-/

namespace SqliteRs

open List Totals

/-- A negative count turns the direction round. -/
def shiftSize (count : BitVec 64) : BitVec 64 :=
  if count.toInt < 0 then if -64 < count.toInt then -count else 64 else count

def shift (value count : BitVec 64) (left : Bool) : BitVec 64 :=
  if 64 ≤ (shiftSize count).toInt then if 0 ≤ value.toInt then 0 else -1
  else if left != decide (count.toInt < 0) then value <<< (shiftSize count).toNat
  else if 0 ≤ value.toInt then value >>> (shiftSize count).toNat
  else ~~~(~~~value >>> (shiftSize count).toNat)

/-- The low 64 bits of a product with a power of two, or the floor of a quotient. -/
def shifted (value : Int) (size : Nat) (left : Bool) : Int :=
  if left then (value * 2 ^ size).bmod (2 ^ 64) else value / 2 ^ size

theorem toInt_shiftLeft (value : BitVec 64) (size : Nat) :
    (value <<< size).toInt = (value.toInt * 2 ^ size).bmod (2 ^ 64) := by
  rw [BitVec.toInt_shiftLeft, Nat.shiftLeft_eq, value.toInt_eq_toNat_bmod, Int.bmod_mul_bmod]
  rfl

theorem toInt_shiftRight (value : BitVec 64) (size : Nat) :
    (if 0 ≤ value.toInt then value >>> size else ~~~(~~~value >>> size)).toInt =
      value.toInt / 2 ^ size := by
  have whole := BitVec.toInt_sshiftRight (x := value) (n := size)
  rw [Int.shiftRight_eq_div_pow] at whole
  split
  next positive =>
    rw [← BitVec.sshiftRight_eq_of_msb_false (by simpa [BitVec.msb_eq_toInt] using positive)]
    exact_mod_cast whole
  next negative =>
    rw [← BitVec.sshiftRight_eq_of_msb_true (by simpa [BitVec.msb_eq_toInt] using negative)]
    exact_mod_cast whole

theorem shifted_wide {value : Int} (low : -2 ^ 63 ≤ value) (high : value < 2 ^ 63) {size : Nat}
    (wide : 64 ≤ size) (left : Bool) :
    shifted value size left = if left ∨ 0 ≤ value then 0 else -1 := by
  obtain ⟨more, rfl⟩ := Nat.exists_eq_add_of_le wide
  have large : (2 : Int) ^ 64 ≤ 2 ^ (64 + more) := pow_le_pow_right₀ (by norm_num) wide
  cases left with
  | true =>
    have product : value * 2 ^ (64 + more) = 2 ^ 64 * (value * 2 ^ more) := by ring
    rw [shifted, if_pos rfl, product]
    exact Int.mul_bmod_right (2 ^ 64) _
  | false =>
    simp only [shifted, Bool.false_eq_true, if_false, false_or]
    split
    · exact Int.ediv_eq_zero_of_lt ‹_› (by omega)
    · rw [Int.ediv_eq_iff_of_pos (by omega)]
      omega

theorem shiftSize_toInt (count : BitVec 64) : 64 ≤ (shiftSize count).toInt ∧ 64 ≤ count.toInt.natAbs ∨
      (shiftSize count).toInt = count.toInt.natAbs ∧ count.toInt.natAbs < 64 := by
  unfold shiftSize
  split
  · split
    · rw [BitVec.toInt_neg, Int.bmod_eq_of_le] <;> omega
    · exact .inl ⟨by decide, by omega⟩
  · omega

/-- A left shift of a negative value by 64 bits or more gives -1 in place of 0. -/
theorem shift_exact_iff (value count : BitVec 64) (left : Bool) :
    (shift value count left).toInt =
        shifted value.toInt count.toInt.natAbs (left != decide (count.toInt < 0)) ↔
      ¬ (value.toInt < 0 ∧ 64 ≤ count.toInt.natAbs ∧ left = decide (0 ≤ count.toInt)) := by
  have direction : (left != decide (count.toInt < 0)) = true ↔ left = decide (0 ≤ count.toInt) := by
    cases left <;> simp
  rcases shiftSize_toInt count with ⟨wide, far⟩ | ⟨same, near⟩
  · rw [shift, if_pos wide, shifted_wide value.le_toInt value.toInt_lt far, ← direction]
    by_cases positive : 0 ≤ value.toInt
    · simp [positive]
    · cases left != decide (count.toInt < 0) <;> simp [positive, far]
  have size : (shiftSize count).toNat = count.toInt.natAbs := by
    have read := (shiftSize count).toInt_eq_toNat_cond
    split at read <;> omega
  have plain : (shift value count left).toInt =
      shifted value.toInt count.toInt.natAbs (left != decide (count.toInt < 0)) := by
    rw [shift, if_neg (by omega), size, shifted]
    cases left != decide (count.toInt < 0) with
    | true => exact toInt_shiftLeft value _
    | false => exact toInt_shiftRight value _
  exact iff_of_true plain (by omega)

theorem negative_shifted_out : (shift (-1) 64 true).toInt = -1 ∧ shifted (-1) 64 true = 0 := by
  decide

section Sums

/-- `i128::saturating_add` on the running total. -/
def Totals.saturate (totals : Totals) : Totals :=
  { totals with intTotal := max (-(2 ^ 127)) (min totals.intTotal (2 ^ 127 - 1)) }

def sumStep (totals : Totals) (row : Option Int) : Totals :=
  (totals.step (fun _ => []) (row.elim .null .integer)).saturate

/-- SUM over a column of integers and NULLs. -/
def sumIntegers (rows : List (Option Int)) : Except QueryError Value :=
  (rows.foldl sumStep {}).finalize .sum

def exactSum (rows : List (Option Int)) : Except QueryError Value :=
  let numbers := rows.reduceOption
  if numbers = [] then .ok .null
  else if -(2 ^ 63) ≤ numbers.sum ∧ numbers.sum < 2 ^ 63 then .ok (.integer numbers.sum)
  else .error .integerOverflow

def InRange (rows : List (Option Int)) : Prop :=
  ∀ row ∈ rows, ∀ number ∈ row, -(2 ^ 63) ≤ number ∧ number < 2 ^ 63

theorem sumStep_eq (total : Int) (real : Binary64) (count : Nat) (row : Option Int) :
    sumStep ⟨total, real, false, count⟩ row =
      Totals.saturate ⟨total + row.getD 0, real, false, count + row.toList.length⟩ := by
  cases row <;> simp [sumStep, step, numericArg]

theorem foldl_sumStep {rows : List (Option Int)} (range : InRange rows) {total : Int} {real : Binary64}
    {count : Nat} (low : -((2 ^ 64 - rows.length) * 2 ^ 63) ≤ total)
    (high : total ≤ (2 ^ 64 - rows.length) * (2 ^ 63 - 1)) (short : rows.length ≤ 2 ^ 64) :
    rows.foldl sumStep ⟨total, real, false, count⟩ =
      ⟨total + rows.reduceOption.sum, real, false, count + rows.reduceOption.length⟩ := by
  induction rows generalizing total count with
  | nil => simp
  | cons row rest ih =>
    obtain ⟨here, later⟩ := forall_mem_cons.mp range
    simp only [length_cons, Nat.cast_add, Nat.cast_one] at low high short
    -- No total of at most 2 ^ 64 rows leaves 128 bits.
    have bounded : -(2 ^ 63) ≤ row.getD 0 ∧ row.getD 0 < 2 ^ 63 := by
      cases row with
      | none => simp
      | some number => exact here number rfl
    have kept : max (-(2 ^ 127)) (min (total + row.getD 0) (2 ^ 127 - 1)) = total + row.getD 0 := by
      omega
    rw [foldl_cons, sumStep_eq, saturate, kept, ih later (by omega) (by omega) (by omega)]
    cases row <;> simp [add_assoc, add_comm 1]

/-- The order of the rows and the intermediate sums do not matter up to 2 ^ 64 rows. -/
theorem sum_is_exact (rows order : List (Option Int)) (range : InRange rows)
    (short : rows.length ≤ 2 ^ 64) (reordered : order ~ rows) :
    sumIntegers order = exactSum rows := by
  have same : order.reduceOption ~ rows.reduceOption := reordered.filterMap id
  have ranged : InRange order := fun row mem => range row (reordered.subset mem)
  have equal : exactSum order = exactSum rows := by
    simp [exactSum, ← length_eq_zero_iff, same.sum_eq, same.length_eq]
  rw [← reordered.length_eq] at short
  rw [← equal, sumIntegers, foldl_sumStep ranged (by simp; omega) (by simp; omega) short]
  simp [finalize, exactSum]

theorem sum_of_four_rows : sumIntegers [some (2 ^ 63 - 1), none, some 5, some (-5)] =
    .ok (.integer (2 ^ 63 - 1)) :=
  sum_is_exact [none, some (2 ^ 63 - 1), some 5, some (-5)] _ (by simp [InRange]) (by simp)
    (by decide)

theorem foldl_sumStep_replicate (number : Int) (times : Nat) {total : Int}
    (inside : -(2 ^ 127) ≤ total ∧ total < 2 ^ 127) (real : Binary64) (count : Nat) :
    (replicate times (some number)).foldl sumStep ⟨total, real, false, count⟩ =
      Totals.saturate ⟨total + times * number, real, false, count + times⟩ := by
  induction times with
  | zero => simp [saturate]; omega
  | succ times ih =>
    have up : 0 ≤ number → 0 ≤ times * number := fun positive => by positivity
    have down : number ≤ 0 → times * number ≤ 0 := mul_nonpos_of_nonneg_of_nonpos (by simp)
    rw [replicate_succ', foldl_append, ih, foldl_cons, foldl_nil, saturate, sumStep_eq]
    simp only [saturate, mk.injEq, Nat.cast_succ, add_mul]
    refine ⟨?_, trivial, trivial, by simp; omega⟩
    simp
    omega

/-- Past 2 ^ 64 rows the total saturates, and what is then subtracted is not made up for. -/
theorem saturated_sum_overflows : ∃ rows, InRange rows ∧ exactSum rows = .ok (.integer 0) ∧
    sumIntegers rows = .error .integerOverflow := by
  obtain ⟨times, long⟩ : ∃ times : ℕ, times = 2 ^ 64 + 4 := ⟨_, rfl⟩
  have positive : times ≠ 0 := by omega
  refine ⟨replicate times (some (2 ^ 63 - 1)) ++ replicate times (some (-(2 ^ 63 - 1))), ?_, ?_, ?_⟩
  · rintro row mem number rfl
    simp only [mem_append, mem_replicate, Option.some.injEq] at mem
    omega
  · have numbers : (replicate times (some (2 ^ 63 - 1 : Int)) ++
        replicate times (some (-(2 ^ 63 - 1)))).reduceOption =
        replicate times (2 ^ 63 - 1) ++ replicate times (-(2 ^ 63 - 1)) := by
      simp [reduceOption]
    simp only [exactSum, numbers]
    simp [positive]
  · have reached : (replicate times (some (2 ^ 63 - 1 : Int)) ++
        replicate times (some (-(2 ^ 63 - 1)))).foldl sumStep {} =
        ⟨3 - 2 ^ 64, .finite 0, false, times + times⟩ := by
      rw [foldl_append, foldl_sumStep_replicate _ _ (by norm_num), saturate,
        foldl_sumStep_replicate _ _ (by omega)]
      simp only [saturate, mk.injEq]
      exact ⟨by omega, trivial, trivial, by omega⟩
    rw [sumIntegers, reached]
    simp [finalize, positive]

end Sums

end SqliteRs
