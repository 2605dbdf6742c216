import SqliteRs.SqlValue

/-!
The linear order behind the two comparisons of SQL values. An index compares an
integer with a real after rounding the integer, which is no order at all once
two integers round to one number. On values whose integers are exact in
binary64 both comparisons are the order of their places.
-/

namespace SqliteRs

open Int Binary64 Value LinearOrder

structure OrdAgrees (Item : Type) [LinearOrder Item] (order : Ord Item) : Prop where
  lt : ∀ left right : Item, order.compare left right = .lt ↔ left < right
  eq : ∀ left right : Item, order.compare left right = .eq ↔ left = right

theorem linear_agrees (Item : Type) [LinearOrder Item] : OrdAgrees Item toOrd :=
  ⟨fun _ _ => compare_lt_iff_lt, fun _ _ => compare_eq_iff_eq⟩

theorem OrdAgrees.compare_eq {Item : Type} [LinearOrder Item] {order : Ord Item}
    (agrees : OrdAgrees Item order) (left right : Item) :
    order.compare left right = toOrd.compare left right := by
  rcases lt_trichotomy left right with less | same | more
  · rw [(agrees.lt left right).mpr less, compare_lt_iff_lt.mpr less]
  · rw [(agrees.eq left right).mpr same, compare_eq_iff_eq.mpr same]
  have neither : order.compare left right = .gt := by
    cases found : order.compare left right with
    | lt => exact absurd ((agrees.lt left right).mp found) more.not_gt
    | eq => exact absurd ((agrees.eq left right).mp found) more.ne'
    | gt => rfl
  rw [neither, compare_gt_iff_gt.mpr more]

theorem lex_agrees {First Second : Type} [LinearOrder First] [LinearOrder Second]
    {one : Ord First} {two : Ord Second} (first : OrdAgrees First one) (second : OrdAgrees Second two) :
    OrdAgrees (First ×ₗ Second) (@Prod.Lex.instOrdLexProd _ _ one two) := by
  constructor
  · rintro ⟨a, b⟩ ⟨c, d⟩
    change (one.compare a c).then (two.compare b d) = .lt ↔ toLex (a, b) < toLex (c, d)
    rw [Ordering.then_eq_lt, first.lt, first.eq, second.lt, Prod.Lex.toLex_lt_toLex]
  · rintro ⟨a, b⟩ ⟨c, d⟩
    change (one.compare a c).then (two.compare b d) = .eq ↔ toLex (a, b) = toLex (c, d)
    rw [Ordering.then_eq_eq, first.eq, second.eq, toLex_inj, Prod.mk.injEq]

theorem list_agrees {Item : Type} [LinearOrder Item] {order : Ord Item}
    (items : OrdAgrees Item order) : OrdAgrees (List Item) (@List.instOrd _ order) := by
  have step : ∀ (left right : Item) (lefts rights : List Item),
      (@List.instOrd _ order).compare (left :: lefts) (right :: rights) =
        (order.compare left right).then ((@List.instOrd _ order).compare lefts rights) :=
    fun _ _ _ _ => List.compareLex_cons_cons
  constructor
  · intro left
    induction left with
    | nil =>
      intro right
      cases right with
      | nil => simp
      | cons other others => exact iff_of_true rfl (List.nil_lt_cons other others)
    | cons value rest ih =>
      intro right
      cases right with
      | nil => exact iff_of_false (by rintro ⟨⟩) (List.not_lt_nil _)
      | cons other others =>
        rw [step, Ordering.then_eq_lt, items.lt, items.eq, ih, List.cons_lt_cons_iff]
  · intro left
    induction left with
    | nil =>
      intro right
      cases right with
      | nil => simp
      | cons other others => exact iff_of_false (by rintro ⟨⟩) (by simp)
    | cons value rest ih =>
      intro right
      cases right with
      | nil => exact iff_of_false (by rintro ⟨⟩) (by simp)
      | cons other others =>
        rw [step, Ordering.then_eq_eq, items.eq, ih, List.cons.injEq]

abbrev Place := ℕ ×ₗ (ℤ ×ₗ ℚ) ×ₗ List ℕ

theorem place_agrees : OrdAgrees Place inferInstance :=
  lex_agrees (linear_agrees ℕ)
    (lex_agrees (lex_agrees (linear_agrees ℤ) (linear_agrees ℚ)) (list_agrees (linear_agrees ℕ)))

theorem places_agrees : OrdAgrees (List Place) inferInstance := list_agrees place_agrees

def Value.place : Value → Place
  | .null => toLex (0, toLex (toLex (0, 0), []))
  | .integer number => toLex (1, toLex (toLex (0, (number : ℚ)), []))
  | .real number => toLex (1, toLex (number.level.getD (toLex (0, 0)), []))
  | .text chars => toLex (2, toLex (toLex (0, 0), codePoints chars))
  | .blob bytes => toLex (3, toLex (toLex (0, 0), byteValues bytes))

/-- An integer is exact when binary64 holds it; every real but NaN is. -/
def Value.Exact : Value → Prop
  | .integer number =>
    -(2 ^ 63) ≤ number ∧ number < 2 ^ 63 ∧ Binary64.ofInt number = .finite number
  | .real number => number ≠ .nan
  | _ => True

instance (value : Value) : Decidable value.Exact := by
  cases value <;> unfold Value.Exact <;> infer_instance

theorem compare_intCast (left right : Int) : compare (left : ℚ) (right : ℚ) = compare left right := by
  rw [← cmp_eq_compare, ← cmp_eq_compare]
  exact cast_strictMono.cmp_map_eq left right

theorem Binary64.level_of_ne_nan (num : Binary64) (real : num ≠ .nan) :
    ∃ place, num.level = some place := by
  cases num with
  | nan => exact absurd rfl real
  | negInf | posInf | negZero | finite => exact ⟨_, rfl⟩

theorem then_eq_self (order : Ordering) : order.then .eq = order := by cases order <;> rfl

theorem compare_numeric (left right : ℤ ×ₗ ℚ) :
    compare (toLex (1, toLex (left, [])) : Place) (toLex (1, toLex (right, []))) = compare left right :=
  then_eq_self (compare left right)

theorem compare_exact_level (left right : ℚ) :
    compare (toLex ((0 : ℤ), left)) (toLex ((0 : ℤ), right)) = compare left right := rfl

theorem partialCmp_getD (left right : Binary64) (leftReal : left ≠ .nan) (rightReal : right ≠ .nan) :
    (left.partialCmp right).getD .eq =
      compare (left.level.getD (toLex (0, 0))) (right.level.getD (toLex (0, 0))) := by
  obtain ⟨a, atLeft⟩ := left.level_of_ne_nan leftReal
  obtain ⟨b, atRight⟩ := right.level_of_ne_nan rightReal
  simp [partialCmp, atLeft, atRight]

theorem compareValues_place (left right : Value) (exactLeft : left.Exact)
    (exactRight : right.Exact) : compareValues left right = compare left.place right.place := by
  cases left with
  | null => cases right <;> rfl
  | text chars =>
    cases right with
    | _ => rfl
  | blob bytes =>
    cases right with
    | _ => rfl
  | integer x =>
    obtain ⟨-, -, roundX⟩ := exactLeft
    cases right with
    | integer y =>
      simp [place, compare_numeric, compare_exact_level, compareValues, compare_intCast]
    | real y =>
      simp only [place, compare_numeric, compareValues, roundX]
      exact partialCmp_getD _ _ (by simp) exactRight
    | _ => rfl
  | real x =>
    cases right with
    | integer y =>
      obtain ⟨-, -, roundY⟩ := exactRight
      simp only [place, compare_numeric, compareValues, roundY]
      exact partialCmp_getD _ _ exactLeft (by simp)
    | real y =>
      simp only [place, compare_numeric]
      exact partialCmp_getD _ _ exactLeft exactRight
    | _ => rfl

theorem truncate_nonneg (value : ℚ) (sign : 0 ≤ value) : (finite value).truncate = ⌊value⌋ := by
  have nonneg : 0 ≤ value.num := Rat.num_nonneg.mpr sign
  rw [truncate, tdiv_eq_ediv_of_nonneg nonneg, ← Rat.floor_def]
  rfl

theorem truncate_neg (value : ℚ) (sign : value < 0) : (finite value).truncate = ⌈value⌉ := by
  have nonneg : 0 ≤ (-value).num := Rat.num_nonneg.mpr (by linarith)
  have flipped : value.num.tdiv value.den = -((-value).num.tdiv (-value).den) := by
    rw [Rat.neg_num, Rat.neg_den, Int.neg_tdiv, neg_neg]
  rw [truncate, flipped, tdiv_eq_ediv_of_nonneg nonneg, ← Rat.floor_def]
  change -⌊-value⌋ = ⌈value⌉
  rw [floor_neg, neg_neg]

theorem lt_of_lt_truncate (num : Int) (value : ℚ)
    (below : num < (finite value).truncate) : (num : ℚ) < value := by
  rcases lt_or_ge value 0 with negative | positive
  · rw [truncate_neg value negative] at below
    exact lt_ceil.mp below
  rw [truncate_nonneg value positive] at below
  have whole := floor_le value
  have cast : (num : ℚ) < (⌊value⌋ : ℚ) := by exact_mod_cast below
  linarith

theorem gt_of_truncate_lt (num : Int) (value : ℚ)
    (above : (finite value).truncate < num) : value < (num : ℚ) := by
  rcases lt_or_ge value 0 with negative | positive
  · rw [truncate_neg value negative] at above
    have whole := le_ceil value
    have cast : (⌈value⌉ : ℚ) < (num : ℚ) := by exact_mod_cast above
    linarith
  · rw [truncate_nonneg value positive] at above
    exact floor_lt.mp above

theorem compare_finite (left right : ℚ) :
    (finite left).partialCmp (.finite right) = some (compare left right) := rfl

theorem compareIntReal_finite (num : Int) (value : ℚ) (least : -(2 ^ 63) ≤ num) (most : num < 2 ^ 63)
    (rounded : (finite value).truncate = num → ofInt num = .finite num) :
    compareIntReal num (.finite value) = compare (num : ℚ) value := by
  have leastCast : (-(2 ^ 63) : ℚ) ≤ num := by exact_mod_cast least
  have mostCast : (num : ℚ) < 2 ^ 63 := by exact_mod_cast most
  have last (same : (finite value).truncate = num) :
      ((ofInt num).partialCmp (.finite value)).getD .eq = compare (num : ℚ) value := by
    rw [rounded same]
    rfl
  rw [compareIntReal, if_neg (by simp)]
  split
  · rename_i small
    have below : value < -(2 ^ 63) := compare_lt_iff_lt.mp (Option.some.inj small)
    exact (compare_gt_iff_gt.mpr (lt_of_lt_of_le below leastCast)).symm
  split
  · rename_i large
    have above : ¬ value < 2 ^ 63 := fun less =>
      large (by rw [compare_finite, compare_lt_iff_lt.mpr less])
    exact (compare_lt_iff_lt.mpr (lt_of_lt_of_le mostCast (not_lt.mp above))).symm
  split
  · rename_i before
    exact (compare_lt_iff_lt.mpr (lt_of_lt_truncate num value before)).symm
  split
  · rename_i behind
    exact (compare_gt_iff_gt.mpr (gt_of_truncate_lt num value behind)).symm
  · exact last (by omega)

theorem compareIntReal_place (num : Int) (real : Binary64)
    (exact : (integer num).Exact) (notNan : real ≠ .nan) : compareIntReal num real =
      compare (Value.integer num).place (Value.real real).place := by
  simp only [place, compare_numeric]
  cases real with
  | nan => exact absurd rfl notNan
  | finite value => exact compareIntReal_finite num value exact.1 exact.2.1 fun _ => exact.2.2
  | negZero => exact compareIntReal_finite num 0 exact.1 exact.2.1 fun _ => exact.2.2
  | negInf | posInf => rfl

theorem compare_binary_place (left right : Value) (exactLeft : left.Exact)
    (exactRight : right.Exact) : left.compare right .binary = compare left.place right.place := by
  cases left with
  | null | text | blob => cases right <;> rfl
  | integer x =>
    cases right with
    | integer y => exact compareValues_place (.integer x) (.integer y) exactLeft exactRight
    | real y => exact compareIntReal_place x y exactLeft exactRight
    | _ => rfl
  | real x =>
    cases right with
    | integer y =>
      simp only [Value.compare, compareIntReal_place y x exactRight exactLeft]
      exact Std.OrientedCmp.eq_swap.symm
    | real y =>
      rw [← compareValues_place (.real x) (.real y) exactLeft exactRight]
      simp [Value.compare, compareReal, compareValues, if_neg exactLeft, if_neg exactRight]
    | _ => rfl

/-- Two values that both comparisons rank by their places, as they do all exact values and
any two integers. -/
structure Value.Ranks (left right : Value) : Prop where
  rounded : compareValues left right = Ord.compare left.place right.place
  exact : left.compare right .binary = Ord.compare left.place right.place

theorem Value.Exact.ranks {left right : Value} (exactLeft : left.Exact) (exactRight : right.Exact) :
    left.Ranks right :=
  ⟨compareValues_place left right exactLeft exactRight,
    compare_binary_place left right exactLeft exactRight⟩

theorem Value.ranks_integers (left right : Int) :
    (Value.integer left).Ranks (.integer right) := by
  have same : compareValues (.integer left) (.integer right) =
      Ord.compare (Value.integer left).place (Value.integer right).place := by
    simp [place, compare_numeric, compare_exact_level, compareValues, compare_intCast]
  exact ⟨same, same⟩

theorem Value.Ranks.place_eq {left right : Value} (ranks : left.Ranks right) :
    left.compare right .binary = .eq ↔ left.place = right.place := by
  rw [ranks.exact]
  exact place_agrees.eq _ _

theorem compareKeys_of_values {left right : List Value} (agree : ∀ first ∈ left, ∀ second ∈ right,
      compareValues first second = compare first.place second.place) :
    compareKeys left right = compare (left.map place) (right.map place) := by
  induction left generalizing right with
  | nil => cases right <;> rfl
  | cons first rest ih =>
    cases right with
    | nil => rfl
    | cons other others =>
      have tails := @ih others fun one mem two listed =>
        agree one (.tail _ mem) two (.tail _ listed)
      rw [compareKeys_cons, agree first (.head _) other (.head _), tails]
      exact List.compareLex_cons_cons.symm

end SqliteRs
