import SqliteRs.ValueOrder

/-!
The order in which the sorter hands its rows back. Queries compare an integer with a
real through the whole part of the real, which orders all values, NaN included, so the
keys of an ORDER BY are totally preordered whatever their directions, collations and
places of NULL. The sort is stable.
-/

namespace SqliteRs

open List Binary64 Value Prod

section Stable

variable {Item : Type} {before : Item → Item → Prop} [DecidableRel before]
  {wanted : Item → Item → Prop}

theorem orderedInsert_pairwise_iff {item : Item} {items : List Item}
    (trans : ∀ first second third, before first second → before second third →
      before first third) (sorted : items.Pairwise before) :
    (items.orderedInsert before item).Pairwise wanted ↔ items.Pairwise wanted ∧
        ∀ other ∈ items, if before item other then wanted item other else wanted other item := by
  induction items with
  | nil => simp
  | cons first rest ih =>
    rcases pairwise_cons.mp sorted with ⟨least, later⟩
    by_cases here : before item first
    · -- The item goes in front; it stands before everything behind `first`, too.
      have front : ∀ other ∈ first :: rest, before item other := by
        intro other mem
        rcases mem_cons.mp mem with rfl | inside
        · exact here
        · exact trans item first other here (least other inside)
      rw [orderedInsert_cons, if_pos here, pairwise_cons, and_comm]
      apply and_congr_right
      intro _
      apply forall₂_congr
      intro other mem
      rw [if_pos (front other mem)]
    · rw [orderedInsert_cons, if_neg here, pairwise_cons, pairwise_cons, forall_mem_cons, if_neg here]
      have added : (∀ other ∈ rest.orderedInsert before item, wanted first other) ↔
          wanted first item ∧ ∀ other ∈ rest, wanted first other := by
        simp
      tauto

theorem insertionSort_pairwise_iff (items : List Item)
    (total : ∀ first second, before first second ∨ before second first)
    (trans : ∀ first second third, before first second → before second third → before first third) :
    (items.insertionSort before).Pairwise wanted ↔
      items.Pairwise fun first second =>
        if before first second then wanted first second else wanted second first := by
  induction items with
  | nil => simp
  | cons item rest ih =>
    have : Std.Total before := ⟨total⟩
    have : IsTrans Item before := ⟨trans⟩
    rw [insertionSort_cons, orderedInsert_pairwise_iff trans
      (pairwise_insertionSort before rest), ih, pairwise_cons, and_comm]
    apply and_congr_left
    intro _
    simp [mem_insertionSort]

end Stable

theorem compare_with_coarse {First Second : Type} [LinearOrder First] [LinearOrder Second]
    {coarse : Second → First} (monotone : Monotone coarse) (left right : Second) :
    (compare (coarse left) (coarse right)).then (compare left right) = compare left right := by
  rcases lt_trichotomy left right with less | rfl | more
  · rw [compare_lt_iff_lt.mpr less]
    rcases (monotone less.le).lt_or_eq with apart | same
    · rw [compare_lt_iff_lt.mpr apart]
      rfl
    · rw [compare_eq_iff_eq.mpr same]
      rfl
  · rw [compare_eq_iff_eq.mpr rfl]
    rfl
  · rw [compare_gt_iff_gt.mpr more]
    rcases (monotone more.le).lt_or_eq with apart | same
    · rw [compare_gt_iff_gt.mpr apart]
      rfl
    · rw [compare_eq_iff_eq.mpr same.symm]
      rfl

/-- The part of the line that decides a comparison with an integer before the number
itself is looked at: beyond the integers on either side, or the whole part. -/
def coarseLevel (level : ℤ ×ₗ ℚ) : ℤ ×ₗ ℤ :=
  if level < toLex (0, -(2 ^ 63)) then toLex (-1, 0)
  else if level < toLex (0, 2 ^ 63) then toLex (0, (Binary64.finite (ofLex level).2).truncate)
  else toLex (1, 0)

theorem truncate_mono {left right : ℚ} (le : left ≤ right) :
    (Binary64.finite left).truncate ≤ (Binary64.finite right).truncate := by
  rcases lt_or_ge left 0 with negative | positive
  · rw [truncate_neg left negative]
    rcases lt_or_ge right 0 with negative' | positive'
    · rw [truncate_neg right negative']
      exact Int.ceil_mono le
    rw [truncate_nonneg right positive']
    have above : ⌈left⌉ ≤ 0 := Int.ceil_le.mpr (by simpa using negative.le)
    exact above.trans (Int.floor_nonneg.mpr positive')
  · rw [truncate_nonneg left positive, truncate_nonneg right (positive.trans le)]
    exact Int.floor_mono le

theorem finite_of_between {level : ℤ ×ₗ ℚ} {low high : ℚ} (above : ¬ level < toLex (0, low))
    (below : level < toLex (0, high)) : (ofLex level).1 = 0 := by
  rw [not_lt, Lex.le_iff] at above
  rw [Lex.lt_iff] at below
  simp only [ofLex_toLex] at above below
  rcases above with before | ⟨same, _⟩
  · rcases below with behind | ⟨same, _⟩
    · omega
    · exact same
  · exact same.symm

theorem coarseLevel_mono : Monotone coarseLevel := by
  intro left right le
  unfold coarseLevel
  split
  · split
    · exact le_rfl
    split
    all_goals exact Lex.toLex_le_toLex.mpr (.inl (by norm_num))
  rename_i aboveLeft
  rw [if_neg fun small => aboveLeft (le.trans_lt small)]
  split
  · rename_i belowLeft
    split
    swap
    · exact Lex.toLex_le_toLex.mpr (.inl (by norm_num))
    rename_i belowRight
    have zeroLeft := finite_of_between aboveLeft belowLeft
    have zeroRight := finite_of_between (fun small => aboveLeft (le.trans_lt small)) belowRight
    rw [Lex.le_iff] at le
    rcases le with absurdly | ⟨_, inner⟩
    · omega
    · exact Lex.toLex_le_toLex.mpr (.inr ⟨rfl, truncate_mono inner⟩)
  · rename_i beyond
    rw [if_neg fun small => beyond (le.trans_lt small)]

abbrev NumberStanding := (ℤ ×ₗ ℤ) ×ₗ (ℤ ×ₗ ℚ)

def Binary64.standing : Binary64 → NumberStanding
  | .nan => toLex (toLex (2, 0), toLex (0, 0))
  | number =>
    let level := number.level.getD (toLex (0, 0))
    toLex (coarseLevel level, level)

def integerStanding (number : Int) : NumberStanding :=
  toLex (toLex (0, number), (Binary64.ofInt number).level.getD (toLex (0, 0)))

variable {num : Binary64} {Row : Type} (key : SortKeyColumn) (keys : List SortKeyColumn)
  (buffer : List (Row × List Value))

theorem Binary64.standing_of_ne_nan (real : num ≠ .nan) :
    num.standing = toLex (coarseLevel (num.level.getD (toLex (0, 0))),
      num.level.getD (toLex (0, 0))) := by
  cases num with
  | nan => exact absurd rfl real
  | _ => rfl

theorem coarseLevel_fst_le (level : ℤ ×ₗ ℚ) : (ofLex (coarseLevel level)).1 ≤ 1 := by
  unfold coarseLevel
  split
  · exact (by norm_num : (-1 : ℤ) ≤ 1)
  split
  · exact (by norm_num : (0 : ℤ) ≤ 1)
  · exact le_refl (1 : ℤ)

theorem compare_standing (left right : ℤ ×ₗ ℤ) (first second : ℤ ×ₗ ℚ) :
    compare (toLex (left, first) : NumberStanding) (toLex (right, second)) =
      (compare left right).then (compare first second) := rfl

theorem standing_lt_nan (real : num ≠ .nan) : compare num.standing Binary64.nan.standing = .lt := by
  have below : (ofLex (coarseLevel (num.level.getD (toLex (0, 0))))).1 < 2 :=
    (coarseLevel_fst_le _).trans_lt (by norm_num)
  have apart : compare (coarseLevel (num.level.getD (toLex (0, 0)))) (toLex ((2 : ℤ), (0 : ℤ))) =
      .lt := compare_lt_iff_lt.mpr (Lex.lt_iff.mpr (.inl below))
  rw [standing_of_ne_nan real, standing, compare_standing, apart]
  rfl

theorem compare_swap_of_lt {left right : NumberStanding} (less : compare left right = .lt) :
    compare right left = .gt :=
  compare_gt_iff_gt.mpr (compare_lt_iff_lt.mp less)

theorem compareReal_standing (left right : Binary64) :
    compareReal left right = compare left.standing right.standing := by
  unfold compareReal
  by_cases leftNan : left = .nan
  · rw [if_pos leftNan]
    subst leftNan
    by_cases rightNan : right = .nan
    · rw [if_pos rightNan]
      subst rightNan
      exact (compare_eq_iff_eq.mpr rfl).symm
    · rw [if_neg rightNan]
      exact (compare_swap_of_lt (standing_lt_nan rightNan)).symm
  · rw [if_neg leftNan]
    by_cases rightNan : right = .nan
    · rw [if_pos rightNan]
      subst rightNan
      exact (standing_lt_nan leftNan).symm
    · rw [if_neg rightNan, partialCmp_getD left right leftNan rightNan,
        standing_of_ne_nan leftNan, standing_of_ne_nan rightNan]
      exact (compare_with_coarse coarseLevel_mono _ _).symm

theorem level_lt_iff (real : num ≠ .nan) (bound : ℚ) : num.partialCmp (.finite bound) = some .lt ↔
      num.level.getD (toLex (0, 0)) < toLex (0, bound) := by
  obtain ⟨level, found⟩ := num.level_of_ne_nan real
  have bounded : (finite bound).level = some (toLex (0, bound)) := rfl
  simp only [partialCmp, found, bounded, Option.some.injEq]
  exact compare_lt_iff_lt

theorem truncate_of_level (num : Binary64) :
    num.truncate = (Binary64.finite (ofLex (num.level.getD (toLex (0, 0)))).2).truncate := by
  cases num <;> rfl

theorem compareIntReal_standing (num : Int) (real : Binary64) :
    compareIntReal num real = compare (integerStanding num) real.standing := by
  unfold compareIntReal integerStanding
  by_cases nan : real = .nan
  · rw [if_pos nan]
    subst nan
    rfl
  rw [if_neg nan, standing_of_ne_nan nan]
  unfold coarseLevel
  simp only [level_lt_iff nan, ite_not]
  split
  · rfl
  split
  swap
  · rfl
  rw [truncate_of_level real]
  generalize (finite (ofLex (real.level.getD (toLex (0, 0)))).2).truncate = whole
  change _ = (compare num whole).then _
  rcases lt_trichotomy num whole with less | rfl | more
  · rw [if_pos less, compare_lt_iff_lt.mpr less]
    rfl
  · rw [if_neg (lt_irrefl _), if_neg (lt_irrefl _), compare_eq_iff_eq.mpr rfl]
    exact partialCmp_getD _ _ (round_ne_nan _) nan
  · rw [if_neg more.not_gt, if_pos more, compare_gt_iff_gt.mpr more]
    rfl

abbrev Standing := ℕ ×ₗ NumberStanding ×ₗ List ℕ

theorem standing_agrees : OrdAgrees Standing inferInstance :=
  lex_agrees (linear_agrees ℕ) (lex_agrees
    (lex_agrees (lex_agrees (linear_agrees ℤ) (linear_agrees ℤ))
      (lex_agrees (linear_agrees ℤ) (linear_agrees ℚ)))
    (list_agrees (linear_agrees ℕ)))

def Collation.fold : Collation → List Char → List Char
  | .binary, chars => chars
  | .noCase, chars => chars.map Char.toLower
  | .rTrim, chars => chars.rdropWhile (· = ' ')

def Value.standing (collation : Collation) : Value → Standing
  | .null => toLex (0, toLex (integerStanding 0, []))
  | .integer number => toLex (1, toLex (integerStanding number, []))
  | .real number => toLex (1, toLex (number.standing, []))
  | .text chars => toLex (2, toLex (integerStanding 0, codePoints (collation.fold chars)))
  | .blob bytes => toLex (3, toLex (integerStanding 0, byteValues bytes))

theorem compare_one_standing (left right : NumberStanding) :
    compare (toLex (1, toLex (left, [])) : Standing) (toLex (1, toLex (right, []))) =
      compare left right :=
  then_eq_self (compare left right)

theorem compare_integerStanding (left right : Int) :
    compare (integerStanding left) (integerStanding right) = compare left right := by
  change (compare left right).then _ = _
  rcases lt_trichotomy left right with less | rfl | more
  · rw [compare_lt_iff_lt.mpr less]
    rfl
  · rw [compare_eq_iff_eq.mpr rfl]
    exact compare_eq_iff_eq.mpr rfl
  · rw [compare_gt_iff_gt.mpr more]
    rfl

theorem Value.compare_eq_standing (coll : Collation) (left right : Value) :
    left.compare right coll = Ord.compare (left.standing coll) (right.standing coll) := by
  cases left with
  | null | blob => cases right <;> rfl
  | text chars =>
    cases right with
    | text others => cases coll <;> rfl
    | _ => rfl
  | integer x =>
    cases right with
    | integer y =>
      simp [standing, compare_one_standing, compare_integerStanding, compare]
    | real y =>
      simp [standing, compare_one_standing, compare, compareIntReal_standing]
    | _ => rfl
  | real x =>
    cases right with
    | integer y =>
      simp only [standing, compare_one_standing, compare, compareIntReal_standing]
      exact Std.OrientedCmp.eq_swap.symm
    | real y =>
      simp [standing, compare_one_standing, compare, compareReal_standing]
    | _ => rfl

section Comparators

variable {Item Key : Type}

theorem OrdAgrees.transCmp [LinearOrder Key] {order : Ord Key} (agrees : OrdAgrees Key order)
    {cmp : Item → Item → Ordering} {place : Item → Key}
    (same : ∀ left right, cmp left right = order.compare (place left) (place right)) :
    Std.TransCmp cmp := by
  have linear : ∀ left right, cmp left right = LinearOrder.toOrd.compare (place left) (place right) :=
    fun left right => (same left right).trans (agrees.compare_eq _ _)
  have swapped : ∀ {left right}, cmp left right = (cmp right left).swap := by
    intro left right
    rw [linear, linear]
    exact Std.OrientedCmp.eq_swap
  have oriented : Std.OrientedCmp cmp := ⟨swapped⟩
  constructor
  intro first second third near far
  rw [linear] at near far ⊢
  exact Std.TransCmp.isLE_trans near far

theorem transCmp_on {cmp : Key → Key → Ordering} [Std.TransCmp cmp] (read : Item → Key) :
    Std.TransCmp fun left right => cmp (read left) (read right) := by
  have oriented : Std.OrientedCmp fun left right => cmp (read left) (read right) :=
    ⟨Std.OrientedCmp.eq_swap⟩
  exact ⟨Std.TransCmp.isLE_trans⟩

end Comparators

instance (collation : Collation) :
    Std.TransCmp fun left right : Value => left.compare right collation :=
  standing_agrees.transCmp (Value.compare_eq_standing collation)

structure SortKeyColumn where
  descending : Bool := false
  collation : Collation := .binary
  nullsFirst : Bool := true
deriving DecidableEq, Repr

def SortKeyColumn.compare (key : SortKeyColumn) (left right : Value) : Ordering :=
  match left, right with
  | .null, .null => .eq
  | .null, _ => if key.nullsFirst then .lt else .gt
  | _, .null => if key.nullsFirst then .gt else .lt
  | left, right =>
    if key.descending then (left.compare right key.collation).swap
    else left.compare right key.collation

def compareRows : List SortKeyColumn → List Value → List Value → Ordering
  | [], _, _ => .eq
  | key :: rest, left, right =>
    (key.compare (left.headD .null) (right.headD .null)).then
      (compareRows rest left.tail right.tail)

def InKeyOrder (keys : List SortKeyColumn) (left right : List Value) : Prop :=
  (compareRows keys left right).isLE = true

instance (keys : List SortKeyColumn) (left right : List Value) :
    Decidable (InKeyOrder keys left right) := inferInstanceAs (Decidable (_ = true))

/-- `SorterSort`: the buffered rows by their key values, rows of equal keys as they came. -/
def sorterSort {Row : Type} (keys : List SortKeyColumn) (buffer : List (Row × List Value)) :
    List (Row × List Value) :=
  buffer.insertionSort fun left right => InKeyOrder keys left.2 right.2

/-- NULL goes to its end of the order, and the rest by their values. -/
def SortKeyColumn.nullPlace (key : SortKeyColumn) (value : Value) : Nat :=
  if value = .null then if key.nullsFirst then 0 else 2 else 1

def SortKeyColumn.compareDirected (key : SortKeyColumn) (left right : Value) : Ordering :=
  if key.descending then right.compare left key.collation else left.compare right key.collation

theorem SortKeyColumn.compare_eq :
    key.compare = compareLex (fun left right => Ord.compare (key.nullPlace left) (key.nullPlace right))
      key.compareDirected := by
  funext left right
  have plain : left.compare right key.collation = (right.compare left key.collation).swap :=
    @Std.OrientedCmp.eq_swap _ (fun left right : Value => left.compare right key.collation) _ _ _
  unfold SortKeyColumn.compare compareLex nullPlace compareDirected
  cases key.descending <;> cases key.nullsFirst <;> cases left <;> cases right <;>
    first | rfl | simp [plain]

instance (key : SortKeyColumn) : Std.TransCmp key.compareDirected := by
  unfold SortKeyColumn.compareDirected
  cases key.descending with
  | false => exact inferInstanceAs (Std.TransCmp fun left right : Value => left.compare right _)
  | true =>
    exact @Std.TransCmp.opposite _ (fun left right : Value => left.compare right key.collation) _

instance (key : SortKeyColumn) : Std.TransCmp key.compare := by
  rw [key.compare_eq]
  have nulls : Std.TransCmp fun left right : Value =>
      Ord.compare (key.nullPlace left) (key.nullPlace right) := transCmp_on key.nullPlace
  infer_instance

theorem compareRows_cons (rest : List SortKeyColumn) :
    compareRows (key :: rest) =
      compareLex (fun left right => key.compare (left.headD .null) (right.headD .null))
        (fun left right => compareRows rest left.tail right.tail) := rfl

instance compareRows_transCmp (keys : List SortKeyColumn) : Std.TransCmp (compareRows keys) := by
  induction keys with
  | nil =>
    have oriented : Std.OrientedCmp (compareRows []) := ⟨rfl⟩
    exact ⟨fun _ _ => rfl⟩
  | cons key rest ih =>
    rw [compareRows_cons]
    have first : Std.TransCmp fun left right : List Value =>
        key.compare (left.headD .null) (right.headD .null) :=
      transCmp_on fun row : List Value => row.headD .null
    have later : Std.TransCmp fun left right : List Value =>
        compareRows rest left.tail right.tail := transCmp_on List.tail
    infer_instance

theorem InKeyOrder.total (left right : List Value) :
    InKeyOrder keys left right ∨ InKeyOrder keys right left := by
  unfold InKeyOrder
  rw [@Std.OrientedCmp.eq_swap _ (compareRows keys) _ right left]
  cases compareRows keys left right <;> simp

theorem InKeyOrder.trans {keys : List SortKeyColumn} {first second third : List Value}
    (near : InKeyOrder keys first second) (far : InKeyOrder keys second third) :
    InKeyOrder keys first third :=
  Std.TransCmp.isLE_trans near far

theorem sorterSort_pairwise_iff {wanted : Row × List Value → Row × List Value → Prop} :
    (sorterSort keys buffer).Pairwise wanted ↔
      buffer.Pairwise fun first second =>
        if InKeyOrder keys first.2 second.2 then wanted first second else wanted second first :=
  insertionSort_pairwise_iff buffer (fun first second => InKeyOrder.total keys first.2 second.2)
    fun _ _ _ => InKeyOrder.trans

theorem sorterSort_perm : (sorterSort keys buffer).Perm buffer :=
  perm_insertionSort _ _

end SqliteRs
