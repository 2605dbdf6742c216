import Mathlib.Data.List.Perm.Basic
import Mathlib.Data.List.Nodup
import Mathlib.Data.List.TakeWhile

/-!
Ordered walks and the answers they gather. A search lands somewhere in a list,
and a walk takes items from there until a test fails. When the tests follow the
order of the list, the walk is a filter. Several probes of one list answer a
question exactly when each wanted item is met once and no other item is met.
-/

namespace SqliteRs

open List

section Walk

variable {Item : Type}

def Downward (test : Item → Bool) (items : List Item) : Prop :=
  items.Pairwise fun earlier later => test later = true → test earlier = true

/-- Where a search can land: behind an item below the target, in front of one
that is not. In a list out of order there can be several such places. -/
def LandsAt (below : Item → Bool) (items after : List Item) : Prop :=
  ∃ before, items = before ++ after ∧ (∀ item ∈ before.getLast?, below item = true) ∧
    ∀ item ∈ after.head?, below item = false

variable {test : Item → Bool} {items : List Item}

theorem takeWhile_downward (downward : Downward test items) :
    items.takeWhile test = items.filter test := by
  induction items with
  | nil => rfl
  | cons item rest ih =>
    obtain ⟨first, later⟩ := pairwise_cons.mp downward
    by_cases passes : test item = true
    · rw [takeWhile_cons_of_pos passes, filter_cons_of_pos passes, ih later]
    rw [takeWhile_cons_of_neg passes, filter_cons_of_neg passes]
    symm
    apply filter_eq_nil_iff.mpr
    intro other mem holds
    exact passes (first other mem holds)

theorem downward_split (downward : Downward test items) :
    items = items.filter test ++ items.filter fun item => !test item := by
  induction items with
  | nil => rfl
  | cons item rest ih =>
    obtain ⟨first, later⟩ := pairwise_cons.mp downward
    by_cases passes : test item = true
    · rw [filter_cons_of_pos passes, filter_cons_of_neg (by simp [passes]), cons_append, ← ih later]
    have none : rest.filter test = [] := by
      apply filter_eq_nil_iff.mpr
      intro other mem holds
      exact passes (first other mem holds)
    have all : (rest.filter fun item => !test item) = rest := by
      apply filter_eq_self.mpr
      intro other mem
      simpa using filter_eq_nil_iff.mp none other mem
    rw [filter_cons_of_neg passes, filter_cons_of_pos (by simp [passes]), none, all, nil_append]

theorem LandsAt.filter {below : Item → Bool} {after : List Item} (lands : LandsAt below items after)
    (downward : Downward below items) : after = items.filter fun item => !below item := by
  obtain ⟨before, rfl, last, head⟩ := lands
  obtain ⟨inFront, behind, -⟩ := pairwise_append.mp downward
  have passed : before.filter (fun item => !below item) = [] := by
    rcases eq_nil_or_concat' before with rfl | ⟨front, item, rfl⟩
    · rfl
    have lastBelow : below item = true := last item (by simp)
    obtain ⟨-, -, ordered⟩ := pairwise_append.mp inFront
    apply filter_eq_nil_iff.mpr
    intro other mem
    have otherBelow : below other = true := by
      rcases mem_append.mp mem with earlier | same
      · exact ordered other earlier item (mem_singleton_self item) lastBelow
      · rw [mem_singleton.mp same]
        exact lastBelow
    simp [otherBelow]
  have reached : after.filter (fun item => !below item) = after := by
    apply filter_eq_self.mpr
    intro other mem
    cases after with
    | nil => cases mem
    | cons first rest =>
      have notBelow : below first = false := head first rfl
      rcases mem_cons.mp mem with rfl | later
      · simp [notBelow]
      cases otherBelow : below other with
      | false => rfl
      | true =>
        have := rel_of_pairwise_cons behind later otherBelow
        rw [notBelow] at this
        cases this
  rw [filter_append, passed, reached, nil_append]

end Walk

section Gather

theorem perm_map_preimage {First Second : Type} {image : First → Second} {items : List Second}
    {sources : List First} (perm : items.Perm (sources.map image)) :
    ∃ ordered : List First, ordered.Perm sources ∧ items = ordered.map image := by
  generalize mapped : sources.map image = others at perm
  induction perm generalizing sources with
  | nil => exact ⟨[], by rw [map_eq_nil_iff.mp mapped], rfl⟩
  | cons item _ ih =>
    obtain ⟨src, rest, rfl, rfl, tail⟩ := map_eq_cons_iff.mp mapped
    obtain ⟨ordered, perm, rfl⟩ := ih tail
    exact ⟨src :: ordered, perm.cons src, rfl⟩
  | swap first second rest =>
    obtain ⟨one, others, rfl, rfl, tail⟩ := map_eq_cons_iff.mp mapped
    obtain ⟨two, more, rfl, rfl, last⟩ := map_eq_cons_iff.mp tail
    exact ⟨two :: one :: more, .swap _ _ _, by simp [last]⟩
  | trans _ _ ihFirst ihSecond =>
    obtain ⟨middle, near, rfl⟩ := ihSecond mapped
    obtain ⟨ordered, perm, rfl⟩ := ihFirst rfl
    exact ⟨ordered, perm.trans near, rfl⟩

variable {Row Probe : Type} [DecidableEq Row]

/-- Every wanted row is met by one probe, and no other row by any. -/
def MetOnce (rows : List Row) (probes : List Probe) (hits : Probe → Row → Bool)
    (wanted : Row → Bool) : Prop :=
  ∀ row ∈ rows, probes.countP (hits · row) = if wanted row then 1 else 0

variable {rows ordered : List Row} {probes : List Probe} {hits : Probe → Row → Bool}
  {wanted : Row → Bool}

omit [DecidableEq Row] in
theorem metOnce_iff : MetOnce rows probes hits wanted ↔ (∀ row ∈ rows, probes.countP (hits · row) ≤ 1) ∧
        ∀ row ∈ rows, wanted row = true ↔ ∃ probe ∈ probes, hits probe row = true := by
  constructor
  · intro met
    constructor
    · intro row mem
      rw [met row mem]
      split <;> omega
    · intro row mem
      rw [← countP_pos_iff, met row mem]
      cases wanted row <;> simp
  · rintro ⟨once, agrees⟩ row mem
    cases keep : wanted row with
    | true =>
      have met := countP_pos_iff.mpr ((agrees row mem).mp keep)
      have atMost := once row mem
      simp only [if_true]
      omega
    | false =>
      apply countP_eq_zero.mpr
      intro probe inside hit
      rw [(agrees row mem).mpr ⟨probe, inside, hit⟩] at keep
      cases keep

omit [DecidableEq Row] in
theorem MetOnce.perm {others : List Row} (perm : rows.Perm others) :
    MetOnce rows probes hits wanted ↔ MetOnce others probes hits wanted :=
  forall_congr' fun _ => imp_congr_left perm.mem_iff

theorem count_gathered (nodup : rows.Nodup) (probes : List Probe) (hits : Probe → Row → Bool)
    (row : Row) (mem : row ∈ rows) : (probes.flatMap fun probe => rows.filter (hits probe)).count row =
      probes.countP (hits · row) := by
  induction probes with
  | nil => rfl
  | cons probe rest ih =>
    rw [flatMap_cons, count_append, ih, countP_cons]
    cases hit : hits probe row with
    | true =>
      rw [count_filter hit, count_eq_one_of_mem nodup mem]
      simp [Nat.add_comm]
    | false =>
      rw [count_eq_zero_of_not_mem (by simp [hit])]
      simp

theorem gathered_perm_iff (nodup : rows.Nodup) (probes : List Probe) (hits : Probe → Row → Bool)
    (wanted : Row → Bool) :
    (probes.flatMap fun probe => rows.filter (hits probe)).Perm (rows.filter wanted) ↔
      MetOnce rows probes hits wanted := by
  have wantedCount : ∀ row ∈ rows, (rows.filter wanted).count row =
      if wanted row then 1 else 0 := by
    intro row mem
    cases keep : wanted row with
    | true => rw [count_filter keep, count_eq_one_of_mem nodup mem]; rfl
    | false => exact count_eq_zero_of_not_mem (by simp [keep])
  rw [perm_iff_count]
  constructor
  · intro same row mem
    rw [← count_gathered nodup probes hits row mem, same row, wantedCount row mem]
  intro once row
  by_cases mem : row ∈ rows
  · rw [count_gathered nodup probes hits row mem, once row mem, wantedCount row mem]
  rw [count_eq_zero_of_not_mem, count_eq_zero_of_not_mem]
  · simp [mem]
  · simp [mem]

theorem gathered_ordered_perm_iff (nodup : rows.Nodup) (perm : ordered.Perm rows)
    (probes : List Probe) (hits : Probe → Row → Bool) (wanted : Row → Bool) :
    (probes.flatMap fun probe => ordered.filter (hits probe)).Perm (rows.filter wanted) ↔
      MetOnce rows probes hits wanted := by
  rw [← MetOnce.perm perm, ← gathered_perm_iff (perm.nodup_iff.mpr nodup)]
  constructor
  · exact fun gathered => gathered.trans (perm.filter wanted).symm
  · exact fun gathered => gathered.trans (perm.filter wanted)

theorem filter_perm_iff (nodup : rows.Nodup) (perm : ordered.Perm rows) (hits wanted : Row → Bool) :
    (ordered.filter hits).Perm (rows.filter wanted) ↔ ∀ row ∈ rows, wanted row = hits row := by
  have single := gathered_ordered_perm_iff nodup perm [()] (fun _ => hits) wanted
  simp only [flatMap_cons, flatMap_nil, append_nil] at single
  rw [single]
  apply forall₂_congr
  intro row _
  cases meets : hits row <;> cases wanted row <;> simp [meets]

theorem take_one_filter (nodup : rows.Nodup) (test : Row → Bool) :
    (rows.filter test).take 1 = rows.filter fun row => decide (rows.find? test = some row) := by
  induction rows with
  | nil => rfl
  | cons row rest ih =>
    obtain ⟨fresh, nodup⟩ := nodup_cons.mp nodup
    cases passes : test row with
    | true =>
      have others : ∀ other ∈ rest, ¬ row = other := fun other mem same => fresh (same ▸ mem)
      simpa [passes] using others
    | false =>
      have behind : ¬ rest.find? test = some row := fun found => fresh (mem_of_find?_eq_some found)
      rw [filter_cons_of_neg (by simp [passes]), ih nodup]
      simp [passes, behind]

end Gather

end SqliteRs
