import Mathlib.Data.List.Nodup

/-!
Statements that change the rows they go through. The rows are taken in order,
and a condition is asked about each one while the earlier ones have been dealt
with already. The outcome is the one of a condition asked at the start when the
condition does not notice what was done before.
-/

namespace SqliteRs

open List

section Delete

variable {Row : Type} (holds : List Row → Row → Bool)

/-- Deletes rows one by one; the condition sees the rows kept so far and those to come. -/
def deleteLive : List Row → List Row → List Row
  | kept, [] => kept
  | kept, row :: later =>
    if holds (kept ++ row :: later) row then deleteLive kept later
    else deleteLive (kept ++ [row]) later

def survivors (rows : List Row) : List Row := rows.filter fun row => !holds rows row

/-- Without the rows deleted before it, every row gets the answer it got at the start. -/
def AnswersStable (rows : List Row) : Prop :=
  ∀ before row after, rows = before ++ row :: after →
    holds ((before.filter fun earlier => !holds rows earlier) ++ row :: after) row = holds rows row

variable {holds} {rows : List Row}

theorem deleteLive_cons (kept : List Row) (row : Row) (later : List Row) :
    deleteLive holds kept (row :: later) =
      if holds (kept ++ row :: later) row then deleteLive holds kept later
      else deleteLive holds (kept ++ [row]) later := rfl

variable {kept before after : List Row} {row : Row}

theorem deleteLive_mem {pending : List Row} (mem : row ∈ deleteLive holds kept pending) :
    row ∈ kept ∨ row ∈ pending := by
  induction pending generalizing kept with
  | nil => exact .inl mem
  | cons first later ih =>
    unfold deleteLive at mem
    split at mem
    · rcases ih mem with old | new
      · exact .inl old
      · exact .inr (.tail _ new)
    rcases ih mem with old | new
    · rcases mem_append.mp old with kept | here
      · exact .inl kept
      · exact .inr (mem_singleton.mp here ▸ .head _)
    · exact .inr (.tail _ new)

theorem deleteLive_keeps (pending : List Row) (mem : row ∈ kept) :
    row ∈ deleteLive holds kept pending := by
  induction pending generalizing kept with
  | nil => exact mem
  | cons first later ih =>
    unfold deleteLive
    split
    · exact ih mem
    · exact ih (mem_append_left _ mem)

theorem deleteLive_of_stable (stable : AnswersStable holds rows) (whole : rows = before ++ after) :
    deleteLive holds (before.filter fun row => !holds rows row) after = survivors holds rows := by
  induction after generalizing before with
  | nil =>
    rw [whole, append_nil]
    rfl
  | cons row later ih =>
    have onward : rows = (before ++ [row]) ++ later := by
      rw [whole, append_assoc]
      rfl
    have next := ih onward
    unfold deleteLive
    rw [stable before row later whole]
    rw [filter_append] at next
    cases answer : holds rows row with
    | true | false =>
      rw [filter_singleton, answer] at next
      simpa using next

theorem stable_of_deleteLive (nodup : rows.Nodup) (whole : rows = before ++ after)
    (exact : deleteLive holds (before.filter fun row => !holds rows row) after =
      survivors holds rows) : ∀ between row rest, after = between ++ row :: rest →
      holds (((before ++ between).filter fun earlier => !holds rows earlier) ++ row :: rest) row =
        holds rows row := by
  induction after generalizing before with
  | nil => exact fun between row rest split => absurd split (by simp)
  | cons first later ih =>
    have onward : rows = (before ++ [first]) ++ later := by
      rw [whole, append_assoc]
      rfl
    obtain ⟨_, laterDistinct, apart⟩ := nodup_append.mp (whole ▸ nodup)
    have fresh : first ∉ before ∧ first ∉ later :=
      ⟨fun inside => apart first inside first (.head _) rfl, (nodup_cons.mp laterDistinct).1⟩
    have listed : first ∈ rows := whole ▸ mem_append_right _ (.head _)
    unfold deleteLive at exact
    -- A deleted row is not among the survivors, a kept one is.
    have answer : holds ((before.filter fun row => !holds rows row) ++ first :: later) first =
        holds rows first := by
      split at exact
      · rename_i deleted
        rw [deleted]
        by_contra kept
        have still : holds rows first = false := Bool.eq_false_iff.mpr (Ne.symm kept)
        have survives : first ∈ survivors holds rows := mem_filter.mpr ⟨listed, by rw [still]; rfl⟩
        rw [← exact] at survives
        rcases deleteLive_mem survives with early | late
        · exact fresh.1 (mem_of_mem_filter early)
        · exact fresh.2 late
      · rename_i kept
        have survives : first ∈ survivors holds rows := by
          rw [← exact]
          exact deleteLive_keeps later (mem_append_right _ (.head _))
        have still := (mem_filter.mp survives).2
        rw [Bool.not_eq_true] at kept
        rw [kept]
        simpa using still
    rw [answer] at exact
    have next : deleteLive holds ((before ++ [first]).filter fun row => !holds rows row) later =
        survivors holds rows := by
      rw [filter_append, filter_singleton]
      cases held : holds rows first with
      | true | false =>
        rw [held] at exact
        simpa using exact
    intro between row rest split
    cases between with
    | nil =>
      cases split
      rw [append_nil]
      exact answer
    | cons _ between =>
      cases split
      have onwards := ih onward next between row rest rfl
      rwa [append_assoc] at onwards

theorem deleteLive_eq_survivors_iff (nodup : rows.Nodup) :
    deleteLive holds [] rows = survivors holds rows ↔ AnswersStable holds rows := by
  constructor
  · intro exact before row after split
    have answers := stable_of_deleteLive nodup (nil_append rows).symm exact before row after split
    rwa [nil_append] at answers
  · intro stable
    exact deleteLive_of_stable stable (nil_append rows).symm

end Delete

end SqliteRs
