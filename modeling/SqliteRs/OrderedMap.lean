import Mathlib

/-!
Finite maps kept as association lists with strictly ascending keys. The
ascending order is a field, so two maps with the same lookups are equal and
the key list needs no separate sort. Later writes replace earlier ones.
-/

namespace SqliteRs

open List

structure OrderedMap (Key Value : Type) [LinearOrder Key] where
  entries : List (Key × Value)
  ascending : entries.Pairwise (fun left right => left.1 < right.1)

namespace OrderedMap

variable {Key Value : Type} [LinearOrder Key]

def find (key : Key) : List (Key × Value) → Option Value
  | [] => none
  | (first, value) :: rest => if key = first then some value else find key rest

def insertEntry (key : Key) (value : Value) : List (Key × Value) → List (Key × Value)
  | [] => [(key, value)]
  | (first, old) :: rest =>
    if key < first then (key, value) :: (first, old) :: rest
    else if key = first then (key, value) :: rest
    else (first, old) :: insertEntry key value rest

theorem insert_entry_keys (key : Key) (value : Value) (entries : List (Key × Value))
    (entry : Key × Value) (mem : entry ∈ insertEntry key value entries) :
    entry.1 = key ∨ entry ∈ entries := by
  induction entries with
  | nil =>
    simp only [insertEntry, mem_singleton] at mem
    exact Or.inl (by rw [mem])
  | cons head rest ih =>
    simp only [insertEntry] at mem
    split at mem
    · rcases mem_cons.mp mem with same | later
      · exact Or.inl (by rw [same])
      · exact Or.inr later
    split at mem
    · rcases mem_cons.mp mem with same | later
      · exact Or.inl (by rw [same])
      · exact Or.inr (mem_cons_of_mem _ later)
    rcases mem_cons.mp mem with same | later
    · exact Or.inr (by rw [same]; simp)
    rcases ih later with same | old
    · exact Or.inl same
    · exact Or.inr (mem_cons_of_mem _ old)

theorem insert_entry_ascending (key : Key) (value : Value) (entries : List (Key × Value))
    (asc : entries.Pairwise (fun left right => left.1 < right.1)) :
    (insertEntry key value entries).Pairwise (fun left right => left.1 < right.1) := by
  induction entries with
  | nil => simp [insertEntry]
  | cons head rest ih =>
    obtain ⟨above, tail⟩ := pairwise_cons.mp asc
    simp only [insertEntry]
    split
    · rename_i below
      refine pairwise_cons.mpr ⟨?_, asc⟩
      intro entry mem
      rcases mem_cons.mp mem with same | later
      · rw [same]; exact below
      · exact lt_trans below (above entry later)
    split
    · rename_i same
      refine pairwise_cons.mpr ⟨?_, tail⟩
      intro entry mem
      rw [same]
      exact above entry mem
    · rename_i notBelow differ
      refine pairwise_cons.mpr ⟨?_, ih tail⟩
      intro entry mem
      rcases insert_entry_keys key value rest entry mem with same | later
      · rw [same]
        exact lt_of_le_of_ne (not_lt.mp notBelow) (Ne.symm differ)
      · exact above entry later

def empty : OrderedMap Key Value := ⟨[], List.Pairwise.nil⟩

instance : Inhabited (OrderedMap Key Value) := ⟨empty⟩

def get (map : OrderedMap Key Value) (key : Key) : Option Value := find key map.entries

def insert (map : OrderedMap Key Value) (key : Key) (value : Value) : OrderedMap Key Value :=
  ⟨insertEntry key value map.entries, insert_entry_ascending key value _ map.ascending⟩

def erase (map : OrderedMap Key Value) (key : Key) : OrderedMap Key Value :=
  ⟨map.entries.filter (fun entry => entry.1 ≠ key), map.ascending.filter _⟩

def keys (map : OrderedMap Key Value) : List Key := map.entries.map Prod.fst

def isEmpty (map : OrderedMap Key Value) : Bool := map.entries.isEmpty

theorem find_insert_entry (key wanted : Key) (value : Value) (entries : List (Key × Value)) :
    find wanted (insertEntry key value entries) =
      if wanted = key then some value else find wanted entries := by
  induction entries with
  | nil => simp [insertEntry, find]
  | cons head rest ih =>
    obtain ⟨first, old⟩ := head
    simp only [insertEntry]
    split
    · simp [find]
    split
    · rename_i same
      subst same
      by_cases hit : wanted = key <;> simp [find, hit]
    rename_i differ
    simp only [find, ih]
    by_cases hit : wanted = first
    · subst hit
      simp [Ne.symm differ]
    · simp [hit]

theorem find_none_below (key : Key) (entries : List (Key × Value))
    (above : ∀ entry ∈ entries, key < entry.1) : find key entries = none := by
  induction entries with
  | nil => rfl
  | cons head rest ih =>
    have differ : key ≠ head.1 := ne_of_lt (above head (by simp))
    have later := ih (fun entry mem => above entry (mem_cons_of_mem _ mem))
    simp [find, differ, later]

theorem find_filter_ne (key wanted : Key) (entries : List (Key × Value)) :
    find wanted (entries.filter (fun entry => entry.1 ≠ key)) =
      if wanted = key then none else find wanted entries := by
  induction entries with
  | nil => simp [find]
  | cons head rest ih =>
    obtain ⟨first, old⟩ := head
    by_cases dropped : first = key
    · subst dropped
      simp only [ne_eq, not_true_eq_false, decide_false, Bool.false_eq_true, not_false_eq_true,
        filter_cons_of_neg, find]
      rw [ih]
      by_cases hit : wanted = first <;> simp [hit]
    · simp only [ne_eq, dropped, not_false_eq_true, decide_true, filter_cons_of_pos, find]
      rw [ih]
      by_cases hit : wanted = first
      · subst hit; simp [dropped]
      · simp [hit]

@[simp] theorem get_empty (key : Key) : (empty : OrderedMap Key Value).get key = none := rfl

@[simp] theorem get_insert (map : OrderedMap Key Value) (key wanted : Key) (value : Value) :
    (map.insert key value).get wanted = if wanted = key then some value else map.get wanted :=
  find_insert_entry key wanted value map.entries

@[simp] theorem get_erase (map : OrderedMap Key Value) (key wanted : Key) :
    (map.erase key).get wanted = if wanted = key then none else map.get wanted :=
  find_filter_ne key wanted map.entries

theorem find_some_mem (key : Key) (value : Value) (entries : List (Key × Value))
    (found : find key entries = some value) : (key, value) ∈ entries := by
  induction entries with
  | nil => simp [find] at found
  | cons head rest ih =>
    simp only [find] at found
    split at found
    · rename_i same
      cases found
      rw [same]; simp
    · exact mem_cons_of_mem _ (ih found)

theorem find_mem (key : Key) (value : Value) (entries : List (Key × Value))
    (asc : entries.Pairwise (fun left right => left.1 < right.1))
    (mem : (key, value) ∈ entries) : find key entries = some value := by
  induction entries with
  | nil => simp at mem
  | cons head rest ih =>
    obtain ⟨first, old⟩ := head
    obtain ⟨above, tail⟩ := pairwise_cons.mp asc
    rcases mem_cons.mp mem with same | later
    · cases same; simp [find]
    · have differ : key ≠ first := Ne.symm (ne_of_lt (above (key, value) later))
      simp [find, differ, ih tail later]

section

variable (map : OrderedMap Key Value)

include map

variable (key : Key)

theorem get_eq_some_iff (value : Value) : map.get key = some value ↔ (key, value) ∈ map.entries :=
  ⟨find_some_mem key value map.entries, find_mem key value map.entries map.ascending⟩

theorem get_toList : ((map.get key).map fun value => (key, value)).toList =
      map.entries.filter fun entry => decide (entry.1 = key) := by
  obtain ⟨entries, asc⟩ := map
  change ((find key entries).map fun value => (key, value)).toList = _
  induction entries with
  | nil => rfl
  | cons head rest ih =>
    obtain ⟨first, value⟩ := head
    obtain ⟨above, tail⟩ := pairwise_cons.mp asc
    by_cases here : key = first
    · subst here
      have alone : rest.filter (fun entry => decide (entry.1 = key)) = [] := by
        apply filter_eq_nil_iff.mpr
        intro entry mem
        simpa using ne_of_gt (above entry mem)
      simp [find, alone]
    · simp [find, here, Ne.symm here, ih tail]

theorem mem_keys_iff : key ∈ map.keys ↔ ∃ value, map.get key = some value := by
  simp only [keys, mem_map, get_eq_some_iff]
  constructor
  · rintro ⟨⟨first, value⟩, mem, rfl⟩
    exact ⟨value, mem⟩
  · rintro ⟨value, mem⟩
    exact ⟨(key, value), mem, rfl⟩

theorem keys_ascending : map.keys.Pairwise (· < ·) := by
  simpa only [keys, pairwise_map] using map.ascending

theorem keys_nodup : map.keys.Nodup :=
  map.keys_ascending.imp (fun below => ne_of_lt below)

end

theorem entries_ext (left right : List (Key × Value))
    (leftAscending : left.Pairwise (fun a b => a.1 < b.1))
    (rightAscending : right.Pairwise (fun a b => a.1 < b.1))
    (same : ∀ key, find key left = find key right) : left = right := by
  induction left generalizing right with
  | nil =>
    cases right with
    | nil => rfl
    | cons head rest =>
      have absent := same head.1
      simp [find] at absent
  | cons leftHead leftRest ih =>
    cases right with
    | nil =>
      have absent := same leftHead.1
      simp [find] at absent
    | cons rightHead rightRest =>
      obtain ⟨leftKey, leftValue⟩ := leftHead
      obtain ⟨rightKey, rightValue⟩ := rightHead
      obtain ⟨leftAbove, leftTail⟩ := pairwise_cons.mp leftAscending
      obtain ⟨rightAbove, rightTail⟩ := pairwise_cons.mp rightAscending
      -- The heads have one key: a smaller one would be missing from the other list.
      have notBelow : ¬ leftKey < rightKey := by
        intro below
        have missing : find leftKey ((rightKey, rightValue) :: rightRest) = none :=
          find_none_below leftKey _ (by
            intro entry mem
            rcases mem_cons.mp mem with first | later
            · rw [first]; exact below
            · exact lt_trans below (rightAbove entry later))
        have found := same leftKey
        rw [missing] at found
        simp [find] at found
      have notAbove : ¬ rightKey < leftKey := by
        intro below
        have missing : find rightKey ((leftKey, leftValue) :: leftRest) = none :=
          find_none_below rightKey _ (by
            intro entry mem
            rcases mem_cons.mp mem with first | later
            · rw [first]; exact below
            · exact lt_trans below (leftAbove entry later))
        have found := same rightKey
        rw [missing] at found
        simp [find] at found
      have keysEqual : leftKey = rightKey := le_antisymm (not_lt.mp notAbove) (not_lt.mp notBelow)
      subst keysEqual
      have valuesEqual : leftValue = rightValue := by
        have found := same leftKey
        simpa [find] using found
      subst valuesEqual
      congr 1
      apply ih rightRest leftTail rightTail
      intro key
      by_cases hit : key = leftKey
      · subst hit
        rw [find_none_below key leftRest leftAbove, find_none_below key rightRest rightAbove]
      · have found := same key
        simpa [find, hit] using found

@[ext] theorem ext (left right : OrderedMap Key Value)
    (same : ∀ key, left.get key = right.get key) : left = right := by
  obtain ⟨leftEntries, leftAscending⟩ := left
  obtain ⟨rightEntries, rightAscending⟩ := right
  congr 1
  exact entries_ext leftEntries rightEntries leftAscending rightAscending same

theorem insert_entry_perm (key : Key) (value : Value) (entries : List (Key × Value))
    (absent : find key entries = none) :
    (insertEntry key value entries).Perm ((key, value) :: entries) := by
  induction entries with
  | nil => exact Perm.refl _
  | cons head rest ih =>
    obtain ⟨first, old⟩ := head
    simp only [find] at absent
    split at absent
    · cases absent
    rename_i differ
    simp only [insertEntry]
    split
    · exact Perm.refl _
    · exact ((ih absent).cons (first, old)).trans (Perm.swap _ _ _)

theorem entries_insert_perm (map : OrderedMap Key Value) (key : Key) (value : Value)
    (absent : map.get key = none) : (map.insert key value).entries.Perm ((key, value) :: map.entries) :=
  insert_entry_perm key value map.entries absent

theorem filter_perm (key : Key) (value : Value) (entries : List (Key × Value))
    (asc : entries.Pairwise (fun left right => left.1 < right.1))
    (present : find key entries = some value) :
    entries.Perm ((key, value) :: entries.filter (fun entry => decide (entry.1 ≠ key))) := by
  induction entries with
  | nil => cases present
  | cons head rest ih =>
    obtain ⟨above, later⟩ := pairwise_cons.mp asc
    simp only [find] at present
    split at present
    · rename_i same
      subst same
      cases present
      rw [filter_cons_of_neg (by simp), filter_eq_self.mpr]
      intro entry mem
      simpa using (ne_of_gt (above entry mem))
    · rename_i differ
      rw [filter_cons_of_pos (by simpa using Ne.symm differ)]
      exact ((ih later present).cons _).trans (Perm.swap _ _ _)

theorem entries_erase_perm (map : OrderedMap Key Value) (key : Key) (value : Value)
    (present : map.get key = some value) : map.entries.Perm ((key, value) :: (map.erase key).entries) :=
  filter_perm key value map.entries map.ascending present

def writes (base : OrderedMap Key Value) : List (Key × Value) → OrderedMap Key Value
  | [] => base
  | (key, value) :: rest => writes (base.insert key value) rest

def lastWrite (key : Key) : List (Key × Value) → Option Value
  | [] => none
  | (first, value) :: rest =>
    (lastWrite key rest).or (if key = first then some value else none)

@[simp] theorem get_writes (base : OrderedMap Key Value) (list : List (Key × Value)) (key : Key) :
    (base.writes list).get key = (lastWrite key list).or (base.get key) := by
  induction list generalizing base with
  | nil => simp [writes, lastWrite]
  | cons head rest ih =>
    obtain ⟨first, value⟩ := head
    simp only [writes, ih, lastWrite]
    by_cases hit : key = first <;> simp [hit]

theorem last_write_append (key : Key) (left right : List (Key × Value)) :
    lastWrite key (left ++ right) = (lastWrite key right).or (lastWrite key left) := by
  induction left with
  | nil => simp [lastWrite]
  | cons head rest ih =>
    simp [lastWrite, ih, Option.or_assoc]

theorem last_write_eq_none_iff (key : Key) (list : List (Key × Value)) :
    lastWrite key list = none ↔ ∀ entry ∈ list, entry.1 ≠ key := by
  induction list with
  | nil => simp [lastWrite]
  | cons head rest ih =>
    obtain ⟨first, value⟩ := head
    by_cases hit : key = first
    · simp [lastWrite, hit]
    · simp [lastWrite, hit, ih, Ne.symm hit]

theorem mem_of_last_write (key : Key) (value : Value) (list : List (Key × Value))
    (found : lastWrite key list = some value) : (key, value) ∈ list := by
  induction list with
  | nil => simp [lastWrite] at found
  | cons head rest ih =>
    cases later : lastWrite key rest with
    | some written =>
      rw [lastWrite, later] at found
      exact mem_cons_of_mem _ (ih (later.trans found))
    | none =>
      rw [lastWrite, later] at found
      split at found
      · rename_i hit
        cases found
        rw [hit]
        exact mem_cons_self
      · cases found

theorem last_write_entries (map : OrderedMap Key Value) (key : Key) :
    lastWrite key map.entries = map.get key := by
  obtain ⟨entries, asc⟩ := map
  simp only [get]
  induction entries with
  | nil => rfl
  | cons head rest ih =>
    obtain ⟨first, value⟩ := head
    obtain ⟨above, tail⟩ := pairwise_cons.mp asc
    simp only [lastWrite, find, ih tail]
    by_cases hit : key = first
    · subst hit
      simp [find_none_below key rest above]
    · simp [hit]

end OrderedMap

end SqliteRs
