import SqliteRs.OrderedMap

/-!
Logs whose entries take effect in groups. An entry that commits closes the group
of entries before it; entries after the last commit have no effect. A scan that
applies every entry at once and keeps the old values of the open group reaches
the same map once the open group is undone.
-/

namespace SqliteRs

open List

namespace CommitLog

variable {Entry : Type} (commits : Entry → Bool)

def committed : List Entry → List Entry
  | [] => []
  | entry :: rest =>
    if (entry :: rest).any commits then entry :: committed rest else []

def uncommitted : List Entry → List Entry
  | [] => []
  | entry :: rest =>
    if (entry :: rest).any commits then uncommitted rest else entry :: rest

variable (entries left right : List Entry)

theorem committed_append_uncommitted :
    committed commits entries ++ uncommitted commits entries = entries := by
  induction entries with
  | nil => rfl
  | cons entry rest ih =>
    by_cases closed : (entry :: rest).any commits = true
    · simp [committed, uncommitted, closed, cons_append, ih]
    · simp [committed, uncommitted, closed, nil_append, Bool.false_eq_true]

theorem committed_eq_nil (unclosed : entries.any commits = false) : committed commits entries = [] := by
  cases entries with
  | nil => rfl
  | cons entry rest =>
    simp [committed, unclosed, Bool.false_eq_true]

theorem committed_eq_nil_iff : committed commits entries = [] ↔ entries.any commits = false := by
  constructor
  swap
  · exact committed_eq_nil commits entries
  intro empty
  cases entries with
  | nil => rfl
  | cons entry rest =>
    by_cases closed : (entry :: rest).any commits = true
    · simp only [committed, closed] at empty
      cases empty
    · exact Bool.not_eq_true _ ▸ closed

theorem uncommitted_unclosed : (uncommitted commits entries).any commits = false := by
  induction entries with
  | nil => rfl
  | cons entry rest ih =>
    by_cases closed : (entry :: rest).any commits = true
    · simpa only [uncommitted, closed, if_true] using ih
    · simp [uncommitted, closed, Bool.false_eq_true]

theorem committed_append_closed (closed : right.any commits = true) :
    committed commits (left ++ right) = left ++ committed commits right := by
  induction left with
  | nil => rfl
  | cons entry rest ih =>
    have whole : (entry :: (rest ++ right)).any commits = true := by
      simp [any_cons, any_append, closed, Bool.or_true]
    simp [cons_append, committed, whole, ih]

theorem committed_append_unclosed (unclosed : right.any commits = false) :
    committed commits (left ++ right) = committed commits left := by
  induction left with
  | nil => exact committed_eq_nil commits right unclosed
  | cons entry rest ih =>
    have same : (entry :: (rest ++ right)).any commits = (entry :: rest).any commits := by
      simp [any_cons, any_append, unclosed, Bool.or_false]
    simp [cons_append, committed, same, ih]

theorem committed_concat (last : Entry) (closing : commits last = true) :
    committed commits (entries ++ [last]) = entries ++ [last] := by
  rw [committed_append_closed commits entries [last] (by simp [closing])]
  simp [committed, closing]

section Undo

variable {Key Value : Type} [LinearOrder Key] (key : Entry → Key) (value : Entry → Value)

def restore (map : OrderedMap Key Value) : List (Key × Option Value) → OrderedMap Key Value
  | [] => map
  | (saved, some old) :: rest => restore (map.insert saved old) rest
  | (saved, none) :: rest => restore (map.erase saved) rest

def effects (entries : List Entry) : List (Key × Value) :=
  entries.map fun entry => (key entry, value entry)

structure Scan (Key Value : Type) [LinearOrder Key] where
  map : OrderedMap Key Value
  undo : List (Key × Option Value)

/-- Applies one entry at once, saving what it replaces unless it commits. -/
def Scan.apply (scan : Scan Key Value) (entry : Entry) : Scan Key Value :=
  { map := scan.map.insert (key entry) (value entry)
    undo := if commits entry then [] else (key entry, scan.map.get (key entry)) :: scan.undo }

theorem restore_insert_saved (map : OrderedMap Key Value) (saved : Key) (new : Value)
    (undo : List (Key × Option Value)) :
    restore (map.insert saved new) ((saved, map.get saved) :: undo) = restore map undo := by
  cases before : map.get saved with
  | none | some =>
    simp only [restore]
    congr 1
    ext1 wanted
    by_cases hit : wanted = saved
    · simp [hit, before]
    · simp [hit]

theorem restore_scan (entries : List Entry) (start : Scan Key Value) :
    restore (entries.foldl (Scan.apply commits key value) start).map
        (entries.foldl (Scan.apply commits key value) start).undo =
      if entries.any commits
        then start.map.writes (effects key value (committed commits entries))
        else restore start.map start.undo := by
  induction entries generalizing start with
  | nil => rfl
  | cons entry rest ih =>
    rw [foldl_cons, ih]
    by_cases later : rest.any commits = true
    · have whole : (entry :: rest).any commits = true := by simp [later]
      simp [later, whole, committed, effects, map_cons, OrderedMap.writes, Scan.apply]
    have unclosed : rest.any commits = false := Bool.not_eq_true _ ▸ later
    by_cases closing : commits entry = true
    · have whole : (entry :: rest).any commits = true := by simp [closing]
      simp [unclosed, whole, Bool.false_eq_true, committed, Scan.apply, closing, restore,
        committed_eq_nil commits rest unclosed, effects, map_cons, map_nil, OrderedMap.writes]
    · have whole : (entry :: rest).any commits = false := by
        simpa [unclosed] using closing
      simp only [unclosed, whole, Scan.apply, closing]
      exact restore_insert_saved start.map (key entry) (value entry) start.undo

end Undo

end CommitLog

end SqliteRs
