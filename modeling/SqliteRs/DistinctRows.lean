import SqliteRs.JoinProbe
import SqliteRs.FullJoin
import SqliteRs.RecordFormat

/-!
DISTINCT and UNION keep a row when the record of its values is new to an ephemeral index. One
row of each class of equal rows is kept exactly when equal rows have one record. DISTINCT
compiles the result list once for the index and once more for the row that it shows, so that a
parameter in it has two numbers.
-/

namespace SqliteRs

open List Function

section KeepNew

variable {Item Key : Type} [DecidableEq Key] (key : Item → Key)

/-- `Found`, and for a new key `IdxInsert`; the index holds the keys of the kept items. -/
def distinctStep (kept : List Item) (item : Item) : Option (List Item) :=
  if key item ∈ kept.map key then some kept
  else (idxInsert (kept.map key) (key item)).map fun _ => kept ++ [item]

def keepNew (kept items : List Item) : List Item :=
  items.foldl (fun kept item => if key item ∈ kept.map key then kept else kept ++ [item]) kept

def OneEach (like : Item → Item → Bool) (items out : List Item) : Prop :=
  out.Pairwise (fun one other => like one other = false) ∧ out ⊆ items ∧
    ∀ item ∈ items, ∃ kept ∈ out, like kept item = true

variable {key}

theorem keepNew_cons (kept : List Item) (item : Item) (rest : List Item) :
    keepNew key kept (item :: rest) =
      keepNew key (if key item ∈ kept.map key then kept else kept ++ [item]) rest := rfl

theorem keepNew_congr {Other : Type} [DecidableEq Other] {tag : Item → Other}
    {kept items : List Item} (same : ∀ one ∈ kept ++ items, ∀ other ∈ kept ++ items,
      key one = key other ↔ tag one = tag other) :
    keepNew key kept items = keepNew tag kept items := by
  induction items generalizing kept with
  | nil => rfl
  | cons item rest ih =>
    have found : key item ∈ kept.map key ↔ tag item ∈ kept.map tag := by
      simp only [mem_map]
      refine exists_congr fun one => and_congr_right fun held => ?_
      exact same one (mem_append_left _ held) item (by simp)
    simp only [keepNew_cons, found]
    apply ih
    split <;> exact fun one here other there => same one (by grind) other (by grind)

theorem keepNew_front (kept items : List Item) :
    ∃ more, keepNew key kept items = kept ++ more ∧ more ⊆ items := by
  induction items generalizing kept with
  | nil => exact ⟨[], by simp [keepNew]⟩
  | cons item rest ih =>
    rw [keepNew_cons]
    split
    · obtain ⟨more, same, inside⟩ := ih kept
      exact ⟨more, same, fun held member => .tail _ (inside member)⟩
    · obtain ⟨more, same, inside⟩ := ih (kept ++ [item])
      exact ⟨item :: more, by simp [same], cons_subset_cons item inside⟩

theorem keepNew_covers (kept items : List Item) :
    ∀ item ∈ items, ∃ held ∈ keepNew key kept items, key held = key item := by
  induction items generalizing kept with
  | nil => simp
  | cons item rest ih =>
    rw [forall_mem_cons, keepNew_cons]
    refine ⟨?_, ih _⟩
    split
    · rename_i found
      obtain ⟨held, member, same⟩ := mem_map.mp found
      obtain ⟨more, grown, -⟩ := @keepNew_front _ _ _ key kept rest
      exact ⟨held, by simp [grown, member], same⟩
    · obtain ⟨more, grown, -⟩ := @keepNew_front _ _ _ key (kept ++ [item]) rest
      exact ⟨item, by simp [grown], rfl⟩

theorem keepNew_subset (items : List Item) : keepNew key [] items ⊆ items := by
  obtain ⟨more, same, inside⟩ := @keepNew_front _ _ _ key [] items
  simpa [same] using inside

theorem nodup_keepNew {kept : List Item} (nodup : (kept.map key).Nodup) (items : List Item) :
    ((keepNew key kept items).map key).Nodup := by
  induction items generalizing kept with
  | nil => exact nodup
  | cons item rest ih =>
    rw [keepNew_cons]
    apply ih
    split
    · exact nodup
    · rename_i new
      simpa [nodup_append, nodup] using new

theorem keepNew_filter {test : Item → Bool}
    (agree : ∀ one other, key one = key other → test one = test other) (kept items : List Item) :
    (keepNew key kept items).filter test = keepNew key (kept.filter test) (items.filter test) := by
  induction items generalizing kept with
  | nil => rfl
  | cons item rest ih =>
    rw [keepNew_cons, ih]
    cases held : test item with
    | false => split <;> simp [held]
    | true =>
      have found : key item ∈ kept.map key ↔ key item ∈ (kept.filter test).map key := by
        simp only [mem_map, mem_filter]
        refine exists_congr fun one => ⟨fun same => ⟨⟨same.1, ?_⟩, same.2⟩,
          fun same => ⟨same.1.1, same.2⟩⟩
        rw [agree one item same.2, held]
      rw [filter_cons_of_pos held, keepNew_cons]
      simp only [found]
      split <;> simp [held]

theorem length_keepNew (items : List Item) :
    (keepNew key [] items).length = (items.map key).dedup.length := by
  rw [← length_map key]
  apply List.Perm.length_eq
  rw [perm_ext_iff_of_nodup (nodup_keepNew (by simp) items) (nodup_dedup _)]
  intro found
  rw [mem_dedup]
  constructor
  · exact fun member => map_subset key (keepNew_subset items) member
  intro member
  obtain ⟨item, inside, rfl⟩ := mem_map.mp member
  obtain ⟨held, kept, same⟩ := @keepNew_covers _ _ _ key [] items item inside
  exact mem_map.mpr ⟨held, kept, same⟩

theorem foldlM_distinctStep {kept : List Item} (fits : kept.length ≤ maxEphemeralRows)
    (items : List Item) :
    items.foldlM (distinctStep key) kept =
      if (keepNew key kept items).length ≤ maxEphemeralRows then some (keepNew key kept items)
      else none := by
  induction items generalizing kept with
  | nil => exact (if_pos fits).symm
  | cons item rest ih =>
    rw [foldlM_cons, keepNew_cons, distinctStep]
    split
    · exact ih fits
    rename_i new
    unfold idxInsert
    split
    · rename_i full
      obtain ⟨more, grown, -⟩ := @keepNew_front _ _ _ key (kept ++ [item]) rest
      have beyond := full.2
      rw [length_map] at beyond
      rw [if_neg (by simp only [grown, length_append, length_singleton]; omega)]
      rfl
    · rename_i room
      apply ih
      simp only [length_append, length_map, not_and, not_le] at room ⊢
      exact room new

/-- Keeping what is new by its key keeps one of each class exactly when like items have one
key. -/
theorem keepNew_oneEach_iff {like : Item → Item → Bool} {items : List Item}
    (laws : Equivalence fun one other => like one other = true)
    (keyed : ∀ one ∈ items, ∀ other ∈ items, key one = key other → like one other = true) :
    OneEach like items (keepNew key [] items) ↔
      ∀ one ∈ items, ∀ other ∈ items, like one other = true → key one = key other := by
  have inside := @keepNew_subset _ _ _ key items
  constructor
  · rintro ⟨apart, -, -⟩ one here other there both
    have covers := @keepNew_covers _ _ _ key [] items
    obtain ⟨first, kept, same⟩ := covers one here
    obtain ⟨second, also, equal⟩ := covers other there
    by_contra differ
    have nodup : first ≠ second := fun joined => differ (by rw [← same, joined, equal])
    have even : Std.Symm fun one other => like one other = false := ⟨fun _ _ no =>
      Bool.eq_false_iff.mpr fun yes => Bool.eq_false_iff.mp no (laws.symm yes)⟩
    have unlike := apart.forall kept also nodup
    have joined := laws.trans (laws.trans (keyed _ (inside kept) _ here same) both)
      (laws.symm (keyed _ (inside also) _ there equal))
    simp [unlike] at joined
  · intro exact
    refine ⟨?_, inside, fun item member => ?_⟩
    · have differ := pairwise_map.mp (@nodup_keepNew _ _ _ key [] (by simp) items)
      refine differ.imp_of_mem fun {one other} here there apart => ?_
      exact Bool.eq_false_iff.mpr fun both => apart (exact one (inside here) other (inside there) both)
    · obtain ⟨held, kept, same⟩ := @keepNew_covers _ _ _ key [] items item member
      exact ⟨held, kept, keyed held (inside kept) item member same⟩

end KeepNew

variable (coll : Collation) (value : Value)

theorem Value.compare_eq_iff (left right : Value) :
    left.compare right coll = .eq ↔ left.standing coll = right.standing coll := by
  rw [Value.compare_eq_standing]
  exact standing_agrees.eq _ _

theorem standing_encodedKey : (encodedKey coll value).standing .binary = value.standing coll := by
  cases value <;> rfl

theorem compare_of_encodedKey {coll : Collation} {left right : Value}
    (same : encodedKey coll left = encodedKey coll right) : left.compare right coll = .eq := by
  rw [Value.compare_eq_iff, ← standing_encodedKey, same, standing_encodedKey]

theorem encodedKey_binary : encodedKey .binary value = value := by
  cases value <;> rfl

/-- The text of a key is not longer than the text that it is folded from. -/
theorem encodedTextLen_fold (chars : List Char) :
    encodedTextLen (coll.fold chars) .utf8 ≤ encodedTextLen chars .utf8 := by
  have lower (char : Char) : char.toLower.utf8Size = char.utf8Size := by
    unfold Char.toLower
    split
    · rename_i upper
      have last : char.val.toNat ≤ 90 := UInt32.le_iff_toNat_le.mp upper.2
      have low : char.val ≤ 0x7f := UInt32.le_iff_toNat_le.mpr (last.trans (by decide))
      have high : char.val + 32 ≤ 0x7f := by
        rw [UInt32.le_iff_toNat_le, UInt32.toNat_add, show UInt32.toNat 32 = 32 from rfl,
          show UInt32.toNat 0x7f = 127 from rfl]
        omega
      simp [Char.utf8Size, low, high]
    · rfl
  cases coll with
  | binary => exact le_rfl
  | noCase => simp [encodedTextLen, Collation.fold, length_flatMap, Function.comp_def, lower]
  | rTrim =>
    have shorter := rdropWhile_prefix (fun char => decide (char = ' ')) chars
    exact (shorter.sublist.flatMap _).length_le

variable {value} in
theorem encodedKey_held (held : value.Held) : (encodedKey coll value).Held := by
  cases value with
  | text chars => exact (encodedTextLen_fold coll chars).trans_lt held
  | _ => exact held

/-- An expression as it is compiled: the parameters in it in their order, and what it is for
the values that they read. -/
structure Compiled (Result : Type) where
  params : List ParamKind := []
  eval : List Value → Result

namespace Compiled

variable {Result : Type} (bindings : Bindings)

def behind (number : Nat) (expr : Compiled Result) : Result :=
  expr.eval (readParams bindings number expr.params).1

def after (number : Nat) (expr : Compiled Result) : Nat :=
  (readParams bindings number expr.params).2

/-- Expressions that are compiled one behind the other. -/
def allBehind : Nat → List (Compiled Result) → List Result
  | _, [] => []
  | number, expr :: rest =>
    expr.behind bindings number :: allBehind (expr.after bindings number) rest

def lastAfter (number : Nat) (exprs : List (Compiled Result)) : Nat :=
  exprs.foldl (after bindings) number

theorem length_allBehind (number : Nat) (exprs : List (Compiled Result)) :
    (allBehind bindings number exprs).length = exprs.length := by
  induction exprs generalizing number with
  | nil => rfl
  | cons expr rest ih => rw [allBehind, length_cons, ih, length_cons]

end Compiled

inductive DistinctShape where
  | table (schema : TableSchema)
  | join
  | union

/-- A result column: `inherited` is the collation SQL gives it where the exact lookup of its
name finds none, as for a column in other letter case, in parentheses or of a join. -/
structure ResultTerm (Row : Type) where
  value : Compiled (Row → Value)
  name : Option String := none
  collate : Option Collation := none
  inherited : Collation := .binary

/-- Values that are equal under the collations of their columns. -/
def sameValues : List Collation → List Value → List Value → Bool
  | collation :: collations, one :: ones, other :: others =>
    one.compare other collation == .eq && sameValues collations ones others
  | _, ones, others => ones == others

theorem sameValues_equivalence (collations : List Collation) :
    Equivalence fun ones others => sameValues collations ones others = true := by
  induction collations with
  | nil => simpa [sameValues] using eq_equivalence
  | cons collation rest ih =>
    refine ⟨fun ones => ?_, fun {ones others} same => ?_, fun {ones others more} same next => ?_⟩
    · cases ones with
      | nil => rfl
      | cons one ones => simpa [sameValues, Value.compare_eq_iff] using ih.refl ones
    · cases ones <;> cases others
      case cons.cons =>
        simp only [sameValues, Bool.and_eq_true, beq_iff_eq, Value.compare_eq_iff] at same ⊢
        exact ⟨same.1.symm, ih.symm same.2⟩
      all_goals simp_all [sameValues]
    · cases ones <;> cases others <;> cases more
      case cons.cons.cons =>
        simp only [sameValues, Bool.and_eq_true, beq_iff_eq, Value.compare_eq_iff] at same next ⊢
        exact ⟨same.1.trans next.1, ih.trans same.2 next.2⟩
      all_goals simp_all [sameValues]

section Distinct

variable {Row : Type} (shape : DistinctShape)

def ResultTerm.lookup (term : ResultTerm Row) : Option Collation :=
  term.collate.or <| match shape with
  | .table schema => term.name.bind fun name =>
      (schema.columns.find? (·.name == name)).map (·.collation)
  | .join | .union => none

/-- `result_column_collations` for one table. `emit_join_distinct_guard` and the compound arms
give their key no collation. -/
def ResultTerm.keyCollation (term : ResultTerm Row) : Collation :=
  match shape with
  | .table _ => (term.lookup shape).getD .binary
  | .join | .union => .binary

def ResultTerm.collation (term : ResultTerm Row) : Collation :=
  (term.lookup shape).getD term.inherited

/-- `normalize_key_values`. -/
def normalizeKeyValues (terms : List (ResultTerm Row)) (values : List Value) : List Value :=
  (terms.zip values).map fun pair => encodedKey (pair.1.keyCollation shape) pair.2

def distinctKey (terms : List (ResultTerm Row)) (values : List Value) : Option Bytes :=
  encodeRecordInto 9 .utf8 (normalizeKeyValues shape terms values)

section Rows

variable (bindings : Bindings) (terms : List (ResultTerm Row)) (number : Row → Nat)

def resultRow (number : Nat) (row : Row) : List Value :=
  (Compiled.allBehind bindings number (terms.map (·.value))).map (· row)

/-- The rows that come to the index, with the values that the copy of the result list in front
of it has. Every place of a join that emits rows has copies, and numbers, of its own. -/
def candidates (rows : List Row) : List (Row × List Value) :=
  rows.map fun row => (row, resultRow bindings terms (number row) row)

/-- What is shown of a new row. UNION shows the registers that it has looked up; DISTINCT
compiles the result list again. -/
def emitRow (candidate : Row × List Value) : Row × List Value :=
  match shape with
  | .union => candidate
  | .table _ | .join => (candidate.1, resultRow bindings terms
      (Compiled.lastAfter bindings (number candidate.1) (terms.map (·.value))) candidate.1)

def distinctRows (rows : List Row) : Option (List (Row × List Value)) :=
  ((candidates bindings terms number rows).foldlM
    (distinctStep fun candidate => distinctKey shape terms candidate.2) []).map
      (map (emitRow shape bindings terms number))

def sameRows (one other : Row × List Value) : Bool :=
  sameValues (terms.map (·.collation shape)) one.2 other.2

end Rows

variable {shape} {bindings : Bindings} {terms : List (ResultTerm Row)} {number : Row → Nat}
  {rows : List Row}

theorem ResultTerm.keyCollation_sound (term : ResultTerm Row) :
    term.keyCollation shape = .binary ∨ term.keyCollation shape = term.collation shape := by
  unfold keyCollation collation
  cases shape with
  | table schema => cases term.lookup (.table schema) <;> simp
  | join | union => exact .inl rfl

theorem sameValues_of_key {ones others : List Value} (long : ones.length = terms.length)
    (alike : others.length = terms.length)
    (same : normalizeKeyValues shape terms ones = normalizeKeyValues shape terms others) :
    sameValues (terms.map (·.collation shape)) ones others = true := by
  induction terms generalizing ones others with
  | nil => rw [length_eq_zero_iff.mp long, length_eq_zero_iff.mp alike]; rfl
  | cons term rest ih =>
    obtain ⟨one, ones, rfl⟩ := exists_cons_of_length_eq_add_one long
    obtain ⟨other, others, rfl⟩ := exists_cons_of_length_eq_add_one alike
    obtain ⟨here, later⟩ := cons.inj same
    rw [map_cons, sameValues, ih (Nat.succ.inj long) (Nat.succ.inj alike) later, Bool.and_true,
      beq_iff_eq]
    rcases @ResultTerm.keyCollation_sound Row shape term with binary | own
    · exact compare_of_binary _ _ _ (compare_of_encodedKey (binary ▸ here))
    · exact own ▸ compare_of_encodedKey here

theorem length_resultRow (next : Nat) (row : Row) :
    (resultRow bindings terms next row).length = terms.length := by
  rw [resultRow, length_map, Compiled.length_allBehind, length_map]

theorem emitRow_mem {candidate : Row × List Value}
    (inside : candidate ∈ candidates bindings terms number rows) :
    emitRow shape bindings terms number candidate ∈ candidates bindings terms number rows ↔
      emitRow shape bindings terms number candidate = candidate := by
  obtain ⟨row, _, rfl⟩ := mem_map.mp inside
  constructor
  · intro shown
    obtain ⟨other, _, same⟩ := mem_map.mp shown
    have first := congrArg Prod.fst same
    cases shape <;> cases first <;> exact same.symm
  · exact fun same => same.symm ▸ inside

/-- `SELECT DISTINCT x` of a table with one column. -/
def distinctColumn : List (ResultTerm Value) := [{ value := ⟨[], fun _ row => row⟩, name := some "x" }]

def untypedTable : DistinctShape :=
  .table { name := "t", columns := [{ name := "x", declaredType := [] }] }

/-- `SELECT DISTINCT ?` with one parameter bound: the row is looked up by the first parameter
and shows the second. -/
example : @distinctRows Value untypedTable
    ⟨fun number => if number = 1 then .integer 5 else .null, fun _ => []⟩
    [{ value := ⟨[.anonymous], fun values _ => values.headD .null⟩ }] (fun _ => 0) [.integer 7] =
      some [(.integer 7, [.null])] := by
  decide +kernel

end Distinct

end SqliteRs
