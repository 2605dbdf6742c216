import SqliteRs.IndexSeek

/-!
The seek for a LIKE or GLOB pattern that is a plain text before one closing wildcard. It is
the walk over an index from that text to the text followed by the greatest character. The walk
keeps the case of the text, compares the keys as they stand and reads no value but a text.
-/

namespace SqliteRs

open List Table

section Plans

def charMax : Char := Char.ofNat 0x10FFFF

def prefixUpperBound (plain : List Char) : List Char := plain ++ [charMax]

/-- The plain text in front of a pattern's one wildcard at its end. -/
def likeLiteralPrefix (pattern : List Char) (glob : Bool) : Option (List Char) :=
  let wildcard := if glob then '*' else '%'
  let single := if glob then '?' else '_'
  if pattern.getLast? = some wildcard then
    let plain := pattern.dropLast
    if plain.isEmpty || plain.contains wildcard || plain.contains single then none
    else if !glob && plain.contains '\\' then none
    else if plain.getLast? = some charMax then none
    else some plain
  else none

/-- The index that is walked, the column it leads with and the plain text. -/
structure PrefixPlan where
  index : Index
  name : String
  plain : List Char

namespace PrefixPlan

variable (plan : PrefixPlan)

def low : Value := .text plan.plain

def high : Value := .text (prefixUpperBound plan.plain)

/-- The entries from the lower bound on, up to the upper one. -/
def keys (search : IndexSearch) : List (List Value) :=
  (search.seek plan.index.entries [plan.low]).takeWhile fun key =>
    !idxCompareGt plan.high plan.index.schema.leadingCollation key

end PrefixPlan

def Table.likePlan (table : Table) : Expr → Option PrefixPlan
  | .like glob expr (.atom (.literal (.str pattern))) => do
      let name ← expr.whereCol
      let plain ← likeLiteralPrefix pattern glob
      let index ← table.findLeadingIndex name
      if table.schema.declaredAffinity name = .text then some ⟨index, name, plain⟩ else none
  | _ => none

/-- The bounds are literals, so the result list has the first numbers. -/
def Table.likePrefixSeek (table : Table) (search : IndexSearch) (bindings : Bindings)
    (select : Select) : Option (Except QueryError (List (Option Value × List Value))) :=
  if select.distinct then none
  else (select.whereClause.bind table.likePlan).map fun plan =>
    table.matchedRows bindings select plan.name [(0, plan.keys search)]

theorem likeLiteralPrefix_inv {pattern plain : List Char} {glob : Bool}
    (found : likeLiteralPrefix pattern glob = some plain) :
    pattern = plain ++ [if glob then '*' else '%'] ∧
      ∀ char ∈ plain, char ≠ (if glob then '*' else '%') ∧ char ≠ (if glob then '?' else '_') := by
  unfold likeLiteralPrefix at found
  simp only at found
  generalize (if glob then '*' else '%') = wildcard at found ⊢
  generalize (if glob then '?' else '_') = single at found ⊢
  split at found
  swap
  · cases found
  rename_i ends
  split at found
  · cases found
  rename_i free
  have plainIs : pattern.dropLast = plain := by
    split at found
    · cases found
    split at found
    · cases found
    · exact Option.some.inj found
  rw [plainIs] at free
  constructor
  · rw [← plainIs]
    exact (dropLast_append_getLast? _ ends).symm
  intro char mem
  constructor
  all_goals
    rintro rfl
    exact free (by simp [mem])

end Plans

section Walk

variable {table : Table} {index : Index} {coll : Collation} {plan : PrefixPlan}

theorem Index.Places.lt_iff {value : Value} (places : index.Places coll value) {key : List Value}
    (mem : key ∈ index.entries) :
    (leadingValue key).compare value coll = .lt ↔ (leadingValue key).place < value.place := by
  rw [places.agrees key mem, (places.ranked key mem).exact]
  exact place_agrees.lt _ _

/-- The raw test of the walk. -/
def PrefixPlan.within (plan : PrefixPlan) (value : Value) : Bool :=
  value.compare plan.low plan.index.schema.leadingCollation != .lt &&
    value.compare plan.high plan.index.schema.leadingCollation != .gt

section

variable (ascends : plan.index.Ascends)
  (placesLow : plan.index.Places plan.index.schema.leadingCollation plan.low)
  (placesHigh : plan.index.Places plan.index.schema.leadingCollation plan.high)
include ascends placesLow placesHigh

theorem PrefixPlan.keys_eq (search : IndexSearch)
    (long : ∀ key ∈ plan.index.entries, 1 < key.length) :
    plan.keys search = plan.index.entries.filter fun key => plan.within (leadingValue key) := by
  have some : ∀ key ∈ plan.index.entries, key ≠ [] := by
    rintro key mem rfl
    cases long [] mem
  have past : ∀ key ∈ plan.index.entries,
      idxCompareGt plan.high plan.index.schema.leadingCollation key =
        ((leadingValue key).compare plan.high plan.index.schema.leadingCollation == .gt) := by
    intro key mem
    simp [idxCompareGt, long key mem]
  -- Entries that are not past the upper bound stand in front of those that are.
  have downward : ∀ keys, keys.Sublist plan.index.entries →
      Downward (fun key => !idxCompareGt plan.high plan.index.schema.leadingCollation key) keys := by
    intro keys inside
    apply (ascends.leads.sublist inside).imp_of_mem
    intro earlier later earlierIn laterIn ordered notPast
    simp only [past _ (inside.mem laterIn), past _ (inside.mem earlierIn),
      Bool.not_eq_true', beq_eq_false_iff_ne, ne_eq] at notPast ⊢
    rw [placesHigh.gt_iff (inside.mem laterIn), not_lt] at notPast
    rw [placesHigh.gt_iff (inside.mem earlierIn), not_lt]
    exact le_trans ordered notPast
  rw [keys, ascends.seek search some placesLow.ranked,
    takeWhile_downward (downward _ filter_sublist), filter_filter]
  apply filter_congr
  intro key mem
  rw [past key mem, Bool.eq_iff_iff]
  simp only [within, Bool.and_eq_true, Bool.not_eq_true', beq_eq_false_iff_ne, bne_iff_ne, ne_eq,
    decide_eq_true_iff]
  rw [placesLow.lt_iff mem, not_lt, and_comm]

/-- The walk returns the wanted rows exactly when the raw values between the bounds are theirs. -/
theorem Table.walk_exact_iff {keyOf : Int × Record → List Value} {bindings : Bindings}
    (resolved : table.Resolved) (filled : table.Fills plan.index keyOf)
    (search : IndexSearch) (found : table.findLeadingIndex plan.name = some plan.index)
    (wanted : Int × Record → Bool) (select : Select) :
    (∃ results, table.matchedRows bindings select plan.name [(0, plan.keys search)] = .ok results ∧
      results.Perm ((table.rows.entries.filter wanted).map (table.answer bindings select 0))) ↔
      table.schema.NamesColumns select ∧ ∀ row ∈ table.rows.entries,
        wanted row = plan.within (leadingValue (keyOf row)) := by
  obtain ⟨mem, col, leads, -⟩ := findLeadingIndex_inv found
  obtain ⟨ordered, perm, entries⟩ := filled.ordered
  let reached := ordered.filter fun row => plan.within (leadingValue (keyOf row))
  have keys : plan.keys search = reached.map keyOf := by
    rw [PrefixPlan.keys_eq ascends placesLow placesHigh search
      (filled.long (ne_nil_of_mem (mem_of_head? leads))), entries, filter_map]
    rfl
  have inside : ∀ row ∈ reached, row ∈ table.rows.entries :=
    fun row met => perm.mem_iff.mp (mem_filter.mp met).1
  have ran : ∀ results, table.matchedRows bindings select plan.name [(0, reached.map keyOf)] =
      .ok results ↔ table.schema.NamesColumns select ∧
        results = reached.map (table.answer bindings select 0) := by
    intro results
    have parts := @Table.Resolved.matchedRows_ok_iff table plan.index plan.name select bindings keyOf
      resolved filled found results [(0, reached)]
      fun part listed => by rw [mem_singleton.mp listed]; exact inside
    simpa using parts
  simp only [keys, ran]
  have answers := @answers_map_iff table (table.rows.entries.filter wanted)
    (fun row => table.schema.project bindings row 0 select.columns) reached
    (fun row => table.schema.project bindings row 0 select.columns) inside
    fun row met => (mem_filter.mp met).1
  rw [filter_perm_iff table.rows_nodup perm] at answers
  constructor
  · rintro ⟨results, ⟨named, rfl⟩, same⟩
    exact ⟨named, (answers.mp same).1⟩
  · rintro ⟨named, agrees⟩
    exact ⟨_, ⟨named, rfl⟩, answers.mpr ⟨agrees, fun _ _ => rfl⟩⟩

end

end Walk

section Range

theorem between_append (front others : List ℕ) (last : ℕ) :
    (¬ others < front ∧ ¬ front ++ [last] < others) ↔
      ∃ rest, others = front ++ rest ∧ ¬ [last] < rest := by
  induction front generalizing others with
  | nil => simp
  | cons first front ih =>
    cases others with
    | nil => simp
    | cons other others =>
      rw [cons_append, cons_lt_cons_iff, cons_lt_cons_iff]
      constructor
      · rintro ⟨notBelow, notAbove⟩
        obtain rfl : other = first := by omega
        obtain ⟨rest, same, bounded⟩ := (ih others).mp
          ⟨fun less => notBelow (.inr ⟨rfl, less⟩), fun less => notAbove (.inr ⟨rfl, less⟩)⟩
        exact ⟨rest, by rw [same, cons_append], bounded⟩
      rintro ⟨rest, same, bounded⟩
      rw [cons_append, List.cons.injEq] at same
      obtain ⟨rfl, same⟩ := same
      obtain ⟨notBelow, notAbove⟩ := (ih others).mpr ⟨rest, same, bounded⟩
      constructor
      · rintro (less | ⟨-, less⟩)
        · exact lt_irrefl _ less
        · exact notBelow less
      · rintro (less | ⟨-, less⟩)
        · exact lt_irrefl _ less
        · exact notAbove less

/-- A text that starts with the plain one and ends where it goes on with the
greatest character. -/
def InPrefixRange (plain : List Char) (value : Value) : Prop :=
  ∃ rest, value = .text (plain ++ rest) ∧ ∀ others, rest = charMax :: others → others = []

theorem text_place_lt (left right : List Char) :
    (Value.text left).place < (Value.text right).place ↔ codePoints left < codePoints right := by
  simp [Value.place, Prod.Lex.toLex_lt_toLex, false_or, true_and]

theorem charMax_last (char : Char) : ¬ charMax.toNat < char.toNat := by
  have valid : char.toNat < 0x110000 := by
    rcases char.valid with low | ⟨-, high⟩
    · exact lt_trans low (by decide)
    · exact high
  have greatest : charMax.toNat = 0x10FFFF := by decide
  omega

theorem above_charMax (rest : List Char) :
    ¬ [charMax.toNat] < codePoints rest ↔ ∀ others, rest = charMax :: others → others = [] := by
  cases rest with
  | nil => simp [codePoints]
  | cons char others =>
    have codes : codePoints (char :: others) = char.toNat :: codePoints others := rfl
    rw [codes, cons_lt_cons_iff]
    constructor
    · intro bounded behind same
      cases same
      cases others with
      | nil => rfl
      | cons next others => exact absurd (.inr ⟨rfl, nil_lt_cons _ _⟩) bounded
    · rintro ends (above | ⟨same, more⟩)
      · exact charMax_last char above
      · obtain rfl := ends others (by rw [Char.toNat_inj.mp same])
        exact not_lt_nil _ more

theorem place_range (plain : List Char) (value : Value) : (¬ value.place < (Value.text plain).place ∧
        ¬ (Value.text (prefixUpperBound plain)).place < value.place) ↔ InPrefixRange plain value := by
  have other : ∀ rank body, value.place = toLex (rank, body) → rank ≠ 2 →
      ¬ (¬ value.place < (Value.text plain).place ∧
        ¬ (Value.text (prefixUpperBound plain)).place < value.place) := by
    rintro rank body place ne ⟨notBelow, notAbove⟩
    rw [place] at notBelow notAbove
    simp only [Value.place, Prod.Lex.toLex_lt_toLex] at notBelow notAbove
    omega
  cases value with
  | text chars =>
    rw [text_place_lt, text_place_lt, prefixUpperBound, codePoints, codePoints, codePoints, map_append]
    change (¬ codePoints chars < codePoints plain ∧
      ¬ codePoints plain ++ [charMax.toNat] < codePoints chars) ↔ _
    rw [between_append]
    constructor
    · rintro ⟨rest, same, bounded⟩
      obtain ⟨front, behind, rfl, first, rfl⟩ := map_eq_append_iff.mp same
      rw [codePoints_injective first]
      exact ⟨behind, rfl, (above_charMax behind).mp bounded⟩
    · rintro ⟨rest, same, bounded⟩
      cases same
      exact ⟨codePoints rest, map_append, (above_charMax rest).mpr bounded⟩
  | null => exact iff_of_false (other 0 _ rfl (by decide)) (by rintro ⟨rest, same, -⟩; cases same)
  | integer | real =>
    exact iff_of_false (other 1 _ rfl (by decide)) (by rintro ⟨rest, same, -⟩; cases same)
  | blob bytes =>
    exact iff_of_false (other 3 _ rfl (by decide)) (by rintro ⟨rest, same, -⟩; cases same)

end Range

section Matching

variable {table : Table} {bindings : Bindings} {glob : Bool} {name : String}
  {pattern plain : List Char} {plan : PrefixPlan}

def likePattern (glob : Bool) (name : String) (pattern : List Char) : Expr :=
  .like glob (.atom (.column name)) (.atom (.literal (.str pattern)))

def accepts (bindings : Bindings) (glob : Bool) (pattern : List Char) (value : Value) : Prop :=
  Expr.likeTruth bindings glob value (.text pattern) = some true

/-- Soundness of a prefix seek: values that the matcher accepts are texts that start
with the plain text as it is written; and where that text opens a character class,
the texts that start with it are accepted. -/
structure Table.PrefixSound (table : Table) (bindings : Bindings) (glob : Bool) (name : String)
    (pattern plain : List Char) : Prop where
  reached : ∀ row ∈ table.rows.entries,
    accepts bindings glob pattern (table.schema.columnValue name row) →
    InPrefixRange plain (table.schema.columnValue name row)
  classes : glob = true → '[' ∈ plain → ∀ row ∈ table.rows.entries,
    InPrefixRange plain (table.schema.columnValue name row) →
    accepts bindings glob pattern (table.schema.columnValue name row)

theorem Table.likePlan_inv (taken : table.likePlan (likePattern glob name pattern) = some plan) :
    likeLiteralPrefix pattern glob = some plan.plain ∧ plan.name = name ∧
      table.findLeadingIndex name = some plan.index ∧
      table.schema.declaredAffinity name = .text := by
  obtain ⟨plain, literal, taken⟩ := Option.bind_eq_some_iff.mp taken
  obtain ⟨index, found, taken⟩ := Option.bind_eq_some_iff.mp taken
  split at taken
  · rename_i isText
    cases taken
    exact ⟨literal, rfl, found, isText⟩
  · cases taken

/-- A TEXT column is read as it is stored. -/
theorem Table.Resolved.lead_text (resolved : table.Resolved) {index : Index}
    {keyOf : Int × Record → List Value} (filled : table.Fills index keyOf)
    (found : table.findLeadingIndex name = some index)
    (isText : table.schema.declaredAffinity name = .text) {row : Int × Record}
    (inside : row ∈ table.rows.entries) :
    leadingValue (keyOf row) = table.schema.columnValue name row := by
  obtain ⟨mem, column, leads, named⟩ := Table.findLeadingIndex_inv found
  have position := resolved.keys index mem column (List.mem_of_head? leads)
  have lead := resolved.lead filled inside mem leads
  rw [columnIndex_lowercase table.schema named] at position
  have notReal : table.schema.affinities[column.position]? ≠ some .real := by
    intro real
    rw [TableSchema.declaredAffinity, position, Option.bind_some, real] at isText
    cases isText
  rw [columnValue_lowercase table.schema named, TableSchema.asRead,
    if_neg fun both => notReal both.2] at lead
  exact lead

theorem accepts_range (literal : likeLiteralPrefix pattern glob = some plain)
    (noClass : ¬ (glob = true ∧ '[' ∈ plain)) {value : Value} (range : InPrefixRange plain value) :
    accepts bindings glob pattern value := by
  obtain ⟨rfl, free⟩ := likeLiteralPrefix_inv literal
  obtain ⟨rest, rfl, -⟩ := range
  cases glob with
  | true =>
    have matched := (globMatch_plain plain (plain ++ rest) fun char mem =>
      ⟨(free char mem).1, (free char mem).2, fun bracket => noClass ⟨rfl, bracket ▸ mem⟩⟩).mpr
    simpa [accepts, Expr.likeTruth, asText] using matched
  | false =>
    have matched := (likeMatch_plain plain (plain ++ rest) free).mpr (by simp)
    simpa [accepts, Expr.likeTruth, asText] using matched

theorem Table.satisfies_like (row : Int × Record) :
    table.satisfies bindings (likePattern glob name pattern) row = true ↔
      accepts bindings glob pattern (table.schema.columnValue name row) := by
  simp [Table.satisfies, Expr.isTrue, likePattern, Expr.eval, Atom.eval, Literal.value, accepts]

end Matching

/-- Where a LIKE or GLOB pattern is replaced by a walk, it returns the rows that the
matcher accepts exactly when it is sound. -/
theorem like_prefix_seek_exact_iff (table : Table) (resolved : table.Resolved)
    (search : IndexSearch) (bindings : Bindings) (select : Select)
    (glob : Bool) (name : String) (pattern : List Char) (plan : PrefixPlan)
    (keyOf : Int × Record → List Value) (filled : table.Fills plan.index keyOf)
    (filtered : select.whereClause = some (likePattern glob name pattern))
    (all : select.distinct = false)
    (taken : table.likePlan (likePattern glob name pattern) = some plan)
    (ascends : plan.index.Ascends)
    (placesLow : plan.index.Places plan.index.schema.leadingCollation plan.low)
    (placesHigh : plan.index.Places plan.index.schema.leadingCollation plan.high) :
    (∃ results, table.likePrefixSeek search bindings select = some (.ok results) ∧
        results.Perm (table.scanAnswers bindings select)) ↔
      table.schema.NamesColumns select ∧
        table.PrefixSound bindings glob name pattern plan.plain := by
  obtain ⟨literal, rfl, found, isText⟩ := Table.likePlan_inv taken
  have number : select.scanNumber bindings = 0 := by
    rw [Select.scanNumber, filtered]
    rfl
  rw [likePrefixSeek, filtered, all, Option.bind_some, taken, scanAnswers, fullScan, filtered, number]
  simp only [Bool.false_eq_true, if_false, Option.map_some, Option.some.injEq]
  rw [walk_exact_iff ascends placesLow placesHigh resolved filled search found,
    and_congr_right_iff]
  intro _
  -- The raw test of the walk is the range of the plain text.
  have range : ∀ row ∈ table.rows.entries, plan.within (leadingValue (keyOf row)) = true ↔
      InPrefixRange plan.plain (table.schema.columnValue plan.name row) := by
    intro row inside
    rw [← place_range, ← resolved.lead_text filled found isText inside]
    simp only [PrefixPlan.within, Bool.and_eq_true, bne_iff_ne, ne_eq]
    rw [placesLow.lt_iff (filled.mem inside), placesHigh.gt_iff (filled.mem inside)]
    rfl
  constructor
  · intro sound
    have exact : ∀ row ∈ table.rows.entries,
        accepts bindings glob pattern (table.schema.columnValue plan.name row) ↔
          InPrefixRange plan.plain (table.schema.columnValue plan.name row) := by
      intro row inside
      rw [← Table.satisfies_like row, ← range row inside, sound row inside]
    exact ⟨fun row inside => (exact row inside).mp, fun _ _ row inside => (exact row inside).mpr⟩
  · intro sound row inside
    rw [Bool.eq_iff_iff, Table.satisfies_like row, range row inside]
    constructor
    · exact sound.reached row inside
    intro inRange
    by_cases noClass : glob = true ∧ '[' ∈ plan.plain
    · exact sound.classes noClass.1 noClass.2 row inside inRange
    · exact accepts_range literal noClass inRange

def indexedTexts : Table where
  schema := { name := "t", columns := [{ name := "a", declaredType := "TEXT".toList }] }
  rows := ⟨[(1, [.text ['a', 'b']]), (2, [.text ['A', 'c']])], by decide⟩
  indexes := [⟨indexOnA, [[.text ['A', 'c'], .integer 2], [.text ['a', 'b'], .integer 1]]⟩]
  sequence := none

theorem indexedTexts_resolved : indexedTexts.Resolved := by
  constructor
  · intro pos col held
    rcases pos with _ | pos
    · cases held
      rfl
    · cases held
  · intro index mem col inside
    rw [mem_singleton.mp mem] at inside
    rw [mem_singleton.mp inside]
    rfl

/-- `a GLOB 'a*'` out of the index. -/
theorem glob_prefix_sought : ∃ results,
    indexedTexts.likePrefixSeek .onePage noBindings
      ⟨[.star], some (likePattern true "a" ['a', '*']), false⟩ = some (.ok results) ∧
    results.Perm (indexedTexts.scanAnswers noBindings
      ⟨[.star], some (likePattern true "a" ['a', '*']), false⟩) := by
  have mirrors : indexedTexts.Mirrors := by
    intro index member
    rw [List.mem_singleton.mp member]
    exact List.Perm.swap _ _ _
  apply (like_prefix_seek_exact_iff indexedTexts indexedTexts_resolved .onePage noBindings
    ⟨[.star], some (likePattern true "a" ['a', '*']), false⟩ true "a" ['a', '*']
    ⟨⟨indexOnA, [[.text ['A', 'c'], .integer 2], [.text ['a', 'b'], .integer 1]]⟩, "a", ['a']⟩
    _ (mirrors.fills (List.mem_singleton_self _)) rfl rfl rfl _ _ _).mpr
  · constructor
    · simp [TableSchema.NamesColumns]
    constructor
    · intro row member accepted
      rcases List.mem_pair.mp member with rfl | rfl
      · refine ⟨['b'], rfl, ?_⟩
        rintro others ⟨⟩
      · exact absurd accepted (by unfold accepts; decide +kernel)
    · intro _ bracket
      exact absurd bracket (by decide)
  · refine ⟨by decide, ?_⟩
    intro key keyIn other otherIn
    rcases List.mem_pair.mp keyIn with rfl | rfl
    all_goals
      rcases List.mem_pair.mp otherIn with rfl | rfl
      all_goals exact Value.Exact.ranks trivial trivial
  all_goals
    refine ⟨?_, by decide⟩
    intro key keyIn
    rcases List.mem_pair.mp keyIn with rfl | rfl
    all_goals exact Value.Exact.ranks trivial trivial

/-- `a LIKE 'a%'` accepts both texts, and the walk passes over the upper-case one. -/
theorem other_case_is_not_sought :
    indexedTexts.likePrefixSeek .onePage noBindings
        ⟨[.star], some (likePattern false "a" ['a', '%']), false⟩ =
        some (.ok [(some (.integer 1), [.text ['a', 'b']])]) ∧
      indexedTexts.fullScan noBindings
        ⟨[.star], some (likePattern false "a" ['a', '%']), false⟩ =
        [(1, [.text ['a', 'b']]), (2, [.text ['A', 'c']])] :=
  ⟨rfl, by decide +kernel⟩

end SqliteRs
