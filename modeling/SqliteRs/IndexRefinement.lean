import SqliteRs.BtreeSafety
import SqliteRs.IndexDelete
import SqliteRs.UniqueIndex

/-!
Index b-trees refine sorted sets of keys. A run of insert_entry and delete_entry
calls, each on a tree that a search can get down, has the outcomes of the same run on
the sorted list of keys, and an in-order walk of the pages lists those keys. The keys
are of NULL, integer, text and blob values, whose comparison is a linear order. As with
tables, a tree with more levels than a search visits refuses keys it does not have.
-/

namespace SqliteRs

open List Layout Value

variable {ρ κ P : Type} [LinearOrder P]

namespace Pages

/-- The entries below a page in key order, down to a number of levels. -/
def entriesInOrder (pages : Pages ρ κ) : Nat → Nat → List (IndexEntry κ)
  | 0, _ => []
  | levels + 1, page =>
    match pages.content page with
    | .indexLeaf layout => layout.cells
    | .indexInterior layout rightmost =>
      layout.cells.flatMap (fun route =>
        pages.entriesInOrder levels route.child ++ [route.entry]) ++
        pages.entriesInOrder levels rightmost
    | _ => []

section Keys

variable [DecidableEq κ]

def holdsKeyPart (pages : Pages ρ κ) (key : κ) (page part : Nat) : Bool :=
  match pages.content page with
  | .keyChain held index => held == key && index == part
  | _ => false

def currentKey (torn : κ) (pages : Pages ρ κ) (entry : IndexEntry κ) : κ :=
  if entry.overflow.zipIdx.all fun (page, part) => pages.holdsKeyPart entry.key page part then
    entry.key
  else torn

/-- An in-order walk of an index. No way down has more pages than the file. -/
def indexKeys (torn : κ) (pages : Pages ρ κ) (root : Nat) : List κ :=
  (pages.entriesInOrder (pages.count + 1) root).map (pages.currentKey torn)

end Keys

end Pages

inductive KeyCall (κ : Type) where
  | insert (key : κ) (length : Nat)
  | delete (key : κ)

namespace KeyCall

def key : KeyCall κ → κ
  | .insert key _ => key
  | .delete key => key

def step (root : Nat) : KeyCall κ → BtreeStep ρ κ
  | .insert key length => .insertEntry root key length
  | .delete key => .deleteEntry root key

variable (geom : Geometry) (compareKeys : κ → κ → Ordering) (root : Nat)

def perform (call : KeyCall κ) (pages : Pages ρ κ) : Except BtreeError Unit × Pages ρ κ :=
  match (call.step root).run geom compareKeys pages with
  | .ok next => (.ok (), next)
  | .error error => (.error error, pages)

def apply [DecidableEq κ] : KeyCall κ → List κ → Except BtreeError Unit × List κ
  | .insert key _, keys =>
    if key ∈ keys then (.error .duplicateKey, keys)
    else (.ok (), keys.orderedInsert (fun first second => compareKeys first second ≠ .gt) key)
  | .delete key, keys =>
    if key ∈ keys then (.ok (), keys.erase key) else (.error .keyNotFound, keys)

end KeyCall

section Runs

variable (geom : Geometry) (compareKeys : κ → κ → Ordering) (root : Nat)

def performKeys : List (KeyCall κ) → Pages ρ κ → List (Except BtreeError Unit) × Pages ρ κ
  | [], pages => ([], pages)
  | call :: later, pages =>
    let (outcome, pages) := call.perform geom compareKeys root pages
    let (outcomes, pages) := performKeys later pages
    (outcome :: outcomes, pages)

def applyKeys [DecidableEq κ] : List (KeyCall κ) → List κ → List (Except BtreeError Unit) × List κ
  | [], keys => ([], keys)
  | call :: later, keys =>
    let (outcome, keys) := call.apply compareKeys keys
    let (outcomes, keys) := applyKeys later keys
    (outcome :: outcomes, keys)

/-- Every call finds a tree that a search gets down and pages that take its writes. -/
def KeyCallsTake : List (KeyCall κ) → Pages ρ κ → Prop
  | [], _ => True
  | call :: later, pages => pages.IndexLevels maxPagesVisited root ∧
      BtreeStep.Takes geom compareKeys (call.step root) pages ∧
      KeyCallsTake later (call.perform geom compareKeys root pages).2

end Runs

namespace Pages

section Walk

variable {pages : Pages ρ κ} {used : List Nat} {entries : List (IndexEntry κ)}
  {items : List (IndexItem κ)}

def itemEntries (pages : Pages ρ κ) (levels : Nat) : IndexItem κ → List (IndexEntry κ)
  | .page page => pages.entriesInOrder levels page
  | .entry entry => [entry]

theorem itemEntries_routes (levels : Nat) (routes : List (IndexRoute κ)) :
    (routeItems routes).flatMap (pages.itemEntries levels) = routes.flatMap fun route =>
      pages.entriesInOrder levels route.child ++ [route.entry] := by
  induction routes with
  | nil => rfl
  | cons route rest ih =>
    rw [routeItems_cons, flatMap_cons, flatMap_cons, ih, flatMap_cons, append_assoc]
    rfl

theorem itemEntries_map (levels : Nat) (held : List (IndexEntry κ)) :
    (held.map IndexItem.entry).flatMap (pages.itemEntries levels) = held := by
  induction held with
  | nil => rfl
  | cons first rest ih =>
    rw [map_cons, flatMap_cons, ih]
    rfl

theorem entriesInOrder_succ {page levels : Nat}
    (here : (pages.content page).items = some items) :
    pages.entriesInOrder (levels + 1) page = items.flatMap (pages.itemEntries levels) := by
  unfold entriesInOrder
  revert here
  cases pages.content page with
  | indexLeaf layout =>
    rintro ⟨⟩
    exact (itemEntries_map levels layout.cells).symm
  | indexInterior layout rightmost =>
    rintro ⟨⟩
    rw [childItems, flatMap_append, itemEntries_routes, flatMap_singleton]
    rfl
  | blank | trunk | chain | keyChain | tableLeaf | tableInterior => rintro ⟨⟩

theorem IndexReads.entriesInOrder (levels : Nat) {used : List Nat}
    {entries : List (IndexEntry κ)} (reads : pages.IndexReads items used entries)
    (deep : used.length ≤ levels) : items.flatMap (pages.itemEntries levels) = entries := by
  induction levels generalizing items used entries with
  | zero =>
    -- Without pages the items are entries.
    induction reads with
    | nil => rfl
    | entry _ _ ih =>
      rw [length_append] at deep
      rw [flatMap_cons, ih (by omega)]
      rfl
    | page _ _ _ =>
      rw [length_cons] at deep
      omega
  | succ levels ih =>
    induction items generalizing used entries with
    | nil =>
      cases reads
      rfl
    | cons item rest inner =>
      rw [flatMap_cons]
      cases item with
      | entry entry =>
        cases reads with
        | entry _ later =>
          rw [length_append] at deep
          rw [inner later (by omega)]
          rfl
      | page page =>
        obtain ⟨ownUsed, restUsed, own, held, rfl, rfl, first, others⟩ :=
          (show pages.IndexReads ([.page page] ++ rest) _ _ from reads).split
        obtain ⟨items, below, here, rfl, later⟩ := IndexReads.single.mp first
        simp only [length_append, length_cons] at deep
        rw [inner others (by omega)]
        congr 1
        exact (entriesInOrder_succ here).trans (ih later (by omega))

theorem KeyIntact.currentKey [DecidableEq κ] (torn : κ) {entry : IndexEntry κ}
    (intact : pages.KeyIntact entry) : pages.currentKey torn entry = entry.key := by
  unfold Pages.currentKey
  rw [if_pos]
  rw [all_eq_true]
  rintro ⟨page, part⟩ mem
  have held := intact part page (mk_mem_zipIdx_iff_getElem?.mp mem)
  simp [holdsKeyPart, held]

variable {place : κ → P} {allowed : κ → Prop} {others : Nat → Prop} {root : Nat}

theorem HoldsIndexBeside.indexKeys [DecidableEq κ] (torn : κ)
    (index : pages.HoldsIndexBeside place allowed others root used entries) :
    pages.indexKeys torn root = entries.map IndexEntry.key := by
  have inside : used ⊆ range (pages.count + 1) := fun page mem =>
    mem_range.mpr (Nat.lt_succ_of_le (index.spares.apart page (.inr mem)).2)
  have fewer := (subperm_of_subset index.distinct inside).length_le
  rw [length_range] at fewer
  have walked := index.reads.entriesInOrder (pages.count + 1) fewer
  rw [flatMap_singleton] at walked
  rw [Pages.indexKeys, show pages.entriesInOrder (pages.count + 1) root = entries from walked]
  exact map_congr_left fun entry mem => (index.reads.intact entry mem).currentKey torn

end Walk

end Pages

section Refinement

variable {place : κ → P} {allowed : κ → Prop} {compareKeys : κ → κ → Ordering}
  {geom : Geometry} {others : Nat → Prop} {pages : Pages ρ κ} {root : Nat} [DecidableEq κ]
  {keys : List κ}

omit [DecidableEq κ] in
theorem KeyOrder.orderedInsert (order : KeyOrder compareKeys place allowed)
    {cell : IndexEntry κ} (keyOk : allowed cell.key) {before after : List (IndexEntry κ)}
    (parts : Parts place cell.key before after)
    (allows : ∀ entry ∈ before ++ after, allowed entry.key) :
    ((before ++ after).map IndexEntry.key).orderedInsert
        (fun first second => compareKeys first second ≠ .gt) cell.key =
      (before ++ cell :: after).map IndexEntry.key := by
  induction before with
  | nil =>
    cases after with
    | nil => rfl
    | cons held rest =>
      have least := parts.after held (.head _)
      have compared := order.compared cell.key held.key keyOk (allows held (.head _))
      rw [compare_lt_iff_lt.mpr least] at compared
      rw [nil_append, nil_append, map_cons, map_cons, map_cons,
        List.orderedInsert, if_pos (by rw [compared]; exact nofun)]
  | cons held rest ih =>
    have greatest := parts.before held (.head _)
    have compared := order.compared cell.key held.key keyOk (allows held (.head _))
    rw [compare_gt_iff_gt.mpr greatest] at compared
    have later := ih ⟨fun entry mem => parts.before entry (.tail _ mem), parts.after⟩
      fun entry mem => allows entry (.tail _ mem)
    rw [cons_append, cons_append, map_cons, map_cons, List.orderedInsert,
      if_neg (not_not_intro compared), later]

theorem Ascends.erase_key {before after : List (IndexEntry κ)} {entry : IndexEntry κ}
    (ascends : Ascends place (before ++ entry :: after)) :
    ((before ++ entry :: after).map IndexEntry.key).erase entry.key =
      (before ++ after).map IndexEntry.key := by
  have absent : entry.key ∉ before.map IndexEntry.key := by
    intro mem
    obtain ⟨held, inside, same⟩ := mem_map.mp mem
    have less := (pairwise_append.mp ascends).2.2 held inside entry (.head _)
    rw [same] at less
    exact lt_irrefl _ less
  rw [map_append, map_cons, erase_append_right _ absent, erase_cons_head, map_append]

/-- A well-formed index with these keys: a tree of distinct pages, apart from other
pages in use and from the free list, whose entries ascend. -/
def Pages.HoldsKeys (place : κ → P) (allowed : κ → Prop) (others : Nat → Prop) (pages : Pages ρ κ)
    (root : Nat) (keys : List κ) : Prop :=
  ∃ used entries, pages.HoldsIndexBeside place allowed others root used entries ∧
    entries.map IndexEntry.key = keys

omit [DecidableEq κ] in
theorem mem_keys {entries : List (IndexEntry κ)} {key : κ} :
    key ∈ entries.map IndexEntry.key ↔ ∃ entry ∈ entries, entry.key = key := mem_map

theorem Pages.HoldsKeys.perform (order : KeyOrder compareKeys place allowed)
    (holds : pages.HoldsKeys place allowed others root keys) (call : KeyCall κ)
    (keyOk : allowed call.key) (within : pages.IndexLevels maxPagesVisited root) :
    (call.perform geom compareKeys root pages).1 = (call.apply compareKeys keys).1 ∧
      (call.perform geom compareKeys root pages).2.HoldsKeys place allowed others root
        (call.apply compareKeys keys).2 := by
  obtain ⟨used, entries, index, rfl⟩ := holds
  cases call with
  | insert key length =>
    change allowed key at keyOk
    simp only [KeyCall.perform, KeyCall.step, BtreeStep.run, KeyCall.apply]
    rcases index.insertEntry geom order keyOk within length with
      ⟨present, refused⟩ | ⟨next, whole, overflow, before, after, done, rfl, parts, holds, _⟩
    · rw [refused, if_pos (mem_keys.mpr present)]
      exact ⟨rfl, used, entries, index, rfl⟩
    have absent : key ∉ (before ++ after).map IndexEntry.key := by
      intro mem
      obtain ⟨entry, inside, same⟩ := mem_keys.mp mem
      exact parts.absent entry inside same
    rw [done, if_neg absent]
    refine ⟨rfl, whole, _, holds, ?_⟩
    exact (@KeyOrder.orderedInsert _ _ _ _ _ _ order { key, length, overflow } keyOk _ _ parts
      index.allows).symm
  | delete key =>
    change allowed key at keyOk
    simp only [KeyCall.perform, KeyCall.step, BtreeStep.run, KeyCall.apply]
    rcases index.deleteEntry geom order keyOk within with
      ⟨absent, refused⟩ | ⟨next, whole, _, before, entry, after, done, rfl, rfl, holds, _⟩
    · rw [refused, if_neg fun mem => by
        obtain ⟨entry, inside, same⟩ := mem_keys.mp mem
        exact absent entry inside same]
      exact ⟨rfl, used, entries, index, rfl⟩
    · have mem : entry ∈ before ++ entry :: after := mem_append_right _ (.head _)
      rw [done, if_pos (mem_keys.mpr ⟨entry, mem, rfl⟩)]
      exact ⟨rfl, whole, _, holds, index.ascends.erase_key.symm⟩

theorem Pages.HoldsKeys.performKeys (order : KeyOrder compareKeys place allowed)
    (calls : List (KeyCall κ)) {pages : Pages ρ κ} {keys : List κ}
    (holds : pages.HoldsKeys place allowed others root keys) (plain : ∀ call ∈ calls, allowed call.key)
    (takes : KeyCallsTake geom compareKeys root calls pages) :
    (performKeys geom compareKeys root calls pages).1 = (applyKeys compareKeys calls keys).1 ∧
      (performKeys geom compareKeys root calls pages).2.HoldsKeys place allowed others root
        (applyKeys compareKeys calls keys).2 := by
  induction calls generalizing pages keys with
  | nil => exact ⟨rfl, holds⟩
  | cons call later ih =>
    obtain ⟨within, _, rest⟩ := takes
    obtain ⟨outcome, after⟩ := @Pages.HoldsKeys.perform _ _ _ _ _ _ _ geom _ _ _ _ _ order holds
      call (plain call (.head _)) within
    obtain ⟨outcomes, final⟩ := ih after (fun call mem => plain call (.tail _ mem)) rest
    refine ⟨?_, final⟩
    simp only [SqliteRs.performKeys, applyKeys]
    rw [outcome, outcomes]

theorem Pages.HoldsKeys.indexKeys (torn : κ) (holds : pages.HoldsKeys place allowed others root keys) :
    pages.indexKeys torn root = keys := by
  obtain ⟨used, entries, index, same⟩ := holds
  rw [index.indexKeys torn, same]

end Refinement

section Plain

def Value.Plain : Value → Prop
  | .real _ => False
  | _ => True

def PlainKey (key : List Value) : Prop := ∀ value ∈ key, value.Plain

def keyPlace (key : List Value) : List Place := key.map Value.place

theorem compareValues_plain {left right : Value} (plainLeft : left.Plain) (plainRight : right.Plain) :
    compareValues left right = compare left.place right.place := by
  cases left with
  | real _ => cases plainLeft
  | integer x =>
    cases right with
    | real _ => cases plainRight
    | integer y =>
      simp [place, compare_numeric, compare_exact_level, compareValues, compare_intCast]
    | _ => rfl
  | _ => cases right <;> rfl

theorem place_inj {left right : Value} (plainLeft : left.Plain) (plainRight : right.Plain)
    (same : left.place = right.place) : left = right := by
  cases left with
  | real _ => cases plainLeft
  | null =>
    cases right with
    | null => rfl
    | _ => simp [place] at same
  | integer x =>
    cases right with
    | real _ => cases plainRight
    | integer y =>
      simp only [place, toLex_inj, Prod.mk.injEq, true_and, and_true, Int.cast_inj] at same
      rw [same]
    | _ => simp [place] at same
  | text x =>
    cases right with
    | text y =>
      simp only [place, toLex_inj, Prod.mk.injEq, true_and] at same
      rw [codePoints_injective same]
    | _ => simp [place] at same
  | blob x =>
    cases right with
    | blob y =>
      simp only [place, toLex_inj, Prod.mk.injEq, true_and] at same
      rw [map_injective_iff.mpr (fun _ _ => UInt8.toNat_inj.mp) same]
    | _ => simp [place] at same

theorem keyPlace_inj {left right : List Value} (plainLeft : PlainKey left) (plainRight : PlainKey right)
    (same : keyPlace left = keyPlace right) : left = right := by
  induction left generalizing right with
  | nil => exact (map_eq_nil_iff.mp same.symm).symm
  | cons first rest ih =>
    cases right with
    | nil => cases same
    | cons other others =>
      obtain ⟨heads, tails⟩ := cons.inj same
      rw [place_inj (plainLeft first (.head _)) (plainRight other (.head _)) heads,
        ih (fun value mem => plainLeft value (.tail _ mem))
          (fun value mem => plainRight value (.tail _ mem)) tails]

theorem plain_keys_ordered : KeyOrder compareKeys keyPlace PlainKey where
  compared first second plainFirst plainSecond := by
    rw [compareKeys_of_values fun one mem two listed =>
      compareValues_plain (plainFirst one mem) (plainSecond two listed)]
    exact places_agrees.compare_eq _ _
  faithful first second plainFirst plainSecond := keyPlace_inj plainFirst plainSecond

variable {geom : Geometry} {others : Nat → Prop} {pages : Pages ρ (List Value)} {root : Nat}
  {keys : List (List Value)} {calls : List (KeyCall (List Value))}

theorem Pages.HoldsKeys.sorted (holds : pages.HoldsKeys keyPlace PlainKey others root keys) :
    keys.Pairwise fun first second => compareKeys first second = .lt := by
  obtain ⟨used, entries, index, rfl⟩ := holds
  apply pairwise_map.mpr
  apply index.ascends.imp_of_mem
  intro first second one two less
  rw [plain_keys_ordered.compared _ _ (index.allows first one) (index.allows second two)]
  exact compare_lt_iff_lt.mpr less

/-- Every run of inserts and deletes of plain keys on a well-formed index, each on a
tree that a search gets down and with page writes that fit, refines the run on the
sorted list of keys. -/
theorem key_calls_refine_set (torn : List Value)
    (holds : pages.HoldsKeys keyPlace PlainKey others root keys)
    (plain : ∀ call ∈ calls, PlainKey call.key)
    (takes : KeyCallsTake geom compareKeys root calls pages) :
    pages.indexKeys torn root = keys ∧
      (performKeys geom compareKeys root calls pages).1 = (applyKeys compareKeys calls keys).1 ∧
      (performKeys geom compareKeys root calls pages).2.indexKeys torn root =
        (applyKeys compareKeys calls keys).2 ∧
      (applyKeys compareKeys calls keys).2.Pairwise
        (fun first second => compareKeys first second = .lt) ∧
      (performKeys geom compareKeys root calls pages).2.HoldsKeys keyPlace PlainKey others root
        (applyKeys compareKeys calls keys).2 := by
  obtain ⟨outcomes, final⟩ := holds.performKeys plain_keys_ordered calls plain takes
  exact ⟨holds.indexKeys torn, outcomes, final.indexKeys torn, final.sorted, final⟩

def numberEntry (number : Int) : IndexEntry (List Value) :=
  { key := [.integer number], length := 3 }

/-- An index at page 2 with key 3 between a leaf with key 1 and one with key 5. -/
def keysOneThreeFive : Pages Unit (List Value) :=
  ((({ content := fun _ => .blank, count := 4 } : Pages Unit (List Value)).writeIndexLeafPage
    smallPages 3 [numberEntry 1]).writeIndexLeafPage smallPages 4 [numberEntry 5]
    ).writeIndexInteriorPage smallPages 2 [⟨3, numberEntry 3⟩] 4

theorem numberEntry_intact (num : Int) : pages.KeyIntact (numberEntry num) :=
  fun _ _ held => nomatch held

theorem compareKeys_numbers (first second : Int) :
    compareKeys [.integer first] [.integer second] = compare first second := by
  rw [compareKeys_cons]
  exact then_eq_self _

theorem plain_number (num : Int) : PlainKey [.integer num] := by
  intro value mem
  cases mem_singleton.mp mem
  trivial

theorem keyPlace_lt {first second : Int} (less : first < second) :
    keyPlace (numberEntry first).key < keyPlace (numberEntry second).key := by
  apply (plain_keys_ordered.lt_iff (plain_number first) (plain_number second)).mp
  rw [beq_iff_eq, compareKeys_numbers]
  exact compare_lt_iff_lt.mpr less

theorem Pages.IndexReads.of_number {page : Nat} {layout : Layout (IndexEntry (List Value))} {num : Int}
    (content : pages.content page = .indexLeaf layout) (cells : layout.cells = [numberEntry num]) :
    pages.IndexReads [.page page] [page] [numberEntry num] := by
  refine Pages.IndexReads.single.mpr ⟨[.entry (numberEntry num)], [], ?_, rfl, ?_⟩
  · rw [content, Page.items, cells]
    rfl
  · exact .entry (numberEntry_intact num) .nil

theorem keysOneThreeFive_holds : keysOneThreeFive.HoldsKeys keyPlace PlainKey (fun _ => False) 2
    [[.integer 1], [.integer 3], [.integer 5]] := by
  have first : keysOneThreeFive.IndexReads [.page 3] [3] [numberEntry 1] :=
    .of_number rfl (writePageCommon_cells ..)
  have last : keysOneThreeFive.IndexReads [.page 4] [4] [numberEntry 5] :=
    .of_number rfl (writePageCommon_cells ..)
  have reads : keysOneThreeFive.IndexReads [.page 2] [2, 3, 4]
      [numberEntry 1, numberEntry 3, numberEntry 5] := by
    refine Pages.IndexReads.single.mpr ⟨childItems [⟨3, numberEntry 3⟩] 4, [3, 4], rfl, rfl, ?_⟩
    exact first.append (Pages.IndexReads.entry (numberEntry_intact 3) last)
  refine ⟨_, _, ⟨⟨reads, ?_, ?_⟩, ?_, ?_, fun page _ => id⟩, rfl⟩
  · refine .cons ?_ (.cons ?_ (.cons ?_ .nil)) <;> intro entry mem
    · rcases mem_cons.mp mem with rfl | later
      · exact keyPlace_lt (by decide)
      · cases mem_singleton.mp later
        exact keyPlace_lt (by decide)
    · cases mem_singleton.mp mem
      exact keyPlace_lt (by decide)
    · cases mem
  · intro entry mem
    simp only [mem_cons, not_mem_nil, or_false] at mem
    rcases mem with rfl | rfl | rfl <;> exact plain_number _
  · decide
  · refine ⟨nodup_nil, fun page mem => (nomatch mem), fun page mem => ?_⟩
    refine ⟨not_mem_nil, ?_⟩
    have within : page ∈ [2, 3, 4] := mem.resolve_left id
    simp only [mem_cons, not_mem_nil, or_false] at within
    change page ≤ 4
    omega

/-- Key 4 goes in, key 3 of the interior page goes out, and what is there or absent
is refused. -/
theorem keys_inserted_and_deleted :
    (performKeys smallPages compareKeys 2 [.insert [.integer 4] 3, .insert [.integer 3] 3,
      .delete [.integer 3], .delete [.integer 2]] keysOneThreeFive).1 =
        [.ok (), .error .duplicateKey, .ok (), .error .keyNotFound] ∧
      (performKeys smallPages compareKeys 2 [.insert [.integer 4] 3, .insert [.integer 3] 3,
        .delete [.integer 3], .delete [.integer 2]] keysOneThreeFive).2.indexKeys [] 2 =
          [[.integer 1], [.integer 4], [.integer 5]] := by
  have takes : KeyCallsTake smallPages compareKeys 2 [.insert [.integer 4] 3,
      .insert [.integer 3] 3, .delete [.integer 3], .delete [.integer 2]] keysOneThreeFive := by
    refine ⟨⟨trivial, ?_⟩, ?_, ⟨trivial, ?_⟩, ?_, ⟨trivial, ?_⟩, ?_, ⟨trivial, ?_⟩, ?_, trivial⟩
    · intro route member
      cases mem_singleton.mp member
      trivial
    · intro ancestors leaf layout position found here search
      cases found
      cases here
      cases search
      exact .inl (by decide)
    · intro route member
      cases mem_singleton.mp member
      trivial
    · intro ancestors leaf layout position found
      cases found
    · intro route member
      cases mem_singleton.mp member
      trivial
    · intro page child found
      cases found
      intro layout rightmost routes predecessor content greatest replaced
      cases content
      cases greatest
      cases replaced
      decide
    · intro route member
      cases mem_singleton.mp member
      trivial
    · intro page child found
      cases found
  have plain : ∀ call ∈ ([.insert [.integer 4] 3, .insert [.integer 3] 3, .delete [.integer 3],
      .delete [.integer 2]] : List (KeyCall (List Value))), PlainKey call.key := by
    intro call member
    simp only [mem_cons, not_mem_nil, or_false] at member
    rcases member with rfl | rfl | rfl | rfl <;> exact plain_number _
  obtain ⟨_, outcomes, walk, _⟩ := key_calls_refine_set [] keysOneThreeFive_holds plain takes
  rw [outcomes, walk]
  decide

end Plain

section Tower

/-- An index at page 2 that goes down to the right for so many pages, each with an
entry after a leaf of its own. Deletes neither merge nor rebalance underfull pages and keep
an interior page that they drained, so the number of entries does not bound the height. -/
def indexTower (levels : Nat) : Pages Unit (List Value) where
  content page :=
    if page < 2 then .blank
    else if page < levels + 2 then
      .indexInterior (Layout.writePageCommon (indexRouteSize smallPages) 512
        [⟨page + levels + 1, numberEntry (2 * page + 1 : Nat)⟩]) (page + 1)
    else if page = levels + 2 then
      .indexLeaf (Layout.writePageCommon (entrySize smallPages) 512
        [numberEntry (2 * page : Nat)])
    else
      .indexLeaf (Layout.writePageCommon (entrySize smallPages) 512
        [numberEntry (2 * (page - (levels + 1)) : Nat)])
  count := 2 * levels + 2

variable {levels page : Nat}

theorem indexTower_interior (least : 2 ≤ page) (most : page < levels + 2) :
    (indexTower levels).content page = .indexInterior
      (Layout.writePageCommon (indexRouteSize smallPages) 512
        [⟨page + levels + 1, numberEntry (2 * page + 1 : Nat)⟩]) (page + 1) := by
  simp only [indexTower]
  rw [if_neg (by omega), if_pos most]

theorem indexTower_bottom : (indexTower levels).IndexReads [.page (levels + 2)] [levels + 2]
    [numberEntry (2 * (levels + 2) : Nat)] := by
  have content : (indexTower levels).content (levels + 2) = .indexLeaf (Layout.writePageCommon
      (entrySize smallPages) 512 [numberEntry (2 * (levels + 2) : Nat)]) := by
    simp only [indexTower]
    rw [if_neg (by omega), if_neg (by omega), if_pos trivial]
  exact .of_number content (writePageCommon_cells ..)

theorem indexTower_side (least : 2 ≤ page) : (indexTower levels).IndexReads
    [.page (page + levels + 1)] [page + levels + 1] [numberEntry (2 * page : Nat)] := by
  have content : (indexTower levels).content (page + levels + 1) = .indexLeaf
      (Layout.writePageCommon (entrySize smallPages) 512
        [numberEntry (2 * (page + levels + 1 - (levels + 1)) : Nat)]) := by
    simp only [indexTower]
    rw [if_neg (by omega), if_neg (by omega), if_neg (by omega)]
  rw [show page + levels + 1 - (levels + 1) = page by omega] at content
  exact .of_number content (writePageCommon_cells ..)

theorem indexTower_reads (left : Nat) (least : 2 ≤ page) (height : page + left = levels + 2) :
    ∃ (used : List Nat) (numbers : List Int),
      (indexTower levels).IndexReads [.page page] used (numbers.map numberEntry) ∧
      used.Nodup ∧ (∀ held ∈ used, page ≤ held ∧ held ≤ levels + 2 ∨
        page + levels + 1 ≤ held ∧ held ≤ 2 * levels + 2) ∧
      numbers.Pairwise (· < ·) ∧ ∀ num ∈ numbers, (2 * page : Nat) ≤ num := by
  induction left generalizing page with
  | zero =>
    cases (show page = levels + 2 by omega)
    refine ⟨_, [_], indexTower_bottom, nodup_singleton _, ?_, pairwise_singleton _ _, ?_⟩
    · intro held mem
      cases mem_singleton.mp mem
      exact .inl ⟨Nat.le_refl _, Nat.le_refl _⟩
    · intro num mem
      cases mem_singleton.mp mem
      exact Int.le_refl _
  | succ left ih =>
    obtain ⟨used, numbers, below, nodup, inside, asc, later⟩ :=
      @ih (page + 1) (by omega) (by omega)
    have own := indexTower_interior least (show page < levels + 2 by omega)
    have reads : (indexTower levels).IndexReads [.page page]
        (page :: ([page + levels + 1] ++ ([] ++ used)))
        (((2 * page : Nat) :: (2 * page + 1 : Nat) :: numbers : List Int).map numberEntry) := by
      refine Pages.IndexReads.single.mpr ⟨_, _, Pages.items_interior own, rfl, ?_⟩
      exact (indexTower_side least).append (Pages.IndexReads.entry (numberEntry_intact _) below)
    refine ⟨_, _, reads, ?_, ?_, ?_, ?_⟩
    · refine nodup_cons.mpr ⟨fun mem => ?_, nodup_cons.mpr ⟨fun mem => ?_, nodup⟩⟩
      · rcases mem_cons.mp mem with same | mem
        · omega
        · rcases inside page mem with range | range <;> omega
      · rcases inside _ mem with range | range <;> omega
    · intro held mem
      rcases mem_cons.mp mem with same | mem
      · omega
      rcases mem_cons.mp mem with same | mem
      · omega
      rcases inside held mem with range | range
      · exact .inl ⟨by omega, range.2⟩
      · exact .inr ⟨by omega, range.2⟩
    · refine pairwise_cons.mpr ⟨fun num mem => ?_, pairwise_cons.mpr ⟨fun num mem => ?_, asc⟩⟩
      · rcases mem_cons.mp mem with same | mem
        · omega
        · have bound := later num mem
          omega
      · have bound := later num mem
        omega
    · intro num mem
      rcases mem_cons.mp mem with same | mem
      · omega
      rcases mem_cons.mp mem with same | mem
      · omega
      · have bound := later num mem
        omega

theorem indexTower_holds (levels : Nat) : ∃ keys,
    (indexTower levels).HoldsKeys keyPlace PlainKey (fun _ => False) 2 keys := by
  obtain ⟨used, numbers, reads, nodup, inside, asc, _⟩ :=
    @indexTower_reads levels 2 levels (Nat.le_refl _) (Nat.add_comm _ _)
  refine ⟨_, used, _, ⟨⟨reads, ?_, ?_⟩, nodup, ?_, fun page _ => id⟩, rfl⟩
  · exact pairwise_map.mpr (asc.imp keyPlace_lt)
  · intro entry mem
    obtain ⟨num, _, rfl⟩ := mem_map.mp mem
    exact plain_number num
  · refine ⟨nodup_nil, fun page mem => (nomatch mem), fun page mem => ?_⟩
    refine ⟨not_mem_nil, ?_⟩
    change page ≤ 2 * levels + 2
    rcases inside page (mem.resolve_left id) with range | range
    · omega
    · exact range.2

theorem indexTower_search {num : Int} (beyond : (2 * levels + 4 : Nat) < num) (budget : Nat)
    (before : List Nat) (least : 2 ≤ page) (short : page + budget ≤ levels + 2) :
    (indexTower levels).descendIndexTree compareKeys [.integer num] budget before page =
      .error .traversalTooLong := by
  induction budget generalizing page before with
  | zero => rfl
  | succ budget ih =>
    have past : compareKeys [.integer num] (numberEntry (2 * page + 1 : Nat)).key = .gt := by
      rw [numberEntry, compareKeys_numbers]
      apply compare_gt_iff_gt.mpr
      omega
    unfold Pages.descendIndexTree
    rw [indexTower_interior least (by omega)]
    simp only [writePageCommon_cells]
    rw [find?_cons_of_neg (by rw [past]; decide)]
    rw [find?_cons_of_neg (by rw [past]; decide)]
    exact @ih (page + 1) _ (by omega) (by omega)

theorem insert_key_lost {geom : Geometry} {compareKeys : κ → κ → Ordering} {key : κ}
    {root : Nat} {pages : Pages ρ κ} {error : BtreeError} (length : Nat)
    (lost : pages.descendIndexTree compareKeys key maxPagesVisited [] root = .error error) :
    BtreeStep.Takes geom compareKeys ((KeyCall.insert key length).step root) pages ∧
      ((KeyCall.insert key length).perform geom compareKeys root pages).1 = .error error := by
  constructor
  · intro ancestors leaf layout pos found
    rw [lost] at found
    cases found
  · simp [KeyCall.perform, KeyCall.step, BtreeStep.run, Pages.insertEntry, lost]

/-- A well-formed index with more levels than a search visits refuses a new key with an
error that is not about duplicates. -/
theorem deep_index_refuses_key : ∃ keys,
    (indexTower maxPagesVisited).HoldsKeys keyPlace PlainKey (fun _ => False) 2 keys ∧
      BtreeStep.Takes smallPages compareKeys ((KeyCall.insert [.integer 3000000] 3).step 2)
        (indexTower maxPagesVisited) ∧
      ((KeyCall.insert [.integer 3000000] 3).perform smallPages compareKeys 2
        (indexTower maxPagesVisited)).1 ≠
        ((KeyCall.insert [.integer 3000000] 3).apply compareKeys keys).1 := by
  obtain ⟨keys, holds⟩ := indexTower_holds maxPagesVisited
  have beyond : ((2 * maxPagesVisited + 4 : Nat) : Int) < 3000000 := by decide
  have search := indexTower_search beyond maxPagesVisited [] (Nat.le_refl 2) (Nat.add_comm ..).le
  obtain ⟨takes, refused⟩ := @insert_key_lost Unit (List Value) smallPages _ _ 2 _ _ 3 search
  refine ⟨keys, holds, takes, ?_⟩
  rw [refused]
  simp only [KeyCall.apply]
  split <;> exact nofun

end Tower

end SqliteRs
