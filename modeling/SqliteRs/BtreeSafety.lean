import SqliteRs.PageSafety

/-!
Safety of index b-tree writes, and of whole runs of b-tree operations. The half
of a split index page that takes the new entry must fit its page at every level
the split reaches, and an interior page must fit with the greatest entry of a
subtree in the place of a deleted one. Runs whose operations meet these
conditions write only sound pages.
-/

namespace SqliteRs

open List Option Layout Pages Nat

variable {ρ κ : Type} (geom : Geometry) (compareKeys : κ → κ → Ordering)

/-- A promoted entry goes into the parent, or the half of the parent that takes
it fits a page and the parent's own median goes on to the next ancestor. -/
def IndexParentTakes : List Nat → Nat → Nat → IndexEntry κ → Pages ρ κ → Prop
  | [], _, _, _, _ => True
  | parent :: rest, old, new, promoted, pages =>
    ∀ layout rightmost routes last, pages.content parent = .indexInterior layout rightmost →
      Pages.splitIndexRoutes layout.cells rightmost old new promoted = some (routes, last) →
      Fits (interiorBase parent) geom.pageLen (routes.map (indexRouteSize geom)) ∨
        SplitFits (interiorBase parent) 12 geom.pageLen
          (layout.cells.findIdx fun route => route.child == old) (routes.length / 2) 1
          (routes.map (indexRouteSize geom)) ∧
        ∀ median, routes[routes.length / 2]? = some median →
          IndexParentTakes rest parent
            (pages.splitIndexInterior geom parent routes median last).1 median.entry
            (pages.splitIndexInterior geom parent routes median last).2

def IndexLeafTakes (ancestors : List Nat) (leaf position : Nat) (entries : List (IndexEntry κ))
    (entry : IndexEntry κ) (pages : Pages ρ κ) : Prop :=
  let cells := entries.insertIdx position entry
  Fits (leafBase leaf) geom.pageLen (cells.map (entrySize geom)) ∨
    SplitFits (leafBase leaf) 8 geom.pageLen position (cells.length / 2) 1
      (cells.map (entrySize geom)) ∧
    ∀ median, cells[cells.length / 2]? = some median →
      IndexParentTakes geom ancestors leaf (pages.splitIndexLeaf geom leaf cells).1 median
        (pages.splitIndexLeaf geom leaf cells).2

def greatestEntry (pages : Pages ρ κ) : Nat → Nat → Option (IndexEntry κ)
  | 0, _ => none
  | budget + 1, page =>
    match pages.content page with
    | .indexLeaf layout => layout.cells.getLast?
    | .indexInterior layout rightmost =>
      match greatestEntry pages budget rightmost with
      | some entry => some entry
      | none => layout.cells.getLast?.map IndexRoute.entry
    | _ => none

/-- An interior index page fits with the greatest entry of a child's subtree in
the place of the child's own entry. -/
def PredecessorFits (pages : Pages ρ κ) (page child : Nat) : Prop :=
  ∀ layout rightmost routes predecessor, pages.content page = .indexInterior layout rightmost →
    greatestEntry pages (maxPagesVisited + 1) child = some predecessor →
    Pages.replaceEntry child predecessor layout.cells = some routes →
    Fits (interiorBase page) geom.pageLen (routes.map (indexRouteSize geom))

namespace Pages

variable {geom compareKeys} {pages next : Pages ρ κ}

section IndexInsert

variable {old new rightmost page target root : Nat} {promoted : IndexEntry κ}
  {routes split : List (IndexRoute κ)}

theorem splitIndexRoutes_sizes {last : Nat}
    (done : splitIndexRoutes routes rightmost old new promoted = some (split, last)) :
    split.map (indexRouteSize geom) = (routes.map (indexRouteSize geom)).insertIdx
      (routes.findIdx fun route => route.child == old) (indexRouteSize geom ⟨old, promoted⟩) ∧
    ∀ area : Nat → Prop, area rightmost → area new → (∀ page ∈ promoted.overflow, area page) →
      (∀ route ∈ routes, area route.child ∧ ∀ page ∈ route.entry.overflow, area page) →
      area last ∧ ∀ route ∈ split, area route.child ∧ ∀ page ∈ route.entry.overflow, area page := by
  unfold splitIndexRoutes at done
  split at done
  · rename_i found
    cases done
    obtain ⟨front, route, back, rfl, first, here, rfl⟩ := (splitIndexRoute_edits ..).split found
    have at_ : (front ++ route :: back).findIdx (fun route => route.child == old) = front.length := by
      rw [findIdx_append, findIdx_eq_length.mpr fun other mem => beq_false_of_ne (first other mem)]
      simp [findIdx_cons, here]
    rw [at_, insertIdx_split _ _ _ (by simp)]
    refine ⟨by simp [indexRouteSize], fun area ends fresh chain inside => ⟨ends, ?_⟩⟩
    simp only [forall_mem_append, forall_mem_cons, cons_append, nil_append, here] at inside ⊢
    exact ⟨inside.1, ⟨inside.2.1.1, chain⟩, ⟨fresh, inside.2.1.2⟩, inside.2.2⟩
  · rename_i missing
    split at done
    swap
    · cases done
    rename_i same
    cases done
    have none := (splitIndexRoute_edits ..).none_iff.mp missing
    rw [findIdx_eq_length.mpr fun route mem => beq_false_of_ne (none route mem),
      insertIdx_split _ _ _ (by simp), ← map_take, ← map_drop]
    refine ⟨by simp, fun area ends fresh chain inside => ⟨fresh, forall_mem_append.mpr ⟨inside, ?_⟩⟩⟩
    exact forall_mem_singleton.mpr ⟨same ▸ ends, chain⟩

theorem entrySize_le (geom : Geometry) (entry : IndexEntry κ) :
    entrySize geom entry ≤ 13 + (geom.usable - 12) * 64 / 255 := by
  have varint := varintLen_le entry.length
  have kept : geom.localPayloadSize entry.length true ≤ (geom.usable - 12) * 64 / 255 := by
    unfold Geometry.localPayloadSize
    simp only [if_true]
    split
    · omega
    split
    · omega
    · omega
  unfold entrySize Geometry.valueSize
  split <;> omega

theorem single_entry_fits (page : Nat) (route : IndexRoute κ) :
    Fits (interiorBase page) geom.pageLen ([route].map (indexRouteSize geom)) := by
  have base := interiorBase_le page
  have bound := entrySize_le geom route.entry
  have size := geom.pageLen_ge
  have usable := geom.usable_le
  simp only [Fits, indexRouteSize, map_cons, map_nil, length_singleton, sum_singleton]
  omega

variable (whole : geom.usable = geom.pageLen)
include whole

theorem Good.indexRootSplit {right : Nat} (good : pages.Good geom) (other : right ≠ 1)
    (chain : 1 ∉ promoted.overflow)
    (done : indexRootSplit geom root right promoted pages = .ok next) : next.Good geom := by
  obtain ⟨fresh, alloc⟩ := good.allocatePage
  obtain ⟨leaves, interiors⟩ := base_of_ne_one fresh
  have only : ∀ route ∈ [(⟨pages.allocatePage.1, promoted⟩ : IndexRoute κ)],
      route.child ≠ 1 ∧ 1 ∉ route.entry.overflow := by
    intro route mem
    cases mem_singleton.mp mem
    exact ⟨fresh, chain⟩
  unfold Pages.indexRootSplit at done
  split at done
  · rename_i layout here
    have spared := (good.at here).2
    cases done
    have moved := alloc.writeIndexLeafPage whole
      (Layout.Sound.fits_at whole (good.at here).1 (leaves.le.trans (leafBase_le root).1)) spared
    exact moved.writeIndexInteriorPage whole (single_entry_fits root _) other only
  · rename_i layout rightmost here
    have spared := (good.at here).2
    cases done
    have moved := alloc.writeIndexInteriorPage whole
      (Layout.Sound.fits_at whole (good.at here).1 (interiors.le.trans (interiorBase_le root).1))
      spared.1 spared.2
    exact moved.writeIndexInteriorPage whole (single_entry_fits root _) other only
  · cases done

theorem Good.insertIntoIndexParent (ancestors : List Nat) {pages : Pages ρ κ}
    (good : pages.Good geom) (other : new ≠ 1) (chain : 1 ∉ promoted.overflow)
    (takes : IndexParentTakes geom ancestors old new promoted pages)
    (done : insertIntoIndexParent geom root ancestors old new promoted pages = .ok next) :
    next.Good geom := by
  induction ancestors generalizing old new promoted pages with
  | nil => exact good.indexRootSplit whole other chain done
  | cons parent rest ih =>
    unfold insertIntoIndexParent at done
    split at done
    swap
    · cases done
    rename_i layout rightmost here
    have fits := Layout.Sound.fits_at whole (good.at here).1 (le_refl _)
    have spared := (good.at here).2
    split at done
    · cases done
    rename_i routes last found
    obtain ⟨sizes, keep⟩ := @splitIndexRoutes_sizes _ geom _ _ _ _ _ _ _ found
    obtain ⟨ends, members⟩ := keep (· ≠ 1) spared.1 other (forall_mem_ne'.mpr chain)
      fun route mem => ⟨(spared.2 route mem).1, forall_mem_ne'.mpr (spared.2 route mem).2⟩
    replace members : ∀ route ∈ routes, route.child ≠ 1 ∧ 1 ∉ route.entry.overflow :=
      fun route mem => ⟨(members route mem).1, forall_mem_ne'.mp (members route mem).2⟩
    have room := takes layout rightmost routes last here found
    split at done
    · rename_i enough
      cases done
      have fitting : Fits (interiorBase parent) geom.pageLen
          (routes.map (indexRouteSize geom)) := by
        rw [Fits, length_map]
        exact enough
      exact good.writeIndexInteriorPage whole fitting ends members
    rename_i overfull
    split at done
    · cases done
    rename_i median middle
    rcases room with fitting | ⟨split, onward⟩
    · rw [Fits, length_map] at fitting
      exact absurd fitting overfull
    rw [sizes] at split
    have inside : (layout.cells.findIdx fun route => route.child == old) ≤
        (layout.cells.map (indexRouteSize geom)).length := by
      rw [length_map]
      exact findIdx_le_length
    obtain ⟨left, right⟩ := halves_fit fits inside (interiorBase_le parent).1 split
    rw [← sizes, ← map_take] at left
    rw [← sizes, ← map_drop] at right
    obtain ⟨fresh, alloc⟩ := good.allocatePage
    obtain ⟨child, entry⟩ := members median (mem_of_getElem? middle)
    have first := alloc.writeIndexInteriorPage whole left child
      fun route mem => members route (mem_of_mem_take mem)
    rw [← (base_of_ne_one fresh).2] at right
    exact ih (first.writeIndexInteriorPage whole right ends
      fun route mem => members route (mem_of_mem_drop mem)) fresh entry
      (onward median middle) done

omit whole in
theorem searchIndexLeaf_position (entries : List (IndexEntry κ)) (key : κ) (rounds : Nat)
    {low high pos : Nat} (ordered : low ≤ high) (bound : high ≤ entries.length)
    (done : searchIndexLeaf compareKeys entries key rounds low high = .notFound pos) :
    pos ≤ entries.length := by
  induction rounds generalizing low high with
  | zero =>
    cases done
    exact ordered.trans bound
  | succ rounds ih =>
    unfold searchIndexLeaf at done
    split at done
    · simp only at done
      split at done
      · cases done
        exact ordered.trans bound
      split at done
      · cases done
      · exact ih (by omega) (by omega) done
      · exact ih (by omega) bound done
    · cases done
      exact ordered.trans bound

omit whole in
theorem Good.encodeIndexCell (good : pages.Good geom) (key : κ) (length : Nat) :
    1 ∉ (pages.encodeIndexCell geom key length).1.overflow ∧
      (pages.encodeIndexCell geom key length).2.Good geom := by
  obtain ⟨spared, alloc⟩ := good.allocatePages (geom.chainLength length true)
  exact ⟨spared, (fills_keyChain key).keeps (Good geom)
    (fun _ _ _ good => good.set trivial trivial) 0 _ alloc⟩

theorem Good.insertIntoIndexLeaf {leaf : Nat} {ancestors : List Nat} {key : κ} {length : Nat}
    (good : pages.Good geom) (takes : ∀ layout pos, pages.content leaf = .indexLeaf layout →
      searchIndexLeaf compareKeys layout.cells key (layout.cells.length + 1) 0
        layout.cells.length = .notFound pos → IndexLeafTakes geom ancestors leaf pos layout.cells
        (pages.encodeIndexCell geom key length).1 (pages.encodeIndexCell geom key length).2)
    (done : insertIntoIndexLeaf geom compareKeys root ancestors leaf key length pages = .ok next) :
    next.Good geom := by
  obtain ⟨spared, encoded⟩ := good.encodeIndexCell key length
  unfold Pages.insertIntoIndexLeaf at done
  split at done
  swap
  · cases done
  rename_i layout here
  obtain ⟨sound, held⟩ := good.at here
  rw [Page.Sound, whole] at sound
  split at done
  · cases done
  rename_i pos search
  have room := takes layout pos here search
  have bound := searchIndexLeaf_position _ _ _ (zero_le _) (le_refl _) search
  simp only at done
  generalize (pages.encodeIndexCell geom key length).1 = cell at done room spared
  have taking := Taking.of_sound sound (entrySize_pos geom cell) bound spared held
  split at done
  · rename_i enough
    split at done
    · rename_i spliced put
      cases done
      apply encoded.set
      · rw [Page.Sound, whole]
        exact taking.spliced put
      · rw [Page.SparesFirst, spliceInsertCell_cells put]
        exact taking.all
    · cases done
      exact encoded.writeIndexLeafPage whole (taking.total.mpr enough) taking.all
  · rename_i overfull
    split at done
    · cases done
    rename_i median middle
    obtain ⟨split, onward⟩ := room.resolve_left fun fitting => overfull (taking.total.mp fitting)
    obtain ⟨left, right⟩ := taking.halves (leafBase_le leaf).1 split
    obtain ⟨fresh, alloc⟩ := encoded.allocatePage
    have first := alloc.writeIndexLeafPage whole left
      fun mem inside => taking.all mem (mem_of_mem_take inside)
    rw [← (base_of_ne_one fresh).1] at right
    exact (first.writeIndexLeafPage whole right
      fun mem inside => taking.all mem (mem_of_mem_drop inside)).insertIntoIndexParent
        whole ancestors fresh (taking.all median (mem_of_getElem? middle))
        (onward median middle) done

end IndexInsert

section IndexDelete

/-- What taking the greatest entry out of a subtree leaves of a page. -/
inductive Drained (before : Page ρ κ) : Page ρ κ → Prop where
  | same : Drained before before
  | freed : Drained before .trunk
  | leaf {old new : Layout (IndexEntry κ)} (was : before = .indexLeaf old) :
      Drained before (.indexLeaf new)
  | interior {old new : Layout (IndexRoute κ)} {oldRightmost newRightmost : Nat}
      (was : before = .indexInterior old oldRightmost) (kept : new.cells <+: old.cells) :
      Drained before (.indexInterior new newRightmost)

theorem Drained.deallocatePage {before : Page ρ κ} {other : Nat}
    (drained : Drained before (pages.content other)) (page : Nat) :
    Drained before ((pages.deallocatePage geom page).content other) := by
  rcases deallocatePage_content geom page other pages with kept | ⟨_, trunk⟩
  · rw [kept]
    exact drained
  · rw [trunk]
    exact .freed

variable {page child : Nat} {entry : IndexEntry κ} {routes newer : List (IndexRoute κ)} {key : κ}

theorem greatestEntry_spared (good : pages.Good geom) (budget : Nat)
    (greatest : greatestEntry pages budget page = some entry) : 1 ∉ entry.overflow := by
  induction budget generalizing page with
  | zero => cases greatest
  | succ budget ih =>
    unfold greatestEntry at greatest
    split at greatest
    · rename_i layout here
      have spared := (good.at here).2
      exact spared entry (mem_of_getLast? greatest)
    · rename_i layout rightmost here
      have spared := (good.at here).2
      split at greatest
      · rename_i found
        cases greatest
        exact ih found
      · obtain ⟨last, final, rfl⟩ := map_eq_some_iff.mp greatest
        exact (spared.2 last (mem_of_getLast? final)).2
    · cases greatest

theorem replaceEntry_append (done : replaceEntry child entry routes = some newer)
    (more : List (IndexRoute κ)) :
    replaceEntry child entry (routes ++ more) = some (newer ++ more) := by
  obtain ⟨front, route, back, rfl, first, here, rfl⟩ := (replaceEntry_edits ..).split done
  simpa using (replaceEntry_edits ..).at first here (back ++ more)

theorem replaceEntry_mem (done : replaceEntry child entry routes = some newer) :
    ∀ route ∈ newer, route = ⟨child, entry⟩ ∨ route ∈ routes := by
  obtain ⟨front, route, back, rfl, _, _, rfl⟩ := (replaceEntry_edits ..).split done
  grind

theorem descendIndexTree_child (good : pages.Good geom) (budget : Nat) {ancestors : List Nat}
    {start : Nat} (found : pages.descendIndexTree compareKeys key budget ancestors start =
      .ok (.interiorMatch page child)) : child ≠ 1 := by
  induction budget generalizing ancestors start with
  | zero => cases found
  | succ budget ih =>
    unfold descendIndexTree at found
    split at found
    · cases found
    · rename_i layout rightmost here
      have spared := (good.at here).2
      split at found
      · rename_i route sought
        cases found
        exact (spared.2 route (mem_of_find?_eq_some sought)).1
      · split at found
        all_goals exact ih found
    · cases found

variable (whole : geom.usable = geom.pageLen)
include whole

theorem Good.extractMaxEntry (budget : Nat) {taken : Option (IndexEntry κ)} {pages next : Pages ρ κ}
    (good : pages.Good geom)
    (done : extractMaxEntry geom budget page pages = .ok (taken, next)) :
    next.Good geom ∧ taken = greatestEntry pages budget page ∧
      ∀ other, Drained (pages.content other) (next.content other) := by
  induction budget generalizing page taken next with
  | zero => cases done
  | succ budget ih =>
    unfold extractMaxEntry at done
    split at done
    · rename_i layout here
      obtain ⟨sound, spared⟩ := good.at here
      rw [greatestEntry, here]
      split at done
      · rename_i none
        cases done
        exact ⟨good, none.symm, fun _ => .same⟩
      rename_i greatest final
      split at done
      · cases done
      rename_i spliced cut
      cases done
      refine ⟨?_, final.symm, ?_⟩
      · apply good.set
        · exact sound.spliceDeleteCell cut
        · rw [Page.SparesFirst, spliceDeleteCell_cells cut]
          exact fun entry mem => spared entry (mem_of_mem_eraseIdx mem)
      · intro other
        rw [set_content]
        split
        · rename_i same
          rw [same]
          exact .leaf here
        · exact .same
    · rename_i layout rightmost here
      have fits := Layout.Sound.fits_at whole (good.at here).1 (le_refl _)
      have spared := (good.at here).2
      rw [greatestEntry, here]
      simp only
      split at done
      · cases done
      · rename_i greatest deeper found
        cases done
        obtain ⟨kept, same, frame⟩ := ih found
        rw [← same]
        exact ⟨kept, rfl, frame⟩
      rename_i deeper found
      obtain ⟨kept, same, frame⟩ := ih found
      have freed := kept.deallocatePage spared.1
      rw [← same]
      split at done
      · rename_i none
        cases done
        rw [none]
        exact ⟨freed, rfl, fun other => (frame other).deallocatePage _⟩
      rename_i last final
      cases done
      have mem := spared.2 last (mem_of_getLast? final)
      rw [final]
      refine ⟨?_, rfl, ?_⟩
      · apply freed.writeIndexInteriorPage whole _ mem.1
        · exact fun route inside => spared.2 route (mem_of_mem_dropLast inside)
        · exact fits.sublist ((dropLast_sublist _).map _) (le_refl _)
      intro other
      rw [Pages.writeIndexInteriorPage, set_content]
      split
      · rename_i same
        rw [same]
        apply Drained.interior here
        rw [writePageCommon_cells]
        exact dropLast_prefix _
      · exact (frame other).deallocatePage _
    · cases done

theorem Good.removeEntryByChild (good : pages.Good geom)
    (done : removeEntryByChild geom page child pages = .ok next) : next.Good geom := by
  unfold Pages.removeEntryByChild at done
  split at done
  swap
  · cases done
  rename_i layout rightmost here
  have fits := Layout.Sound.fits_at whole (good.at here).1 (le_refl _)
  have spared := (good.at here).2
  split at done
  · cases done
  rename_i removed sought
  cases done
  have fewer : (layout.cells.eraseP fun route => route.child == child).Sublist layout.cells :=
    eraseP_sublist
  have written := good.writeIndexInteriorPage whole
    (fits.sublist (fewer.map (indexRouteSize geom)) (le_refl _)) spared.1
    fun route mem => spared.2 route (fewer.subset mem)
  exact written.freeOverflowChain _ (spared.2 removed (mem_of_find?_eq_some sought)).2

theorem Good.deleteViaPredecessorSwap (good : pages.Good geom) (other : child ≠ 1)
    (takes : PredecessorFits geom pages page child)
    (done : deleteViaPredecessorSwap geom page child pages = .ok next) : next.Good geom := by
  unfold Pages.deleteViaPredecessorSwap at done
  split at done
  · cases done
  · rename_i drained extracted
    exact ((good.extractMaxEntry whole _ extracted).1.deallocatePage other).removeEntryByChild
      whole done
  rename_i predecessor left extracted
  obtain ⟨kept, same, frame⟩ := good.extractMaxEntry whole _ extracted
  have spared := kept.spared page
  split at done
  swap
  · cases done
  rename_i layout rightmost here
  rw [here] at spared
  split at done
  · cases done
  rename_i routes newer
  cases done
  -- The subtree may have cut entries off the page itself, never added any.
  obtain ⟨whole', last, more, before, cells⟩ : ∃ whole' last more,
      pages.content page = .indexInterior whole' last ∧ layout.cells ++ more = whole'.cells := by
    have change := frame page
    rw [here] at change
    generalize pages.content page = content at change
    cases change with
    | same => exact ⟨layout, rightmost, [], rfl, append_nil _⟩
    | interior was prefixed => exact ⟨_, _, prefixed.choose, was, prefixed.choose_spec⟩
  have fits := takes whole' last (routes ++ more) predecessor before same.symm
    (cells ▸ replaceEntry_append newer more)
  apply kept.writeIndexInteriorPage whole _ spared.1
  · intro route mem
    rcases replaceEntry_mem newer route mem with fresh | old
    · rw [fresh]
      exact ⟨other, greatestEntry_spared good _ same.symm⟩
    · exact spared.2 route old
  · exact fits.sublist ((sublist_append_left _ _).map _) (le_refl _)

omit whole in
theorem Good.deleteFromLeaf {leaf : Nat} (good : pages.Good geom)
    (done : deleteFromLeaf geom compareKeys leaf key pages = .ok next) : next.Good geom := by
  have spared := good.spared leaf
  have sound := good.sound leaf
  unfold Pages.deleteFromLeaf at done
  split at done
  swap
  · cases done
  rename_i layout here
  rw [here] at spared sound
  split at done
  · cases done
  rename_i pos _
  split at done
  · cases done
  rename_i spliced cut
  cases done
  have written : (pages.set leaf (.indexLeaf spliced)).Good geom := by
    apply good.set
    · exact sound.spliceDeleteCell cut
    · rw [Page.SparesFirst, spliceDeleteCell_cells cut]
      exact fun entry mem => spared entry (mem_of_mem_eraseIdx mem)
  apply written.freeOverflowChain
  cases held : layout.cells[pos]? with
  | none => exact not_mem_nil
  | some entry => exact spared entry (mem_of_getElem? held)

end IndexDelete

end Pages

section Runs

inductive BtreeStep (ρ κ : Type) where
  | insertRow (root : Nat) (rowid : Int) (payload : ρ) (length : Nat)
  | deleteRow (root : Nat) (rowid : Int)
  | insertEntry (root : Nat) (key : κ) (length : Nat)
  | deleteEntry (root : Nat) (key : κ)

def BtreeStep.run : BtreeStep ρ κ → Pages ρ κ → Except BtreeError (Pages ρ κ)
  | .insertRow root rowid payload length, pages =>
    pages.insertRow geom root rowid payload length
  | .deleteRow root rowid, pages => pages.deleteRow geom root rowid
  | .insertEntry root key length, pages => pages.insertEntry geom compareKeys root key length
  | .deleteEntry root key, pages => pages.deleteEntry geom compareKeys root key

/-- Room for an operation on the pages it starts from: in the leaf that takes a
row or the half it goes to, in page 1 for the child that collapses into it, on every
level a split index page reaches, and in place of a deleted interior entry. -/
def BtreeStep.Takes : BtreeStep ρ κ → Pages ρ κ → Prop
  | .insertRow root rowid payload length, pages =>
    let (cell, stored) := pages.encodeLeafCell geom rowid payload length
    ∀ ancestors leaf layout, stored.findLeafPage rowid maxPagesVisited [] root =
        .ok (ancestors, leaf) →
      stored.content leaf = .tableLeaf layout → LeafTakes geom leaf layout.cells cell
  | .deleteRow root rowid, pages => SiblingFits geom root rowid pages
  | .insertEntry root key length, pages =>
    let (cell, stored) := pages.encodeIndexCell geom key length
    ∀ ancestors leaf layout position,
      pages.descendIndexTree compareKeys key maxPagesVisited [] root =
        .ok (.leaf ancestors leaf) →
      pages.content leaf = .indexLeaf layout →
      Pages.searchIndexLeaf compareKeys layout.cells key (layout.cells.length + 1) 0
        layout.cells.length = .notFound position →
      IndexLeafTakes geom ancestors leaf position layout.cells cell stored
  | .deleteEntry root key, pages =>
    ∀ page child, pages.descendIndexTree compareKeys key maxPagesVisited [] root =
        .ok (.interiorMatch page child) →
      PredecessorFits geom pages page child

/-- The errors with which an operation on a well-formed tree refuses its row or key. -/
def BtreeError.Refuses : BtreeError → Prop
  | .duplicateRowid _ | .rowidNotFound _ | .duplicateKey | .keyNotFound => True
  | _ => False

/-- What a refused operation leaves: an inserted row has its overflow pages by then. -/
def BtreeStep.refused : BtreeStep ρ κ → Pages ρ κ → Pages ρ κ
  | .insertRow _ rowid payload length, pages =>
    (pages.encodeLeafCell geom rowid payload length).2
  | _, pages => pages

def TakenStep (pages next : Pages ρ κ) : Prop :=
  ∃ step : BtreeStep ρ κ,
    step.Takes geom compareKeys pages ∧ step.run geom compareKeys pages = .ok next ∨
    (∃ error, step.run geom compareKeys pages = .error error ∧ error.Refuses) ∧
      next = step.refused geom pages

variable {geom compareKeys} {pages next : Pages ρ κ}

theorem Pages.Good.step (whole : geom.usable = geom.pageLen) (good : pages.Good geom)
    (taken : TakenStep geom compareKeys pages next) : next.Good geom := by
  obtain ⟨step, ⟨takes, done⟩ | ⟨-, rfl⟩⟩ := taken
  swap
  · cases step with
    | insertRow root rowid payload length => exact (good.encodeLeafCell rowid payload length).2
    | _ => exact good
  cases step with
  | insertRow root rowid payload length =>
    obtain ⟨spared, encoded⟩ := good.encodeLeafCell rowid payload length
    simp only [BtreeStep.run, insertRow] at done
    split at done
    · cases done
    rename_i ancestors leaf found
    exact encoded.insertIntoLeaf whole spared
      (fun layout here => takes ancestors leaf layout found here) done
  | deleteRow root rowid => exact good.deleteRow whole takes done
  | insertEntry root key length =>
    simp only [BtreeStep.run, insertEntry] at done
    split at done
    · cases done
    · cases done
    rename_i ancestors leaf found
    exact good.insertIntoIndexLeaf whole
      (fun layout pos here search => takes ancestors leaf layout pos found here search)
      done
  | deleteEntry root key =>
    simp only [BtreeStep.run, deleteEntry] at done
    split at done
    · cases done
    · exact good.deleteFromLeaf done
    rename_i page child found
    exact good.deleteViaPredecessorSwap whole
      (descendIndexTree_child good maxPagesVisited found) (takes page child found) done

theorem Pages.Good.steps (whole : geom.usable = geom.pageLen) (good : pages.Good geom)
    (run : Relation.ReflTransGen (TakenStep geom compareKeys) pages next) : next.Good geom := by
  induction run with
  | refl => exact good
  | tail _ taken ih => exact ih.step whole taken

/-- Every page is laid out soundly after any run of b-tree operations whose
pages had room for each of them. -/
theorem btree_pages_sound (whole : geom.usable = geom.pageLen)
    (good : pages.Good geom)
    (run : Relation.ReflTransGen (TakenStep geom compareKeys) pages next) (page : Nat) :
    (next.content page).Sound geom page :=
  (good.steps whole run).sound page

end Runs

section Overflow

def smallPages : Geometry where
  pageLen := 512
  usable := 512
  pageLen_ge := by decide
  usable_le := by decide
  reserved_le := by decide

/-- A table at page 2 whose only leaf holds two short rows and a long one. -/
def shortAndLong : Pages Unit Unit :=
  ({ content := fun _ => .blank, count := 2 } : Pages Unit Unit).writeLeafPage smallPages 2
    [{ rowid := 1, length := 3, payload := () }, { rowid := 2, length := 3, payload := () },
      { rowid := 3, length := 390, payload := () }]

theorem shortAndLong_good : shortAndLong.Good smallPages := by
  have blank : ({ content := fun _ => .blank, count := 2 } : Pages Unit Unit).Good smallPages := by
    constructor
    · exact fun _ => trivial
    · exact fun _ => trivial
    · decide
    · exact fun _ mem => nomatch mem
  apply blank.writeLeafPage rfl
  · decide
  · decide

/-- A row of 100 bytes splits the leaf, and every page of the new tree is sound; a second row
with its rowid is refused and leaves them so. -/
theorem split_leaf_sound : ∃ next, shortAndLong.insertRow smallPages 2 4 () 100 = .ok next ∧
    next.insertRow smallPages 2 4 () 3 = .error (.duplicateRowid 4) ∧
    (next.content 2).Sound smallPages 2 ∧ (next.content 3).Sound smallPages 3 ∧
    (next.content 4).Sound smallPages 4 := by
  have room : (BtreeStep.insertRow 2 4 () 100).Takes smallPages (fun _ _ => .eq) shortAndLong := by
    intro ancestors leaf layout found here
    cases found
    cases here
    exact .inr ⟨by decide, by decide⟩
  refine ⟨_, rfl, rfl, ?_⟩
  have run : Relation.ReflTransGen (TakenStep smallPages fun _ _ => .eq) shortAndLong _ :=
    .tail (.single ⟨_, .inl ⟨room, rfl⟩⟩) ⟨.insertRow 2 4 () 3, .inr ⟨⟨_, rfl, trivial⟩, rfl⟩⟩
  have sound := btree_pages_sound rfl shortAndLong_good run
  exact ⟨sound 2, sound 3, sound 4⟩

/-- A second long row goes to the half with the first, which is written over its own
pointers and page header. -/
theorem long_row_overflows : shortAndLong.Good smallPages ∧
    ∃ next, shortAndLong.insertRow smallPages 2 4 () 390 = .ok next ∧
      ¬ (next.content 3).Sound smallPages 3 := by
  refine ⟨shortAndLong_good, _, rfl, ?_⟩
  intro sound
  exact absurd sound.pointers (by decide)

end Overflow

end SqliteRs
