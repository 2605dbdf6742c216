import SqliteRs.IndexSearching

/-!
Inserting an entry into a well-formed index puts it in its place. A full page is
cut at its median, which goes up between the halves, as far as the parents are full.
-/

namespace SqliteRs

open List Option Layout Pages IndexReads

variable {ρ κ P : Type} [LinearOrder P] {geom : Geometry}

section Routes

variable {routes split : List (IndexRoute κ)} {rightmost last old new : Nat}
  {promoted : IndexEntry κ} {left right : List (IndexItem κ)}

theorem childItems_at (earlier later : List (IndexRoute κ)) (child rightmost : Nat)
    (entry : IndexEntry κ) : childItems (earlier ++ ⟨child, entry⟩ :: later) rightmost =
      routeItems earlier ++ ([.page child] ++ .entry entry :: childItems later rightmost) := by
  rw [childItems, routeItems_append, append_assoc]
  rfl

theorem append_cons_first {Item : Type} {item : Item} {front back other rest : List Item}
    (same : front ++ item :: back = other ++ item :: rest) (first : item ∉ front)
    (second : item ∉ other) : front = other ∧ back = rest := by
  simp only [append_eq_append_iff, cons_eq_append_iff] at same
  aesop

theorem page_notMem_routeItems (first : ∀ route ∈ routes, route.child ≠ old) :
    .page old ∉ routeItems routes := by
  simpa [routeItems, eq_comm] using first

theorem splitIndexRoutes_items (whole : childItems routes rightmost = left ++ .page old :: right)
    (others : .page old ∉ left)
    (done : splitIndexRoutes routes rightmost old new promoted = some (split, last)) :
    childItems split last = left ++ .page old :: .entry promoted :: .page new :: right := by
  unfold splitIndexRoutes at done
  split at done
  · rename_i found
    cases done
    obtain ⟨before, ⟨_, entry⟩, after, rfl, first, rfl, rfl⟩ :=
      (splitIndexRoute_edits ..).split found
    rw [childItems_at] at whole
    obtain ⟨rfl, rfl⟩ := append_cons_first whole (page_notMem_routeItems first) others
    simp [childItems, routeItems]
  · rename_i missing
    split at done
    swap
    · cases done
    rename_i last
    cases done
    subst last
    obtain ⟨rfl, rfl⟩ := append_cons_first whole
      (page_notMem_routeItems ((splitIndexRoute_edits ..).none_iff.mp missing)) others
    simp [childItems, routeItems]

theorem splitIndexRoutes_some (whole : childItems routes rightmost = left ++ .page old :: right)
    (new : Nat) (promoted : IndexEntry κ) :
    ∃ res, splitIndexRoutes routes rightmost old new promoted = some res := by
  unfold splitIndexRoutes
  split
  · exact ⟨_, rfl⟩
  rename_i missing
  have listed : .page old ∈ childItems routes rightmost := whole ▸ mem_append_right _ (.head _)
  rcases mem_childItems.mp listed with rfl | ⟨route, mem, same⟩
  · rw [if_pos rfl]
    exact ⟨_, rfl⟩
  · exact absurd same ((splitIndexRoute_edits ..).none_iff.mp missing route mem)

theorem childItems_cut {pos : Nat} {median : IndexRoute κ} (held : routes[pos]? = some median) :
    childItems routes rightmost = childItems (routes.take pos) median.child ++
      .entry median.entry :: childItems (routes.drop (pos + 1)) rightmost := by
  obtain ⟨bound, rfl⟩ := List.getElem?_eq_some_iff.mp held
  conv => lhs; rw [← take_append_drop pos routes, drop_eq_getElem_cons bound]
  unfold childItems
  rw [routeItems_append, routeItems_cons]
  simp [append_assoc, cons_append, nil_append]

end Routes

namespace Pages

variable {pages next : Pages ρ κ} {place : κ → P} {allowed : κ → Prop} {root : Nat}
  {others : Nat → Prop}

section Writes

variable {page written : Nat}

theorem writeIndexInteriorPage_here (geom : Geometry) (page : Nat)
    (routes : List (IndexRoute κ)) (rightmost : Nat) (pages : Pages ρ κ) :
    ∃ layout, (pages.writeIndexInteriorPage geom page routes rightmost).content page =
      .indexInterior layout rightmost ∧ layout.cells = routes := by
  rw [writeIndexInteriorPage, set_content, if_pos rfl]
  exact ⟨_, rfl, writePageCommon_cells ..⟩

theorem writeIndexInteriorPage_other (geom : Geometry)
    (routes : List (IndexRoute κ)) (rightmost : Nat) (other : page ≠ written) :
    (pages.writeIndexInteriorPage geom written routes rightmost).content page = pages.content page := by
  rw [writeIndexInteriorPage, set_content, if_neg other]

theorem items_leaf {content : Page ρ κ} {layout : Layout (IndexEntry κ)}
    (here : content = .indexLeaf layout) : content.items = some (layout.cells.map .entry) := by
  rw [here]
  rfl

end Writes

structure HoldsIndexBeside (place : κ → P) (allowed : κ → Prop) (others : Nat → Prop)
    (pages : Pages ρ κ) (root : Nat) (used : List Nat) (entries : List (IndexEntry κ)) : Prop
    extends ReadsIndex place allowed pages root used entries, Room others pages used

/-- What a change leaves: an index with these entries, in pages that balance with
the free list, and the pages of others as they were. -/
structure Regrown (others : Nat → Prop) (pages : Pages ρ κ) (used : List Nat) (next : Pages ρ κ)
    (root : Nat) (whole : List Nat) (entries : List (IndexEntry κ)) : Prop where
  reads : next.IndexReads [.page root] whole entries
  room : Room others next whole
  balanced : pages.Balanced used next whole
  same : ∀ page, others page → next.content page = pages.content page

section Split

variable {entries : List (IndexEntry κ)} {routes : List (IndexRoute κ)}
  {front back held : List (IndexEntry κ)} {used whole more : List Nat}

theorem indexRootSplit_content {right : Nat} {promoted : IndexEntry κ} {items : List (IndexItem κ)}
    (apart : root ≠ pages.allocatePage.1) (held : (pages.content root).items = some items) :
    ∃ next, indexRootSplit geom root right promoted pages = .ok next ∧
      (next.content pages.allocatePage.1).items = some items ∧
      (next.content root).items = some [.page pages.allocatePage.1, .entry promoted, .page right] ∧
      (∀ page, page ≠ root → page ≠ pages.allocatePage.1 → next.content page = pages.content page) ∧
      (∀ used, pages.Balanced used next (pages.allocatePage.1 :: used)) ∧
      ∀ used, Room others pages.allocatePage.2 used → Room others next used := by
  have moved : ∃ content : Page ρ κ, content.items = some items ∧
      indexRootSplit geom root right promoted pages =
        .ok ((pages.allocatePage.2.set pages.allocatePage.1 content).writeIndexInteriorPage geom root
          [⟨pages.allocatePage.1, promoted⟩] right) := by
    unfold indexRootSplit
    split
    · rename_i layout here
      refine ⟨_, ?_, rfl⟩
      rw [items_leaf rfl, writePageCommon_cells, ← held, items_leaf here]
    · rename_i layout rightmost here
      refine ⟨_, ?_, rfl⟩
      rw [items_interior rfl, writePageCommon_cells, ← held, items_interior here]
    · rename_i leaf interior
      exact (items_elsewhere held leaf interior).elim
  obtain ⟨content, kept, done⟩ := moved
  refine ⟨_, done, ?_, ?_, fun page notRoot notNew => ?_,
    fun used => ((balanced_allocatePage pages used).set _ _).set _ _,
    fun used room => (room.set _ _).set _ _⟩
  · rw [writeIndexInteriorPage_other geom _ _ apart.symm]
    simpa using kept
  · obtain ⟨written, here, cells⟩ := writeIndexInteriorPage_here geom root
      [⟨pages.allocatePage.1, promoted⟩] right (pages.allocatePage.2.set pages.allocatePage.1 content)
    rw [items_interior here, cells]
    rfl
  · rw [writeIndexInteriorPage_other geom _ _ notRoot]
    simp [notNew, allocatePage_other notNew]

theorem IndexReads.rootSplit {new : Nat} {promoted : IndexEntry κ} {used : List Nat}
    (reads : pages.IndexReads [.page root, .entry promoted, .page new] used entries)
    (room : Room others pages used) :
    ∃ next whole, indexRootSplit geom root new promoted pages = .ok next ∧
      Regrown others pages used next root whole entries := by
  obtain ⟨unused, notOther, alloc⟩ := room.allocatePage
  obtain ⟨rootUsed, restUsed, rootEntries, restEntries, rfl, rfl, first, second⟩ :=
    (show pages.IndexReads ([.page root] ++ [.entry promoted, .page new]) _ _ from reads).split
  obtain ⟨items, below, here, rfl, inner⟩ := single.mp first
  have rootFresh : root ≠ pages.allocatePage.1 := fun same => unused (same ▸ .head _)
  obtain ⟨next, done, moved, top, same, balanced, kept⟩ :=
    @indexRootSplit_content ρ κ geom pages root others new promoted items rootFresh here
  have untouched : ∀ page ∈ below ++ restUsed, next.content page = pages.content page := by
    intro page mem
    apply same page
    · exact fun equal => (nodup_cons.mp room.distinct).1 (equal ▸ mem)
    · exact fun equal => unused (equal ▸ .tail _ mem)
  have relocated : next.IndexReads [.page pages.allocatePage.1] _ _ := single.mpr
    ⟨_, _, moved, rfl, inner.congr fun page mem => untouched page (mem_append_left _ mem)⟩
  have later := second.congr fun page mem => untouched page (mem_append_right _ mem)
  have perm : (root :: (pages.allocatePage.1 :: below ++ restUsed)).Perm
      (pages.allocatePage.1 :: (root :: below ++ restUsed)) := List.Perm.swap ..
  refine ⟨next, _, done, ⟨single.mpr ⟨_, _, top, rfl, relocated.append later⟩, ?_, ?_,
    fun page other => same page ?_ ?_⟩⟩
  · exact (kept _ alloc).perm perm
  · exact (balanced _).perm perm
  · exact fun equal => room.apart root (.head _) (equal ▸ other)
  · exact fun equal => notOther (equal ▸ other)

variable {below : List Nat}

theorem IndexPath.put {ancestors used : List Nat} {page : Nat} {content : Page ρ κ}
    {items : List (IndexItem κ)}
    (path : pages.IndexPath root ancestors page used front back)
    (here : content.items = some items) (reads : pages.IndexReads items below held)
    (room : Room others pages (used ++ page :: below)) :
    ∃ whole, Regrown others pages (used ++ page :: below) (pages.set page content) root whole
      (front ++ held ++ back) := by
  obtain ⟨_, ownDistinct, disjoint⟩ := nodup_append.mp room.distinct
  have pageApart := (nodup_cons.mp ownDistinct).1
  have same : ∀ num, num ≠ page → (pages.set page content).content num = pages.content num :=
    fun num other => (set_content ..).trans (if_neg other)
  rw [← (set_content pages page content page).trans (if_pos rfl)] at here
  have own := single.mpr ⟨_, _, here, rfl, reads.congr fun num mem =>
    same num fun equal => pageApart (equal ▸ mem)⟩
  obtain ⟨whole, perm, read⟩ := (path.congr fun num mem => same num
    (disjoint num mem _ (.head _))).plug own
  refine ⟨whole, read, (room.set _ _).perm perm, ((Balanced.refl pages _).set _ _).perm perm,
    fun num other => same num ?_⟩
  exact fun equal => room.apart page (mem_append_right _ (.head _)) (equal ▸ other)

theorem IndexPath.rewrite (geom : Geometry) {ancestors used : List Nat} {page last : Nat}
    (path : pages.IndexPath root ancestors page used front back)
    (reads : pages.IndexReads (childItems routes last) below held)
    (room : Room others pages (used ++ page :: below)) :
    ∃ whole, Regrown others pages (used ++ page :: below)
      (pages.writeIndexInteriorPage geom page routes last) root whole (front ++ held ++ back) :=
  path.put (by rw [items_interior rfl, writePageCommon_cells]) reads room

theorem overfull_index_routes {page : Nat}
    (overfull : ¬ (interiorBase page + 2 * routes.length + cellBytes (indexRouteSize geom) routes ≤
      geom.pageLen)) : routes.length / 2 < routes.length := by
  have base : interiorBase page ≤ 112 := by
    unfold interiorBase headerStart
    split <;> omega
  have size := geom.pageLen_ge
  have some : routes ≠ [] := by
    rintro rfl
    apply overfull
    simp only [length_nil, cellBytes, map_nil, sum_nil]
    omega
  have positive := length_pos_iff.mpr some
  omega

theorem IndexReads.cut {stored : Pages ρ κ} {page fresh rightmost pos : Nat}
    {median : IndexRoute κ} {held : List (IndexEntry κ)}
    (reads : pages.IndexReads (childItems routes rightmost) below held)
    (middle : routes[pos]? = some median)
    (low : (stored.content page).items = some (childItems (routes.take pos) median.child))
    (high : (stored.content fresh).items = some (childItems (routes.drop (pos + 1)) rightmost))
    (same : ∀ num ∈ below, stored.content num = pages.content num) :
    ∃ grown, grown.Perm (fresh :: page :: below) ∧
      stored.IndexReads [.page page, .entry median.entry, .page fresh] grown held := by
  have moved := reads.congr same
  rw [childItems_cut middle] at moved
  obtain ⟨lowUsed, restUsed, lowHeld, restHeld, rfl, rfl, lows, rest⟩ := moved.split
  cases rest with
  | @entry _ _ highUsed highHeld intact highs =>
    have first := single.mpr ⟨_, _, low, rfl, lows⟩
    have second := entry intact (single.mpr ⟨_, _, high, rfl, highs⟩)
    refine ⟨_, ?_, first.append second⟩
    rw [perm_iff_count]
    simp only [count_append, count_cons]
    omega

theorem Regrown.perm_left
    (grown : Regrown others pages used next root whole entries) (same : more.Perm used) :
    Regrown others pages more next root whole entries :=
  ⟨grown.reads, grown.room, grown.balanced.perm_left same, grown.same⟩

theorem Cut.regrown {stored : Pages ρ κ} {page : Nat} {low high : Page ρ κ}
    (cut : Cut others pages used page low high stored)
    (perm : more.Perm (pages.allocatePage.1 :: used))
    (grown : Regrown others stored more next root whole entries) :
    Regrown others pages used next root whole entries :=
  ⟨grown.reads, grown.room, (cut.balanced.perm perm).trans grown.balanced, fun num other =>
    (grown.same num other).trans (cut.kept num other)⟩

theorem IndexPath.insertIntoIndexParent (ancestors : List Nat) {pages : Pages ρ κ} {old new : Nat}
    {promoted : IndexEntry κ} {used holeUsed : List Nat} {front entries back : List (IndexEntry κ)}
    (path : pages.IndexPath root ancestors old used front back)
    (reads : pages.IndexReads [.page old, .entry promoted, .page new] holeUsed entries)
    (room : Room others pages (used ++ holeUsed)) :
    ∃ next whole, insertIntoIndexParent geom root ancestors old new promoted pages = .ok next ∧
      Regrown others pages (used ++ holeUsed) next root whole (front ++ entries ++ back) := by
  induction ancestors generalizing pages old new promoted used holeUsed front entries back with
  | nil =>
    cases path
    simp only [append_nil] at room ⊢
    exact reads.rootSplit room
  | cons parent rest ih =>
    cases path with
    | @step _ _ _ upperUsed leftUsed rightUsed upperFront upperBack leftEntries rightEntries layout
        rightmost left right upper content split before after =>
      have siblings : .page old ∉ left := by
        intro mem
        have inLeft := before.uses old mem
        have inHole := reads.uses old (.head _)
        exact (nodup_append.mp room.distinct).2.2 old
          (mem_append_left _ (.tail _ (mem_append_left _ inLeft))) old inHole rfl
      obtain ⟨⟨routes, last⟩, found⟩ := splitIndexRoutes_some split new promoted
      have below := before.append (reads.append after)
      rw [show left ++ ([.page old, .entry promoted, .page new] ++ right) = childItems routes last
        from (splitIndexRoutes_items split siblings found).symm] at below
      have perm : (upperUsed ++ parent :: (leftUsed ++ (holeUsed ++ rightUsed))).Perm
          (parent :: (leftUsed ++ rightUsed) ++ upperUsed ++ holeUsed) := by
        rw [perm_iff_count]
        simp only [count_append, count_cons]
        omega
      have regroup : upperFront ++ leftEntries ++ entries ++ (rightEntries ++ upperBack) =
          upperFront ++ (leftEntries ++ (entries ++ rightEntries)) ++ upperBack := by
        simp [append_assoc]
      rw [regroup]
      have roomy := room.perm perm
      obtain ⟨_, ownDistinct, disjoint⟩ := nodup_append.mp roomy.distinct
      have parentApart := (nodup_cons.mp ownDistinct).1
      unfold Pages.insertIntoIndexParent
      simp only [content, found]
      split
      · obtain ⟨whole, grown⟩ := upper.rewrite geom below roomy
        exact ⟨_, whole, rfl, grown.perm_left perm.symm⟩
      rename_i overfull
      have bound := overfull_index_routes overfull
      rw [List.getElem?_eq_getElem bound]
      have cut := roomy.cut (mem_append_right _ (.head _)) (.indexInterior (writePageCommon
        (indexRouteSize geom) geom.pageLen (routes.take (routes.length / 2)))
          routes[routes.length / 2].child)
        (.indexInterior (writePageCommon (indexRouteSize geom) geom.pageLen
          (routes.drop (routes.length / 2 + 1))) last)
      obtain ⟨grown, uses, read⟩ := below.cut (List.getElem?_eq_getElem bound)
        (by rw [items_interior cut.low, writePageCommon_cells])
        (by rw [items_interior cut.high, writePageCommon_cells])
        fun num mem => cut.same num (fun equal => parentApart (equal ▸ mem)) fun equal =>
          cut.unused (equal ▸ mem_append_right _ (.tail _ mem))
      have regrown := (uses.append_left upperUsed).trans perm_middle
      obtain ⟨next, whole, done, res⟩ := ih (upper.congr fun page mem =>
        cut.same page (disjoint page mem _ (.head _)) fun equal =>
          cut.unused (equal ▸ mem_append_left _ mem)) read (cut.room.perm regrown)
      exact ⟨next, whole, done, (cut.regrown regrown res).perm_left perm.symm⟩

end Split

section Leaf

variable {ancestors used : List Nat} {leaf : Nat} {front back held : List (IndexEntry κ)}

theorem IndexPath.putEntries {layout : Layout (IndexEntry κ)}
    (path : pages.IndexPath root ancestors leaf used front back)
    (intact : ∀ entry ∈ held, pages.KeyIntact entry) (cells : layout.cells = held)
    (room : Room others pages (used ++ leaf :: keyPages held)) :
    ∃ whole, Regrown others pages (used ++ leaf :: keyPages held)
      (pages.set leaf (.indexLeaf layout)) root whole (front ++ held ++ back) :=
  path.put (by rw [items_leaf rfl, cells]) (.of_entries intact) room

variable {median : IndexEntry κ} {pos : Nat}

theorem entries_cut (middle : held[pos]? = some median) :
    held = held.take pos ++ median :: held.drop (pos + 1) := by
  obtain ⟨bound, rfl⟩ := List.getElem?_eq_some_iff.mp middle
  rw [← drop_eq_getElem_cons bound, take_append_drop]

theorem IndexPath.splitEntries (geom : Geometry)
    (path : pages.IndexPath root ancestors leaf used front back)
    (intact : ∀ entry ∈ held, pages.KeyIntact entry) (middle : held[pos]? = some median)
    (room : Room others pages (used ++ leaf :: keyPages held)) :
    ∃ next whole, Pages.insertIntoIndexParent geom root ancestors leaf pages.allocatePage.1
        median ((pages.allocatePage.2.writeIndexLeafPage geom leaf
          (held.take pos)).writeIndexLeafPage geom pages.allocatePage.1
            (held.drop (pos + 1))) = .ok next ∧
      Regrown others pages (used ++ leaf :: keyPages held) next root whole (front ++ held ++ back) := by
  have parts := entries_cut middle
  have cut := room.cut (mem_append_right _ (.head _))
    (.indexLeaf (writePageCommon (entrySize geom) geom.pageLen (held.take pos)))
    (.indexLeaf (writePageCommon (entrySize geom) geom.pageLen (held.drop (pos + 1))))
  generalize written : (pages.allocatePage.2.set leaf _).set _ _ = stored at cut
  obtain ⟨_, ownDistinct, disjoint⟩ := nodup_append.mp room.distinct
  have leafApart := (nodup_cons.mp ownDistinct).1
  have kept : ∀ entry ∈ held, stored.KeyIntact entry := by
    intro entry mem
    apply (intact entry mem).congr
    intro page chained
    have listed : page ∈ keyPages held := mem_flatMap.mpr ⟨entry, mem, chained⟩
    apply cut.same page
    · exact fun equal => leafApart (equal ▸ listed)
    · exact fun equal => cut.unused (equal ▸ mem_append_right _ (.tail _ listed))
  have low : (stored.content leaf).items = some ((held.take pos).map .entry) := by
    rw [items_leaf cut.low, writePageCommon_cells]
  have high : (stored.content pages.allocatePage.1).items =
      some ((held.drop (pos + 1)).map .entry) := by
    rw [items_leaf cut.high, writePageCommon_cells]
  have first := single.mpr ⟨_, _, low, rfl, of_entries fun entry mem =>
    kept entry (mem_of_mem_take mem)⟩
  have second := entry (kept median (mem_of_getElem? middle))
    (single.mpr ⟨_, _, high, rfl, of_entries fun entry mem =>
      kept entry (mem_of_mem_drop mem)⟩)
  have reads := first.append second
  rw [← parts] at reads
  have chains : keyPages held = keyPages (held.take pos) ++ (median.overflow ++
      keyPages (held.drop (pos + 1))) := by
    conv => lhs; rw [parts]
    unfold keyPages
    rw [flatMap_append, flatMap_cons]
  have regrown : (used ++ (leaf :: keyPages (held.take pos) ++ (median.overflow ++
      pages.allocatePage.1 :: keyPages (held.drop (pos + 1))))).Perm
        (pages.allocatePage.1 :: (used ++ leaf :: keyPages held)) := by
    rw [chains, perm_iff_count]
    simp only [count_append, count_cons]
    omega
  obtain ⟨next, whole, done, res⟩ := (path.congr fun page mem => cut.same page
    (disjoint page mem _ (.head _)) fun equal =>
      cut.unused (equal ▸ mem_append_left _ mem)).insertIntoIndexParent ancestors reads
        (cut.room.perm regrown)
  subst written
  exact ⟨next, whole, done, cut.regrown regrown res⟩

end Leaf

section Entry

variable {used : List Nat} {entries : List (IndexEntry κ)}

theorem Room.allocatePages (count : Nat) (room : Room others pages used) :
    Room others (pages.allocatePages count).2 ((pages.allocatePages count).1 ++ used) ∧
      ∀ page ∉ (pages.allocatePages count).1,
        (pages.allocatePages count).2.content page = pages.content page := by
  obtain ⟨nodup, unused, spares, same⟩ := room.spares.allocatePages count
  simp only [not_or] at unused
  refine ⟨⟨?_, spares.mono fun page mem => ?_, fun page mem => ?_⟩, same⟩
  · exact nodup_append.mpr ⟨nodup, room.distinct, fun page new other old equal =>
      (unused page new).2 (equal ▸ old)⟩
  · rw [mem_append] at mem
    tauto
  · rcases mem_append.mp mem with new | old
    · exact (unused page new).1
    · exact room.apart page old

/-- What framing a key leaves: a cell whose overflow pages nothing else uses. -/
structure FramedKey (others : Nat → Prop) (pages : Pages ρ κ) (used : List Nat) (cell : IndexEntry κ)
    (stored : Pages ρ κ) : Prop where
  room : Room others stored (cell.overflow ++ used)
  intact : stored.KeyIntact cell
  balanced : pages.Balanced used stored (cell.overflow ++ used)
  same : ∀ page ∉ cell.overflow, stored.content page = pages.content page

theorem Room.encodeIndexCell (geom : Geometry) (room : Room others pages used) (key : κ)
    (length : Nat) : FramedKey others pages used (pages.encodeIndexCell geom key length).1
      (pages.encodeIndexCell geom key length).2 := by
  obtain ⟨roomy, same⟩ := room.allocatePages (geom.chainLength length true)
  have balanced := balanced_allocatePages (geom.chainLength length true) pages used
  unfold Pages.encodeIndexCell
  generalize pages.allocatePages (geom.chainLength length true) = res
    at roomy same balanced
  obtain ⟨chain, stored⟩ := res
  have fills := @fills_keyChain ρ κ key
  have balance := fills.keeps (pages.Balanced used · _) (fun _ page _ kept => kept.set page _) 0
    chain balanced
  have kept := fills.keeps (Room others · _) (fun _ page _ kept => kept.set page _) 0 chain roomy
  refine ⟨kept, fun part page held => ?_, balance, fun page other => ?_⟩
  · rw [fills.here 0 (nodup_append.mp roomy.distinct).1 held, Nat.zero_add]
  · exact (fills.other 0 other).trans (same page other)

variable {compareKeys : κ → κ → Ordering} {key : κ} {ancestors pathUsed : List Nat} {leaf : Nat}
  {front back : List (IndexEntry κ)} {layout : Layout (IndexEntry κ)}

theorem keyPages_insert {pos : Nat} (cell : IndexEntry κ) (held : List (IndexEntry κ))
    (bound : pos ≤ held.length) :
    (keyPages (held.insertIdx pos cell)).Perm (cell.overflow ++ keyPages held) := by
  have perm : (held.insertIdx pos cell).Perm (cell :: held) := perm_insertIdx cell held bound
  exact perm.flatMap_right IndexEntry.overflow

theorem AtLeaf.insertIntoIndexLeaf (geom : Geometry) (order : KeyOrder compareKeys place allowed)
    (keyOk : allowed key)
    (found : AtLeaf place pages root key used entries ancestors leaf pathUsed front back layout)
    (ascends : Ascends place entries) (allows : ∀ entry ∈ entries, allowed entry.key)
    (room : Room others pages used) (length : Nat) : ((∃ entry ∈ entries, entry.key = key) ∧
        insertIntoIndexLeaf geom compareKeys root ancestors leaf key length pages =
          .error .duplicateKey) ∨ ∃ next whole overflow before after,
        insertIntoIndexLeaf geom compareKeys root ancestors leaf key length pages = .ok next ∧
          entries = before ++ after ∧ Parts place key before after ∧
          Regrown others pages used next root whole (before ++ { key, length, overflow } :: after) := by
  obtain ⟨path, content, intact, uses, rfl, parts⟩ := found
  have inside : ∀ entry ∈ layout.cells, entry ∈ front ++ layout.cells ++ back := fun entry mem =>
    mem_append_left _ (mem_append_right _ mem)
  have leafAscends := (pairwise_append.mp (pairwise_append.mp ascends).1).2.1
  have searched := searchIndexLeaf_whole order keyOk leafAscends fun entry mem =>
    allows entry (inside entry mem)
  unfold insertIntoIndexLeaf
  simp only [content]
  generalize searchIndexLeaf compareKeys layout.cells key (layout.cells.length + 1) 0
    layout.cells.length = outcome at searched
  cases outcome with
  | found pos =>
    obtain ⟨entry, held, equal⟩ := searched
    have mem := inside entry (mem_of_getElem? held)
    exact .inl ⟨⟨entry, mem, order.faithful _ _ (allows entry mem) keyOk equal⟩, rfl⟩
  | notFound pos =>
    right
    obtain ⟨bound, own⟩ := searched
    have framed := room.encodeIndexCell geom key length
    have named : ∃ overflow, (pages.encodeIndexCell geom key length).1 =
        { key, length, overflow } := ⟨_, rfl⟩
    generalize pages.encodeIndexCell geom key length = encoded at framed named
    obtain ⟨cell, stored⟩ := encoded
    obtain ⟨overflow, rfl⟩ := named
    generalize whole : ({ key, length, overflow } : IndexEntry κ) = cell at framed
    have split := insertIdx_split layout.cells pos cell bound
    have regroup : front ++ layout.cells.insertIdx pos cell ++ back =
        (front ++ layout.cells.take pos) ++ cell :: (layout.cells.drop pos ++ back) := by
      rw [split]
      simp [append_assoc, cons_append]
    have perm : (pathUsed ++ leaf :: keyPages (layout.cells.insertIdx pos cell)).Perm
        (cell.overflow ++ used) := by
      refine .trans ?_ (uses.append_left cell.overflow)
      refine (((keyPages_insert cell _ bound).cons leaf).append_left pathUsed).trans ?_
      rw [perm_iff_count]
      simp only [count_append, count_cons]
      omega
    have apart : ∀ page ∈ used, page ∉ cell.overflow := fun page mem new =>
      (nodup_append.mp framed.room.distinct).2.2 page new page mem rfl
    have kept : ∀ entry ∈ layout.cells.insertIdx pos cell, stored.KeyIntact entry := by
      intro entry mem
      rcases (mem_insertIdx bound).mp mem with rfl | old
      · exact framed.intact
      apply (intact entry old).congr
      intro page chained
      apply framed.same page
      apply apart page
      apply uses.mem_iff.mp
      exact mem_append_right _ (.tail _ (mem_flatMap.mpr ⟨entry, old, chained⟩))
    have lower := path.congr fun page mem => framed.same page (apart page
      (uses.mem_iff.mp (mem_append_left _ mem)))
    -- A change of the leaf in the new pages is a change from the pages before the framing.
    have assemble : ∀ {next}, (∃ final, Regrown others stored
        (pathUsed ++ leaf :: keyPages (layout.cells.insertIdx pos cell)) next root final
          (front ++ layout.cells.insertIdx pos cell ++ back)) →
        ∃ final, Regrown others pages used next root final
          ((front ++ layout.cells.take pos) ++ cell :: (layout.cells.drop pos ++ back)) := by
      rintro next ⟨final, res⟩
      refine ⟨final, regroup ▸ res.reads, res.room,
        framed.balanced.trans (res.balanced.perm_left perm.symm), fun page other => ?_⟩
      exact (res.same page other).trans (framed.same page fun new =>
        framed.room.apart page (mem_append_left _ new) other)
    have sides : Parts place key (front ++ layout.cells.take pos)
        (layout.cells.drop pos ++ back) := parts.append own
    have entries : front ++ layout.cells ++ back =
        (front ++ layout.cells.take pos) ++ (layout.cells.drop pos ++ back) := by
      conv => lhs; rw [← take_append_drop pos layout.cells]
      simp only [append_assoc]
    simp only
    split
    · split
      · rename_i spliced put
        obtain ⟨final, res⟩ := assemble (lower.putEntries kept
          (spliceInsertCell_cells put) (framed.room.perm perm))
        exact ⟨_, final, overflow, _, _, rfl, entries, sides, whole ▸ res⟩
      · obtain ⟨final, res⟩ := assemble (lower.putEntries kept
          (writePageCommon_cells (entrySize geom) geom.pageLen _) (framed.room.perm perm))
        exact ⟨_, final, overflow, _, _, rfl, entries, sides, whole ▸ res⟩
    · have most : (layout.cells.insertIdx pos cell).length / 2 <
          (layout.cells.insertIdx pos cell).length := by
        rw [length_insertIdx_of_le_length bound]
        omega
      rw [List.getElem?_eq_getElem most]
      obtain ⟨next, final, done, res⟩ := lower.splitEntries geom kept
        (List.getElem?_eq_getElem most) (framed.room.perm perm)
      obtain ⟨final, res⟩ := assemble ⟨final, res⟩
      exact ⟨next, final, overflow, _, _, done, entries, sides, whole ▸ res⟩

theorem HoldsIndexBeside.insertEntry (geom : Geometry) (order : KeyOrder compareKeys place allowed)
    (keyOk : allowed key) (index : pages.HoldsIndexBeside place allowed others root used entries)
    (within : pages.IndexLevels maxPagesVisited root) (length : Nat) :
    ((∃ entry ∈ entries, entry.key = key) ∧
        pages.insertEntry geom compareKeys root key length = .error .duplicateKey) ∨
      ∃ next whole overflow before after,
        pages.insertEntry geom compareKeys root key length = .ok next ∧
          entries = before ++ after ∧ Parts place key before after ∧
          next.HoldsIndexBeside place allowed others root whole
            (before ++ { key, length, overflow } :: after) ∧ pages.Balanced used next whole ∧
          ∀ page, others page → next.content page = pages.content page := by
  obtain ⟨res, found⟩ := index.reads.descend_ok compareKeys key maxPagesVisited [] within
  have landed := index.toReadsIndex.descend order keyOk found
  unfold Pages.insertEntry
  rw [found]
  cases res with
  | interiorMatch page child =>
    obtain ⟨_, _, front, back, earlier, later, entry, rightmost, _, _,
      ⟨below, held, reads, _, rfl⟩, equal⟩ := landed
    have listed : .entry entry ∈ childItems (earlier ++ ⟨child, entry⟩ :: later) rightmost := by
      rw [childItems, routeItems_append, routeItems_cons]
      simp
    have mem : entry ∈ front ++ held ++ back :=
      mem_append_left _ (mem_append_right _ (reads.holds entry listed))
    exact .inl ⟨⟨entry, mem, order.faithful _ _ (index.allows entry mem) keyOk equal⟩, rfl⟩
  | leaf ancestors leaf =>
    obtain ⟨pathUsed, front, back, layout, atLeaf⟩ := landed
    rcases atLeaf.insertIntoIndexLeaf geom order keyOk index.ascends index.allows
        index.toRoom length with
      present | ⟨next, whole, overflow, before, after, done, rfl, parts, regrown⟩
    · exact .inl present
    right
    refine ⟨next, whole, overflow, before, after, done, rfl, parts,
      ⟨⟨regrown.reads, index.ascends.insert _ parts, ?_⟩, regrown.room⟩,
      regrown.balanced, regrown.same⟩
    intro entry mem
    rcases mem_append.mp mem with first | rest
    · exact index.allows entry (mem_append_left _ first)
    rcases mem_cons.mp rest with rfl | last
    · exact keyOk
    · exact index.allows entry (mem_append_right _ last)

end Entry

end Pages

end SqliteRs
