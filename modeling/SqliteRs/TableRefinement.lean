import SqliteRs.TreeInsert
import SqliteRs.DeleteStatement

/-!
Table b-trees refine finite maps from rowids to payloads. A run of inserts and
deletes whose page writes fit, each on a tree that a search can get down, gives
what the same run gives on the map: the same outcomes, and an in-order walk of the
pages that yields the entries of the map. Splits and collapses always find the route
they look for. A search gives up after a fixed number of pages, so a tree with more
levels than that refuses rows it has no trace of.
-/

namespace SqliteRs

open List Pages

variable {ρ κ : Type} {geom : Geometry}

theorem Span.mem_children {span : Span} {routes : List Route} {rightmost page : Nat} :
    (∃ child ∈ span.children routes rightmost, child.page = page) ↔
      page = rightmost ∨ ∃ route ∈ routes, route.child = page := by
  have pages := span.children_pages routes rightmost
  constructor
  · rintro ⟨child, mem, rfl⟩
    have listed : child.page ∈ routes.map Route.child ++ [rightmost] :=
      pages ▸ mem_map_of_mem mem
    rcases mem_append.mp listed with routed | last
    · exact .inr (mem_map.mp routed)
    · exact .inl (mem_singleton.mp last)
  · intro listed
    apply mem_map.mp
    rw [pages]
    rcases listed with rfl | routed
    · exact mem_append_right _ (.head _)
    · exact mem_append_left _ (mem_map.mpr routed)

namespace Pages

variable {pages next other : Pages ρ κ} {root leaf levels : Nat} {rowid : Int}
  {used ancestors : List Nat} {cells : List (LeafCell ρ)} {others : Nat → Prop}

def WithinLevels (pages : Pages ρ κ) : Nat → Nat → Prop
  | 0, _ => False
  | levels + 1, page =>
    match pages.content page with
    | .tableInterior layout rightmost => pages.WithinLevels levels rightmost ∧
        ∀ route ∈ layout.cells, pages.WithinLevels levels route.child
    | _ => True

section Search

theorem Reads.withinLevels {spans : List Span} (reads : pages.Reads spans used cells)
    (same : ∀ page ∈ used, other.content page = pages.content page) :
    ∀ span ∈ spans, ∀ levels, pages.WithinLevels levels span.page →
      other.WithinLevels levels span.page := by
  induction reads with
  | nil => exact fun span mem => nomatch mem
  | leaf here _ _ _ ih =>
    intro span mem levels within
    rcases mem_cons.mp mem with rfl | later
    · cases levels with
      | zero => exact within
      | succ levels =>
        unfold WithinLevels
        rw [same _ (.head _), here]
        trivial
    · exact ih (fun page inside => same page (mem_append_right _ inside)) span later levels
        within
  | @node top rest used cells layout rightmost here _ _ ih =>
    intro span mem levels within
    have below := ih fun page inside => same page (.tail _ inside)
    rcases mem_cons.mp mem with rfl | later
    swap
    · exact below span (mem_append_right _ later) levels within
    cases levels with
    | zero => exact within
    | succ levels =>
      unfold WithinLevels at within ⊢
      rw [here] at within
      rw [same _ (.head _), here]
      have child : ∀ page, (page = rightmost ∨ ∃ route ∈ layout.cells, route.child = page) →
          pages.WithinLevels levels page → other.WithinLevels levels page := by
        intro page listed short
        obtain ⟨child, inside, rfl⟩ := Span.mem_children.mpr listed
        exact below child (mem_append_left _ inside) levels short
      constructor
      · exact child rightmost (.inl rfl) within.1
      · exact fun route inside => child _ (.inr ⟨route, inside, rfl⟩) (within.2 route inside)

theorem Reads.findLeafPage {span : Span} (before : List Nat) (admitted : span.Admits rowid)
    (reads : pages.Reads [span] used cells) (within : pages.WithinLevels levels span.page) :
    ∃ ancestors leaf, pages.findLeafPage rowid levels before span.page = .ok (ancestors, leaf) := by
  induction levels generalizing span used cells before with
  | zero => cases within
  | succ levels ih =>
    unfold Pages.findLeafPage
    unfold WithinLevels at within
    cases reads with
    | leaf here _ _ _ =>
      rw [here]
      exact ⟨_, _, rfl⟩
    | @node _ _ _ _ layout rightmost here _ later =>
      rw [here] at within ⊢
      obtain ⟨left, child, right, split, same, inside⟩ :=
        @routeFor_span span layout.cells rightmost rowid admitted
      rw [append_nil, split] at later
      obtain ⟨_, _, _, _, _, _, _, rest⟩ := later.split
      obtain ⟨_, _, _, _, _, _, own, _⟩ := (show pages.Reads ([child] ++ right) _ _ from rest).split
      have listed := Span.mem_children.mp ⟨child, split ▸ mem_append_right _ (.head _), rfl⟩
      have short : pages.WithinLevels levels child.page := by
        rcases listed with last | ⟨route, mem, equal⟩
        · exact last ▸ within.1
        · exact equal ▸ within.2 route mem
      simp only [← same]
      exact ih _ inside own short

theorem HoldsTable.findLeafPage (table : pages.HoldsTable root used cells) (rowid : Int)
    (within : pages.WithinLevels levels root) :
    ∃ ancestors leaf, pages.findLeafPage rowid levels [] root = .ok (ancestors, leaf) := by
  have anything : (⟨root, none, none⟩ : Span).Admits rowid :=
    ⟨fun _ none => (nomatch none), fun _ none => nomatch none⟩
  exact table.reads.findLeafPage [] anything within

end Search

/-- Ancestors that lead down from the root to a page, each by one of its routes. -/
inductive Leads (pages : Pages ρ κ) (root : Nat) : List Nat → Nat → Prop where
  | top : Leads pages root [] root
  | step {rest : List Nat} {parent child rightmost : Nat} {layout : Layout Route}
      (content : pages.content parent = .tableInterior layout rightmost)
      (listed : child = rightmost ∨ ∃ route ∈ layout.cells, route.child = child)
      (upper : Leads pages root rest parent) : Leads pages root (parent :: rest) child

def IsTable (page : Page ρ κ) : Prop :=
  (∃ layout, page = .tableLeaf layout) ∨ ∃ layout rightmost, page = .tableInterior layout rightmost

section Paths

variable {front back : List (LeafCell ρ)}

theorem Leads.congr {page : Nat} (leads : pages.Leads root ancestors page)
    (same : ∀ ancestor ∈ ancestors, other.content ancestor = pages.content ancestor) :
    other.Leads root ancestors page := by
  induction leads with
  | top => exact .top
  | step content listed _ ih =>
    apply Leads.step _ listed
    · exact ih fun ancestor mem => same ancestor (.tail _ mem)
    · rw [same _ (.head _), content]

theorem Path.leads {hole : Span}
    (path : pages.Path ⟨root, none, none⟩ ancestors hole used front back) :
    pages.Leads root ancestors hole.page := by
  induction path with
  | here => exact .top
  | @step _ span child _ _ _ _ _ _ _ layout rightmost left right _ content _ split _ _ ih =>
    have inside : child ∈ span.children layout.cells rightmost := by
      rw [split]
      exact mem_append_right _ (.head _)
    exact .step content (Span.mem_children.mp ⟨child, inside, rfl⟩) ih

theorem Path.ancestors_used {top hole : Span}
    (path : pages.Path top ancestors hole used front back) : ancestors.Sublist used := by
  induction path with
  | here => exact .slnil
  | step _ _ _ _ _ _ ih => exact (ih.trans (sublist_append_right _ _)).cons_cons _

theorem Reads.isTable {span : Span} {spans : List Span}
    (reads : pages.Reads (span :: spans) used cells) : IsTable (pages.content span.page) := by
  cases reads with
  | leaf here => exact .inl ⟨_, here⟩
  | node here => exact .inr ⟨_, _, here⟩

end Paths

section Insert

theorem splitRoutes_some {routes : List Route} {rightmost old : Nat} (new : Nat) (divider : Int)
    (listed : old = rightmost ∨ ∃ route ∈ routes, route.child = old) :
    ∃ res, splitRoutes routes rightmost old new divider = some res := by
  unfold splitRoutes
  split
  · exact ⟨_, rfl⟩
  rename_i missing
  rcases listed with last | routed
  · rw [if_pos last.symm]
    exact ⟨_, rfl⟩
  obtain ⟨route, mem, same⟩ := routed
  exact absurd same ((splitRoute_edits ..).none_iff.mp missing route mem)

theorem rootSplit_ok {right : Nat} {divider : Int} (table : IsTable (pages.content root)) :
    ∃ next, rootSplit geom root right divider pages = .ok next := by
  unfold Pages.rootSplit
  rcases table with ⟨layout, here⟩ | ⟨layout, rightmost, here⟩
  all_goals
    rw [here]
    exact ⟨_, rfl⟩

theorem Leads.insertIntoParent (ancestors : List Nat) {pages : Pages ρ κ} {taken : Nat → Prop}
    {old new : Nat} {divider : Int} (leads : pages.Leads root ancestors old)
    (table : IsTable (pages.content old)) (nodup : (old :: ancestors).Nodup)
    (spares : pages.Spares taken) (held : ∀ page ∈ old :: ancestors, taken page) :
    ∃ next, insertIntoParent geom root ancestors old new divider pages = .ok next := by
  induction ancestors generalizing pages old new divider taken with
  | nil =>
    cases leads
    exact rootSplit_ok table
  | cons parent rest ih =>
    cases leads with
    | @step _ _ _ rightmost layout content listed upper =>
      obtain ⟨⟨routes, last⟩, found⟩ := splitRoutes_some new divider listed
      obtain ⟨_, parentDistinct⟩ := nodup_cons.mp nodup
      unfold Pages.insertIntoParent
      simp only [content, found]
      split
      · exact ⟨_, rfl⟩
      rename_i overfull
      have many := overfull_routes overfull
      have bound : routes.length / 2 < routes.length := by omega
      rw [List.getElem?_eq_getElem bound]
      obtain ⟨unused, alloc⟩ := spares.allocatePage
      have fresh : ∀ page ∈ parent :: rest, page ≠ pages.allocatePage.1 :=
        fun page mem equal => unused (equal ▸ held page (.tail _ mem))
      have same : ∀ page ∈ rest, page ≠ parent := fun page mem equal =>
        (nodup_cons.mp parentDistinct).1 (equal ▸ mem)
      apply @ih _ fun page => page = pages.allocatePage.1 ∨ taken page
      · apply upper.congr
        intro page mem
        rw [writeInteriorPage_other geom _ _ (fresh page (.tail _ mem)),
          writeInteriorPage_other geom _ _ (same page mem),
          allocatePage_other (fresh page (.tail _ mem))]
      · rw [writeInteriorPage_other geom _ _ (fresh parent (.head _))]
        obtain ⟨layout, here, _⟩ := writeInteriorPage_here geom parent
          (routes.take (routes.length / 2)) routes[routes.length / 2].child pages.allocatePage.2
        exact .inr ⟨_, _, here⟩
      · exact parentDistinct
      · exact alloc.set.set
      · exact fun page mem => .inr (held page (.tail _ mem))

theorem HoldsTable.insertIntoLeaf_progress {cell : LeafCell ρ} {taken : Nat → Prop}
    (table : pages.HoldsTable root used cells) (spares : pages.Spares taken)
    (held : ∀ page ∈ used, taken page)
    (found : pages.findLeafPage cell.rowid maxPagesVisited [] root = .ok (ancestors, leaf)) :
    (∃ next, Pages.insertIntoLeaf geom root ancestors leaf cell pages = .ok next) ∨
      Pages.insertIntoLeaf geom root ancestors leaf cell pages = .error (.duplicateRowid cell.rowid) ∧
        ∃ held ∈ cells, held.rowid = cell.rowid := by
  obtain ⟨hole, pathUsed, front, back, layout, rfl, _, path, content, _, perm, rfl⟩ :=
    table.locate found
  have nodup := perm.nodup_iff.mpr table.distinct
  obtain ⟨pathDistinct, _, disjoint⟩ := nodup_append.mp nodup
  have upward : ∀ page ∈ ancestors, page ∈ pathUsed := fun page mem =>
    path.ancestors_used.subset mem
  unfold Pages.insertIntoLeaf
  simp only [content]
  split
  · rename_i present
    obtain ⟨mem, inside, same⟩ := any_eq_true.mp present
    refine .inr ⟨rfl, mem, ?_, beq_iff_eq.mp same⟩
    exact mem_append_left _ (mem_append_right _ inside)
  left
  split
  · split
    · exact ⟨_, rfl⟩
    · exact ⟨_, rfl⟩
  -- The left half takes at least one cell, so it has a last one.
  have length : (placeCell cell layout.cells).length = layout.cells.length + 1 :=
    (placeCell_perm cell layout.cells).length_eq
  have some : (placeCell cell layout.cells).take
      (((placeCell cell layout.cells).length + 1) / 2) ≠ [] := by
    apply ne_nil_of_length_pos
    rw [length_take]
    omega
  have final := List.getLast?_eq_some_getLast some
  unfold placeCell at final
  simp only [final]
  obtain ⟨unused, alloc⟩ := spares.allocatePage
  have inUse : ∀ page ∈ hole.page :: ancestors, taken page := by
    intro page mem
    apply held page
    apply perm.mem_iff.mp
    rcases mem_cons.mp mem with rfl | above
    · exact mem_append_right _ (.head _)
    · exact mem_append_left _ (upward page above)
  have fresh : ∀ page ∈ hole.page :: ancestors, page ≠ pages.allocatePage.1 :=
    fun page mem equal => unused (equal ▸ inUse page mem)
  have apart : ∀ page ∈ ancestors, page ≠ hole.page := fun page mem =>
    disjoint page (upward page mem) _ (.head _)
  apply @Leads.insertIntoParent ρ κ geom root ancestors _
  · apply path.leads.congr
    intro page mem
    rw [writeLeafPage_other geom _ (fresh page (.tail _ mem)),
      writeLeafPage_other geom _ (apart page mem),
      allocatePage_other (fresh page (.tail _ mem))]
  · rw [writeLeafPage_other geom _ (fresh hole.page (.head _))]
    obtain ⟨written, here, _⟩ := writeLeafPage_here geom hole.page _ pages.allocatePage.2
    exact .inl ⟨_, here⟩
  · exact nodup_cons.mpr ⟨fun mem => apart _ mem rfl, path.ancestors_used.nodup pathDistinct⟩
  · exact alloc.set.set
  · exact fun page mem => .inr (inUse page mem)

theorem HoldsTableBeside.insertRow_progress (table : pages.HoldsTableBeside others root used cells)
    (within : pages.WithinLevels maxPagesVisited root) (rowid : Int) (payload : ρ) (length : Nat) :
    (∃ next, Pages.insertRow geom root rowid payload length pages = .ok next) ∨
      Pages.insertRow geom root rowid payload length pages = .error (.duplicateRowid rowid) ∧
        ∃ held ∈ cells, held.rowid = rowid := by
  have framed := @HoldsTableBeside.encodeLeafCell ρ κ geom _ _ _ _ _ table rowid payload length
  unfold Pages.insertRow
  have named : (pages.encodeLeafCell geom rowid payload length).1.rowid = rowid := rfl
  generalize pages.encodeLeafCell geom rowid payload length = encoded at framed named
  obtain ⟨cell, stored⟩ := encoded
  subst named
  have still := table.reads.withinLevels
    (fun page mem => framed.same page fun inside =>
      (nodup_append.mp framed.distinct).2.2 page mem page inside rfl) _ (.head _) _ within
  obtain ⟨ancestors, leaf, found⟩ := framed.table.findLeafPage cell.rowid still
  simp only [found]
  exact framed.table.insertIntoLeaf_progress framed.spares
    (fun page mem => .inr (mem_append_left _ mem)) found

end Insert

section Delete

theorem dropRoute_ok {parent rightmost emptied : Nat} {routes : List Route} (some : routes ≠ [])
    (listed : emptied = rightmost ∨ ∃ route ∈ routes, route.child = emptied) :
    ∃ rest last, dropRoute parent routes rightmost emptied = .ok (rest, last) := by
  unfold dropRoute
  split
  · exact ⟨_, _, rfl⟩
  rename_i absent
  have last : rightmost = emptied := by
    rcases listed with last | ⟨route, mem, same⟩
    · exact last.symm
    · exact (absent (any_eq_true.mpr ⟨route, mem, beq_iff_eq.mpr same⟩)).elim
  rw [if_pos last, List.getLast?_eq_some_getLast some]
  exact ⟨_, _, rfl⟩

theorem collapseRoot_ok {child : Nat} (table : IsTable (pages.content child)) :
    ∃ next, collapseRoot geom root child pages = .ok next := by
  unfold Pages.collapseRoot
  rcases table with ⟨layout, here⟩ | ⟨layout, rightmost, here⟩
  all_goals
    rw [here]
    exact ⟨_, rfl⟩

theorem Leads.spliceChild {old new : Nat} (leads : pages.Leads root ancestors old)
    (below : old ≠ root) : ∃ next, spliceChild geom ancestors old new pages = .ok next := by
  cases leads with
  | top => exact absurd rfl below
  | @step _ parent _ rightmost layout content listed _ =>
    unfold Pages.spliceChild
    simp only [content]
    split
    · exact ⟨_, rfl⟩
    rename_i missing
    rcases listed with last | routed
    · rw [if_pos last.symm]
      exact ⟨_, rfl⟩
    obtain ⟨route, mem, same⟩ := routed
    exact absurd same ((replaceRoute_edits ..).none_iff.mp missing route mem)

theorem Path.collapse_ok {hole : Span} {front back : List (LeafCell ρ)}
    (path : pages.Path ⟨root, none, none⟩ ancestors hole used front back) (some : ancestors ≠ [])
    (nodup : used.Nodup) (apart : hole.page ∉ used) (branching : pages.Branching used) :
    ∃ next, collapseIntoAncestors geom root ancestors hole.page pages = .ok next := by
  cases path with
  | here => exact absurd rfl some
  | @step above span _ upperUsed leftUsed rightUsed upperFront upperBack leftCells rightCells layout
      rightmost left right upper content keys split before after =>
    have routed := branching span.page (.head _)
    rw [content] at routed
    have listed : hole.page = rightmost ∨ ∃ route ∈ layout.cells, route.child = hole.page := by
      have inside : hole ∈ span.children layout.cells rightmost := by
        rw [split]
        exact mem_append_right _ (.head _)
      exact Span.mem_children.mp ⟨hole, inside, rfl⟩
    obtain ⟨routes, last, dropped⟩ := @dropRoute_ok span.page _ _ _ routed listed
    unfold Pages.collapseIntoAncestors
    simp only [content, dropped]
    split
    · exact ⟨_, rfl⟩
    rename_i noRoutes
    split
    · have others : ∀ sibling ∈ left, sibling.page ≠ hole.page := by
        intro sibling mem same
        apply apart
        rw [← same]
        exact mem_append_left _ (.tail _ (mem_append_left _ (before.uses sibling mem)))
      have siblings := (before.append after).widen (dropRoute_children keys split others dropped)
      rw [not_not.mp noRoutes] at siblings
      exact collapseRoot_ok (Reads.isTable siblings)
    · rename_i notRoot
      refine Leads.spliceChild (upper.leads.congr fun ancestor mem => ?_) notRoot
      apply deallocatePage_other
      rintro rfl
      exact (nodup_append.mp nodup).2.2 _ (.head _) _ (upper.ancestors_used.subset mem) rfl

theorem HoldsTable.deleteRow_progress (table : pages.HoldsTable root used cells)
    (branching : pages.Branching used) (within : pages.WithinLevels maxPagesVisited root)
    (rowid : Int) : ((∃ held ∈ cells, held.rowid = rowid) ∧
        ∃ next, Pages.deleteRow geom root rowid pages = .ok next) ∨
      Pages.deleteRow geom root rowid pages = .error (.rowidNotFound rowid) ∧
        ∀ held ∈ cells, held.rowid ≠ rowid := by
  obtain ⟨ancestors, leaf, found⟩ := table.findLeafPage rowid within
  obtain ⟨hole, pathUsed, front, back, layout, rfl, admitted, path, content, _, perm, rfl⟩ :=
    table.locate found
  obtain ⟨before, after⟩ := path.ordered admitted
  have nodup := perm.nodup_iff.mpr table.distinct
  obtain ⟨pathDistinct, _, disjoint⟩ := nodup_append.mp nodup
  unfold Pages.deleteRow
  simp only [found, content]
  split
  · rename_i absent
    refine .inr ⟨rfl, fun mem inside => ?_⟩
    rcases mem_append.mp inside with inFront | inBack
    · rcases mem_append.mp inFront with inFront | here
      · exact (before mem inFront).ne
      · intro same
        exact List.find?_eq_none.mp absent mem here (beq_iff_eq.mpr same)
    · exact (after mem inBack).ne'
  rename_i cell sought
  have inside := mem_of_find?_eq_some sought
  have named := List.find?_some sought
  refine .inl ⟨⟨cell, mem_append_left _ (mem_append_right _ inside), beq_iff_eq.mp named⟩, ?_⟩
  split
  · obtain ⟨bound, _⟩ := List.getElem?_eq_some_iff.mp (getElem?_findIdx sought)
    obtain ⟨spliced, cut⟩ := @Layout.spliceDeleteCell_isSome _ (leafCellSize geom) _ _ bound
    rw [cut]
    exact ⟨_, rfl⟩
  rename_i alone
  rw [not_or] at alone
  have chained : ∀ page ∈ cell.overflow, page ∈ chainPages layout.cells :=
    fun page mem => mem_flatMap.mpr ⟨cell, inside, mem⟩
  have same : ∀ page ∈ pathUsed, (pages.releaseLeaf geom hole.page cell.overflow).content
      page = pages.content page := fun page mem =>
    releaseLeaf_other geom (disjoint page mem _ (.head _)) fun freed =>
      disjoint page mem page (.tail _ (chained page freed)) rfl
  apply (path.congr same).collapse_ok alone.2 pathDistinct
  · exact fun mem => disjoint _ mem _ (.head _) rfl
  intro page mem
  rw [same page mem]
  exact branching page (perm.mem_iff.mp (mem_append_left _ mem))

end Delete

end Pages

end SqliteRs

namespace SqliteRs

open List Layout

variable {ρ κ : Type}

namespace Pages

def inOrder (pages : Pages ρ κ) : Nat → Nat → List (LeafCell ρ)
  | 0, _ => []
  | levels + 1, page =>
    match pages.content page with
    | .tableLeaf layout => layout.cells
    | .tableInterior layout rightmost =>
      (layout.cells.map Route.child ++ [rightmost]).flatMap (pages.inOrder levels)
    | _ => []

/-- An in-order walk of a table, with every payload put together from its overflow
pages. No way down has more pages than the file. -/
def tableRows [DecidableEq ρ] (torn : ρ) (pages : Pages ρ κ) (root : Nat) : List (Int × ρ) :=
  (pages.inOrder (pages.count + 1) root).map (pages.currentRow torn)

end Pages

inductive RowCall (ρ : Type) where
  | insert (rowid : Int) (payload : ρ) (length : Nat)
  | delete (rowid : Int)

namespace RowCall

/-- A call on the pages. An insert that fails has framed its payload by then. -/
def perform (geom : Geometry) (root : Nat) :
    RowCall ρ → Pages ρ κ → Except BtreeError Unit × Pages ρ κ
  | .insert rowid payload length, pages =>
    match pages.insertRow geom root rowid payload length with
    | .ok next => (.ok (), next)
    | .error error => (.error error, (pages.encodeLeafCell geom rowid payload length).2)
  | .delete rowid, pages =>
    match pages.deleteRow geom root rowid with
    | .ok next => (.ok (), next)
    | .error error => (.error error, pages)

def apply : RowCall ρ → OrderedMap Int ρ → Except BtreeError Unit × OrderedMap Int ρ
  | .insert rowid payload _, map =>
    match map.get rowid with
    | none => (.ok (), map.insert rowid payload)
    | some _ => (.error (.duplicateRowid rowid), map)
  | .delete rowid, map =>
    match map.get rowid with
    | some _ => (.ok (), map.erase rowid)
    | none => (.error (.rowidNotFound rowid), map)

/-- The page writes of a call fit: the leaf that takes a new row does, whole or in
halves, and so does the root when its last child moves into it. Routes always fit. -/
def Takes (geom : Geometry) (root : Nat) : RowCall ρ → Pages ρ κ → Prop
  | .insert rowid payload length, pages =>
    let (cell, stored) := pages.encodeLeafCell geom rowid payload length
    ∀ ancestors leaf layout,
      stored.findLeafPage rowid maxPagesVisited [] root = .ok (ancestors, leaf) →
      stored.content leaf = .tableLeaf layout →
      (∀ held ∈ layout.cells, held.rowid ≠ rowid) → LeafTakes geom leaf layout.cells cell
  | .delete rowid, pages =>
    ∀ leaf cell layout routes rightmost child,
      pages.findLeafPage rowid maxPagesVisited [] root = .ok ([root], leaf) →
      pages.content leaf = .tableLeaf layout → layout.cells = [cell] → cell.rowid = rowid →
      pages.content root = .tableInterior routes rightmost →
      Pages.dropRoute root routes.cells rightmost leaf = .ok ([], child) →
      ChildFits geom root (pages.content child)

end RowCall

section Runs

variable (geom : Geometry) (root : Nat)

def performAll : List (RowCall ρ) → Pages ρ κ → List (Except BtreeError Unit) × Pages ρ κ
  | [], pages => ([], pages)
  | call :: later, pages =>
    let (outcome, pages) := call.perform geom root pages
    let (outcomes, pages) := performAll later pages
    (outcome :: outcomes, pages)

def applyAll : List (RowCall ρ) → OrderedMap Int ρ → List (Except BtreeError Unit) × OrderedMap Int ρ
  | [], map => ([], map)
  | call :: later, map =>
    let (outcome, map) := call.apply map
    let (outcomes, map) := applyAll later map
    (outcome :: outcomes, map)

/-- Every call finds a tree that a search gets down and pages that take its writes. -/
def CallsTake : List (RowCall ρ) → Pages ρ κ → Prop
  | [], _ => True
  | call :: later, pages => pages.WithinLevels maxPagesVisited root ∧
      call.Takes geom root pages ∧ CallsTake later (call.perform geom root pages).2

end Runs

namespace Pages

section Walk

variable {pages : Pages ρ κ} {root : Nat} {used : List Nat} {cells : List (LeafCell ρ)}

theorem Reads.length_le {spans : List Span} (reads : pages.Reads spans used cells) :
    spans.length ≤ used.length := by
  induction reads with
  | nil => exact Nat.le_refl _
  | leaf _ _ _ _ ih =>
    simp only [length_append, length_cons]
    omega
  | node _ _ _ ih =>
    simp only [length_append, length_cons] at ih ⊢
    omega

theorem Reads.inOrder (levels : Nat) {spans : List Span} {used : List Nat}
    {cells : List (LeafCell ρ)} (reads : pages.Reads spans used cells) (deep : used.length ≤ levels) :
    (spans.map Span.page).flatMap (pages.inOrder levels) = cells := by
  induction levels generalizing spans used cells with
  | zero =>
    have none : spans = [] := by
      have fewer := reads.length_le
      exact length_eq_zero_iff.mp (by omega)
    subst none
    cases reads
    rfl
  | succ levels ih =>
    induction spans generalizing used cells with
    | nil =>
      cases reads
      rfl
    | cons span rest inner =>
      obtain ⟨ownUsed, restUsed, ownCells, restCells, rfl, rfl, own, others⟩ :=
        (show pages.Reads ([span] ++ rest) _ _ from reads).split
      rw [length_append] at deep
      rw [map_cons, flatMap_cons, inner others (by omega)]
      congr 1
      unfold Pages.inOrder
      cases own with
      | leaf here _ _ later =>
        cases later
        rw [here, append_nil]
      | @node _ _ below _ layout rightmost here _ later =>
        rw [here]
        change (layout.cells.map Route.child ++ [rightmost]).flatMap _ = _
        rw [← span.children_pages]
        rw [append_nil] at later
        rw [length_cons] at deep
        exact ih later (by omega)

variable {others : Nat → Prop}

theorem HoldsTableBeside.length_le (table : pages.HoldsTableBeside others root used cells) :
    used.length ≤ pages.count + 1 := by
  have inside : used ⊆ List.range (pages.count + 1) := fun page mem =>
    mem_range.mpr (Nat.lt_succ_of_le (table.spares.apart page (.inr mem)).2)
  have fewer := (subperm_of_subset table.distinct inside).length_le
  rwa [length_range] at fewer

theorem HoldsTableBeside.tableRows [DecidableEq ρ] (torn : ρ)
    (table : pages.HoldsTableBeside others root used cells) :
    pages.tableRows torn root = cells.map LeafCell.row := by
  have walked := table.reads.inOrder (pages.count + 1) table.length_le
  simp only [map_cons, map_nil, flatMap_cons, flatMap_nil, append_nil] at walked
  rw [Pages.tableRows, walked]
  apply map_congr_left
  intro cell mem
  exact (table.reads.intact cell mem).currentRow

end Walk

end Pages

section Maps

variable {cells : List (LeafCell ρ)} {map : OrderedMap Int ρ}

def Lists (map : OrderedMap Int ρ) (cells : List (LeafCell ρ)) : Prop :=
  cells.map LeafCell.row = map.entries

theorem Lists.get_none (lists : Lists map cells) {rowid : Int}
    (absent : ∀ held ∈ cells, held.rowid ≠ rowid) : map.get rowid = none := by
  cases found : map.get rowid with
  | none => rfl
  | some payload =>
    have mem := (map.get_eq_some_iff rowid payload).mp found
    rw [← lists] at mem
    obtain ⟨held, inside, same⟩ := mem_map.mp mem
    exact absurd (congrArg Prod.fst same) (absent held inside)

theorem Lists.get_some (lists : Lists map cells) {held : LeafCell ρ} (inside : held ∈ cells) :
    map.get held.rowid = some held.payload := by
  rw [map.get_eq_some_iff, ← lists]
  exact mem_map_of_mem inside

theorem Lists.insert (lists : Lists map cells) {cell : LeafCell ρ}
    (absent : ∀ held ∈ cells, held.rowid ≠ cell.rowid) :
    Lists (map.insert cell.rowid cell.payload) (placeCell cell cells) := by
  change _ = OrderedMap.insertEntry cell.rowid cell.payload map.entries
  rw [← lists]
  clear lists
  induction cells with
  | nil => rfl
  | cons first rest ih =>
    have later := ih fun held inside => absent held (.tail _ inside)
    rw [placeCell_cons, map_cons, LeafCell.row, OrderedMap.insertEntry,
      if_neg (absent first (.head _)).symm]
    split
    · rfl
    · rw [map_cons, later]
      rfl

theorem Lists.erase (lists : Lists map cells) (rowid : Int) :
    Lists (map.erase rowid) (withoutRow rowid cells) := by
  unfold Lists at lists ⊢
  rw [withoutRow_rows, lists]
  apply filter_congr
  intro row _
  exact decide_not.symm

end Maps

section Refinement

variable {geom : Geometry} {pages next : Pages ρ κ} {root : Nat} {others : Nat → Prop}
  {map : OrderedMap Int ρ} {calls : List (RowCall ρ)}

/-- A well-formed table b-tree with the rows of a map: a tree of distinct pages
whose rowids ascend, apart from other pages in use and from the free list, where
every interior page has a route. -/
def Pages.HoldsMap (others : Nat → Prop) (pages : Pages ρ κ) (root : Nat)
    (map : OrderedMap Int ρ) : Prop :=
  ∃ used cells, pages.HoldsTableBeside others root used cells ∧ pages.Branching used ∧
    Lists map cells

theorem Pages.HoldsTableBeside.deleteRow {used : List Nat} {cells : List (LeafCell ρ)} {rowid : Int}
    (table : pages.HoldsTableBeside others root used cells)
    (done : pages.deleteRow geom root rowid = .ok next) :
    Pages.Leaves others pages used next root (withoutRow rowid cells) := by
  obtain ⟨⟨whole, _, smaller, exchange⟩, same⟩ := table.toHoldsTable.deleteRow done
  obtain ⟨spares, apart⟩ := exchange.toBalanced.spares table.spares table.distinct table.apart
  exact ⟨whole, ⟨smaller, spares, apart⟩, exchange,
    fun page other => same page fun inside => table.apart page inside other⟩

theorem RowCall.Takes.loneFits {rowid : Int} {payload : ρ} {length : Nat}
    (takes : (RowCall.insert rowid payload length).Takes geom root pages)
    {ancestors : List Nat} {leaf : Nat}
    (found : (pages.encodeLeafCell geom rowid payload length).2.findLeafPage rowid
      maxPagesVisited [] root = .ok (ancestors, leaf)) :
    (pages.encodeLeafCell geom rowid payload length).2.LoneFits geom leaf
      (pages.encodeLeafCell geom rowid payload length).1 := by
  intro layout content none
  have room := takes ancestors leaf layout found content (by
    rw [none]
    exact fun held mem => nomatch mem)
  rw [none] at room
  rcases room with fits | split
  · exact fits
  · rw [findIdx_nil, length_nil] at split
    exact split.1 (by decide)

/-- The overflow pages that a refused insert has framed: no tree and no list has them. -/
def RowCall.lost (geom : Geometry) : RowCall ρ → OrderedMap Int ρ → Nat
  | .insert rowid _ length, map => if map.get rowid = none then 0 else geom.chainLength length false
  | .delete _, _ => 0

def lostPages (geom : Geometry) : List (RowCall ρ) → OrderedMap Int ρ → Nat
  | [], _ => 0
  | call :: later, map => call.lost geom map + lostPages geom later (call.apply map).2

/-- What calls leave: the table with the rows of a map, pages that balance but for the lost
ones, and the pages of others as they were. -/
def Pages.Serves (others : Nat → Prop) (pages : Pages ρ κ) (used : List Nat) (next : Pages ρ κ)
    (root : Nat) (map : OrderedMap Int ρ) (lost : Nat) : Prop :=
  ∃ whole cells leaked, next.HoldsTableBeside others root whole cells ∧ next.Branching whole ∧
    Lists map cells ∧ pages.Balanced used next (whole ++ leaked) ∧ leaked.length = lost ∧
    ∀ page, others page → next.content page = pages.content page

section Calls

variable {used : List Nat} {cells : List (LeafCell ρ)}
  (table : pages.HoldsTableBeside others root used cells) (branching : pages.Branching used)
  (lists : Lists map cells)

include table branching lists

theorem Pages.HoldsTableBeside.perform (call : RowCall ρ)
    (within : pages.WithinLevels maxPagesVisited root) (takes : call.Takes geom root pages) :
    (call.perform geom root pages).1 = (call.apply map).1 ∧
      Pages.Serves others pages used (call.perform geom root pages).2 root (call.apply map).2
        (call.lost geom map) := by
  cases call with
  | insert rowid payload length =>
    simp only [RowCall.perform, RowCall.apply, RowCall.lost]
    rcases @Pages.HoldsTableBeside.insertRow_progress ρ κ geom _ _ _ _ _ table within rowid payload
        length with
      ⟨next, done⟩ | ⟨failed, held, inside, same⟩
    · obtain ⟨fresh, overflow, whole, beside, exchange, kept⟩ := table.insertRow_of_room
        (fun ancestors leaf found => takes.loneFits found) done
      rw [done, lists.get_none fresh]
      exact ⟨rfl, whole, _, [], beside, exchange.branching branching, lists.insert fresh,
        by simpa using exchange.toBalanced, rfl, kept⟩
    subst same
    rw [failed, lists.get_some inside]
    -- The overflow pages of the refused row are in no tree and not free.
    have framed := @Pages.HoldsTableBeside.encodeLeafCell ρ κ geom _ _ _ _ _ table held.rowid
      payload length
    refine ⟨rfl, used, cells, _, ⟨framed.table, framed.spares.mono ?_, table.apart⟩, ?_, lists,
      framed.exchange.toBalanced, ?_, ?_⟩
    · intro page mem
      exact mem.imp_right fun inside => mem_append_left _ inside
    · exact fun page mem => framed.exchange.branching branching page
        (mem_append_left _ mem)
    · have taken := congrArg List.length (pages.allocatePages_eq (geom.chainLength length false))
      simp only [length_append, length_take, length_range'] at taken
      simp only [reduceCtorEq, if_false]
      exact taken.trans (by omega)
    · exact fun page other => framed.same page fun inside =>
        framed.apart page (mem_append_right _ inside) other
  | delete rowid =>
    simp only [RowCall.perform, RowCall.apply]
    rcases @Pages.HoldsTable.deleteRow_progress ρ κ geom _ _ _ _ table.toHoldsTable branching within
        rowid with
      ⟨⟨held, inside, same⟩, next, done⟩ | ⟨failed, absent⟩
    · obtain ⟨whole, beside, exchange, kept⟩ := table.deleteRow done
      subst same
      rw [done, lists.get_some inside]
      exact ⟨rfl, whole, _, [], beside, exchange.branching branching, lists.erase _,
        by simpa using exchange.toBalanced, rfl, kept⟩
    · rw [failed, lists.get_none absent]
      exact ⟨rfl, used, cells, [], table, branching, lists, by simpa using .refl pages used, rfl,
        fun _ _ => rfl⟩

theorem Pages.HoldsTableBeside.performAll (calls : List (RowCall ρ))
    (takes : CallsTake geom root calls pages) :
    (performAll geom root calls pages).1 = (applyAll calls map).1 ∧
      Pages.Serves others pages used (performAll geom root calls pages).2 root
        (applyAll calls map).2 (lostPages geom calls map) := by
  induction calls generalizing pages map used cells with
  | nil => exact ⟨rfl, used, cells, [], table, branching, lists, by simpa using .refl pages used, rfl,
      fun _ _ => rfl⟩
  | cons call later ih =>
    obtain ⟨within, room, rest⟩ := takes
    obtain ⟨outcome, middle, rows, leaked, holds, branches, listed, paid, few, kept⟩ :=
      table.perform branching lists call within room
    obtain ⟨outcomes, whole, last, more, final, ends, map, balanced, lost, same⟩ :=
      ih holds branches listed rest
    refine ⟨?_, whole, last, more ++ leaked, final, ends, map, ?_, ?_, fun page other =>
      (same page other).trans (kept page other)⟩
    · simp only [SqliteRs.performAll, applyAll]
      rw [outcome, outcomes]
    · rw [← append_assoc]
      exact paid.trans (balanced.beside leaked)
    · rw [length_append, lost, few, lostPages, Nat.add_comm]

end Calls

theorem Pages.HoldsMap.performAll (calls : List (RowCall ρ)) {pages : Pages ρ κ}
    {map : OrderedMap Int ρ} (holds : pages.HoldsMap others root map)
    (takes : CallsTake geom root calls pages) :
    (performAll geom root calls pages).1 = (applyAll calls map).1 ∧
      (performAll geom root calls pages).2.HoldsMap others root (applyAll calls map).2 := by
  obtain ⟨used, cells, table, branching, lists⟩ := holds
  obtain ⟨outcomes, whole, rows, _, beside, branches, listed, _⟩ :=
    table.performAll branching lists calls takes
  exact ⟨outcomes, whole, rows, beside, branches, listed⟩

theorem Pages.HoldsMap.tableRows [DecidableEq ρ] (torn : ρ)
    (holds : pages.HoldsMap others root map) : pages.tableRows torn root = map.entries := by
  obtain ⟨used, cells, table, _, lists⟩ := holds
  rw [table.tableRows torn]
  exact lists

/-- Every run of inserts and deletes on a well-formed table, each on a tree that a
search gets down and with page writes that fit, refines the run on a finite map. -/
theorem row_calls_refine_map [DecidableEq ρ] (torn : ρ) (holds : pages.HoldsMap others root map)
    (takes : CallsTake geom root calls pages) :
    pages.tableRows torn root = map.entries ∧
      (performAll geom root calls pages).1 = (applyAll calls map).1 ∧
      (performAll geom root calls pages).2.tableRows torn root =
        (applyAll calls map).2.entries ∧
      (performAll geom root calls pages).2.HoldsMap others root (applyAll calls map).2 := by
  obtain ⟨outcomes, final⟩ := holds.performAll calls takes
  exact ⟨holds.tableRows torn, outcomes, final.tableRows torn, final⟩

def rowsOneThree : Pages Unit Unit :=
  ({ content := fun _ => .blank, count := 2 } : Pages Unit Unit).writeLeafPage smallPages 2
    [{ rowid := 1, length := 3, payload := () }, { rowid := 3, length := 3, payload := () }]

theorem rowsOneThree_table {others : Nat → Prop} (low : ∀ page, others page → page < 2) :
    rowsOneThree.HoldsTableBeside others 2 [2]
      [{ rowid := 1, length := 3, payload := () }, { rowid := 3, length := 3, payload := () }] := by
  refine ⟨Pages.HoldsTable.of_leaf rfl (writePageCommon_cells ..) ?_ ?_, ?_, ?_⟩
  · decide
  · decide
  · refine ⟨nodup_nil, fun page mem => (nomatch mem), fun page mem => ⟨not_mem_nil, ?_⟩⟩
    rcases mem with other | here
    · exact (low page other).le
    · exact (mem_singleton.mp here).le
  · intro page mem other
    cases mem_singleton.mp mem
    exact absurd (low 2 other) (by decide)

theorem rowsOneThree_branching : rowsOneThree.Branching [2] := by
  intro page mem
  cases mem_singleton.mp mem
  trivial

theorem rowsOneThree_holds : rowsOneThree.HoldsMap (fun _ => False) 2
    ⟨[(1, ()), (3, ())], by decide⟩ :=
  ⟨[2], _, rowsOneThree_table fun _ => False.elim, rowsOneThree_branching, rfl⟩

/-- The fourth row splits the leaf, and with rows 1 and 2 the first half goes away again. -/
def splitAndJoin : List (RowCall Unit) :=
  [.insert 2 () 400, .insert 4 () 400, .insert 4 () 3, .delete 1, .delete 2, .delete 2]

theorem splitAndJoin_takes : CallsTake smallPages 2 splitAndJoin rowsOneThree := by
  refine ⟨trivial, ?_, trivial, ?_, ⟨trivial, ?_⟩, ?_, ⟨trivial, ?_⟩, ?_, ⟨trivial, ?_⟩, ?_, trivial,
    ?_, trivial⟩
  · intro ancestors leaf layout found here _
    cases found
    cases here
    exact .inl (by decide)
  · intro ancestors leaf layout found here _
    cases found
    cases here
    exact .inr (by unfold SplitFits; decide)
  · intro route mem
    cases mem_singleton.mp mem
    trivial
  · intro ancestors leaf layout found here absent
    cases found
    cases here
    exact absurd rfl (absent _ (.tail _ (.head _)))
  · intro route mem
    cases mem_singleton.mp mem
    trivial
  · intro leaf cell layout routes rightmost child found here single
    cases found
    cases here
    cases single
  · intro route mem
    cases mem_singleton.mp mem
    trivial
  · intro leaf cell layout routes rightmost child found here single same above dropped
    cases found
    cases above
    cases dropped
    exact (by decide : Fits 8 512 [5, 403])
  · intro leaf cell layout routes rightmost child found
    cases found

theorem rows_split_and_joined :
    (performAll smallPages 2 splitAndJoin rowsOneThree).1 =
        [.ok (), .ok (), .error (.duplicateRowid 4), .ok (), .ok (), .error (.rowidNotFound 2)] ∧
      (performAll smallPages 2 splitAndJoin rowsOneThree).2.tableRows () 2 = [(3, ()), (4, ())] := by
  obtain ⟨_, outcomes, rows, _⟩ := row_calls_refine_map () rowsOneThree_holds splitAndJoin_takes
  exact ⟨outcomes, rows⟩

/-- Calls on one table keep the books of the file: the pages of others are as they were, and
of all further pages each is in the tree, free, or lost to a refused insert, and only once. -/
theorem row_calls_account_for_pages {used : List Nat} {cells : List (LeafCell ρ)}
    (table : pages.HoldsTableBeside others root used cells) (branching : pages.Branching used)
    (lists : Lists map cells) (takes : CallsTake geom root calls pages)
    (accounted : ∀ page, ¬ others page →
      used.count page + pages.freePages.count page = pages.inFile page) :
    ∃ whole rows, ∃ leaked : List Nat,
      (performAll geom root calls pages).2.HoldsTableBeside others root whole rows ∧
      leaked.length = lostPages geom calls map ∧
      (∀ page, ¬ others page → whole.count page + leaked.count page +
        (performAll geom root calls pages).2.freePages.count page =
          (performAll geom root calls pages).2.inFile page) ∧
      ∀ page, others page →
        (performAll geom root calls pages).2.content page = pages.content page := by
  obtain ⟨_, whole, rows, leaked, holds, _, _, balanced, lost, kept⟩ :=
    table.performAll branching lists calls takes
  refine ⟨whole, rows, leaked, holds, lost, fun page own => ?_, kept⟩
  have balance := balanced.balance page
  have before := accounted page own
  rw [count_append] at balance
  omega

/-- Two overflow pages are framed for a row that is then refused. -/
theorem refused_row_loses_pages : ∃ whole leaked : List Nat, leaked.length = 2 ∧
    ∀ page, ¬ page < 2 → whole.count page + leaked.count page +
      (performAll smallPages 2 [.insert 1 () 1000] rowsOneThree).2.freePages.count page =
        (performAll smallPages 2 [.insert 1 () 1000] rowsOneThree).2.inFile page := by
  have takes : CallsTake smallPages 2 [.insert 1 () 1000] rowsOneThree := by
    refine ⟨trivial, fun ancestors leaf layout found here absent => ?_, trivial⟩
    cases found
    cases here
    exact absurd rfl (absent _ (.head _))
  obtain ⟨whole, _, leaked, _, two, account, _⟩ := @row_calls_account_for_pages _ _ _ _ _ (· < 2)
    ⟨[(1, ()), (3, ())], by decide⟩ _ _ _ (rowsOneThree_table fun _ => id) rowsOneThree_branching rfl
    takes (fun page own => by
      change [2].count page + 0 = if page ≤ 2 then 1 else 0
      rw [count_singleton]
      grind)
  exact ⟨whole, leaked, two, account⟩

end Refinement

section Tower

/-- A table at page 2 that goes down to the right for so many pages, with one leaf
beside each of them. Splits keep a tree balanced, but `splice_child` puts an only child into
its parent's place, so that leaves at any depths stand side by side after deletes. -/
def tower (levels : Nat) : Pages Unit Unit where
  content page :=
    if page < 2 then .blank
    else if page < levels + 2 then
      .tableInterior (Layout.writePageCommon routeSize 512 [⟨page + levels + 1, page⟩]) (page + 1)
    else if page = levels + 2 then
      .tableLeaf (Layout.writePageCommon (leafCellSize smallPages) 512
        [{ rowid := page, length := 3, payload := () }])
    else
      .tableLeaf (Layout.writePageCommon (leafCellSize smallPages) 512
        [{ rowid := page - (levels + 1 : Nat), length := 3, payload := () }])
  count := 2 * levels + 2

variable {levels page : Nat}

theorem tower_interior (least : 2 ≤ page) (most : page < levels + 2) :
    (tower levels).content page = .tableInterior
      (Layout.writePageCommon routeSize 512 [⟨page + levels + 1, page⟩]) (page + 1) := by
  simp only [tower]
  rw [if_neg (by omega), if_pos most]

theorem tower_bottom : (tower levels).content (levels + 2) = .tableLeaf (Layout.writePageCommon
    (leafCellSize smallPages) 512 [{ rowid := (levels + 2 : Nat), length := 3, payload := () }]) := by
  simp only [tower]
  rw [if_neg (by omega), if_neg (by omega), if_pos trivial]

theorem tower_side (least : 2 ≤ page) :
    (tower levels).content (page + levels + 1) = .tableLeaf (Layout.writePageCommon
      (leafCellSize smallPages) 512 [{ rowid := page, length := 3, payload := () }]) := by
  simp only [tower]
  rw [if_neg (by omega), if_neg (by omega), if_neg (by omega)]
  congr 5
  omega

theorem tower_reads (left : Nat) (least : 2 ≤ page) (place : page + left = levels + 2)
    {low : Option Int} (above : ∀ bound ∈ low, bound < page) :
    ∃ used cells, (tower levels).Reads [⟨page, low, none⟩] used cells ∧ used.Nodup ∧
      (∀ held ∈ used, page ≤ held ∧ held ≤ levels + 2 ∨
        page + levels + 1 ≤ held ∧ held ≤ 2 * levels + 2) ∧
      cells.Pairwise (fun first second => first.rowid < second.rowid) ∧
      (∀ cell ∈ cells, page ≤ cell.rowid) ∧ (tower levels).Branching used := by
  induction left generalizing page low with
  | zero =>
    cases (show page = levels + 2 by omega)
    have reads : (tower levels).Reads [⟨levels + 2, low, none⟩] _ _ := .of_leaf tower_bottom
      (writePageCommon_cells ..) (fun cell mem part overflow held => by
        cases mem_singleton.mp mem
        cases held) (fun cell mem => by
          cases mem_singleton.mp mem
          exact ⟨above, fun _ none => nomatch none⟩)
    refine ⟨_, _, reads, nodup_singleton _, ?_, pairwise_singleton _ _, ?_, ?_⟩
    · intro held mem
      cases mem_singleton.mp mem
      exact .inl ⟨Nat.le_refl _, Nat.le_refl _⟩
    · intro cell mem
      cases mem_singleton.mp mem
      exact Int.le_refl _
    · intro held mem
      cases mem_singleton.mp mem
      rw [tower_bottom]
      trivial
  | succ left ih =>
    obtain ⟨used, cells, below, nodup, inside, asc, later, branching⟩ :=
      @ih (page + 1) (by omega) (by omega) (some page) (fun bound same => by
        cases same
        omega)
    have own := tower_interior least (show page < levels + 2 by omega)
    have side := @tower_side levels page least
    have first : (tower levels).Reads [⟨page + levels + 1, low, some page⟩] _ _ := .of_leaf side
      (writePageCommon_cells ..) (fun cell mem part overflow held => by
        cases mem_singleton.mp mem
        cases held) (fun cell mem => by
          cases mem_singleton.mp mem
          exact ⟨above, fun high same => by cases same; exact Int.le_refl _⟩)
    have reads : (tower levels).Reads [⟨page, low, none⟩] _ _ := .node own
      (by
        exact .cons ⟨above, fun _ none => nomatch none⟩ (.nil _))
      (by
        exact first.append below)
    refine ⟨_, _, reads, ?_, ?_, ?_, ?_, ?_⟩
    · refine nodup_cons.mpr ⟨fun mem => ?_, nodup_cons.mpr ⟨fun mem => ?_, nodup⟩⟩
      · rcases mem_cons.mp mem with same | mem
        · change page = page + levels + 1 at same
          omega
        · rcases inside page mem with range | range <;> omega
      · rcases inside _ mem with range | range
        · change page + 1 ≤ page + levels + 1 ∧ page + levels + 1 ≤ levels + 2 at range
          omega
        · change page + 1 + levels + 1 ≤ page + levels + 1 ∧ _ at range
          omega
    · intro held mem
      rcases mem_cons.mp mem with same | mem
      · change held = page at same
        omega
      rcases mem_cons.mp mem with same | mem
      · change held = page + levels + 1 at same
        omega
      rcases inside held mem with range | range
      · exact .inl ⟨by omega, range.2⟩
      · exact .inr ⟨by omega, range.2⟩
    · refine pairwise_cons.mpr ⟨fun cell mem => ?_, asc⟩
      have bound := later cell mem
      change (page : Int) < cell.rowid
      omega
    · intro cell mem
      rcases mem_cons.mp mem with rfl | mem
      · exact Int.le_refl _
      · have bound := later cell mem
        omega
    · intro held mem
      rcases mem_cons.mp mem with rfl | mem
      · rw [own]
        exact cons_ne_nil _ _
      rcases mem_cons.mp mem with rfl | mem
      · rw [side]
        trivial
      · exact branching held mem

theorem tower_holds (levels : Nat) : ∃ map, (tower levels).HoldsMap (fun _ => False) 2 map := by
  obtain ⟨used, cells, reads, nodup, inside, asc, _, branching⟩ :=
    @tower_reads levels 2 levels (Nat.le_refl _) (Nat.add_comm _ _) none fun _ none => nomatch none
  have keyed : (cells.map LeafCell.row).Pairwise (fun left right => left.1 < right.1) :=
    pairwise_map.mpr asc
  refine ⟨⟨cells.map LeafCell.row, keyed⟩, used, cells, ⟨⟨reads, nodup, asc⟩, ?_, ?_⟩, branching, rfl⟩
  swap
  · exact fun page _ => id
  refine ⟨nodup_nil, fun page mem => (nomatch mem), fun page mem => ?_⟩
  refine ⟨not_mem_nil, ?_⟩
  change page ≤ 2 * levels + 2
  rcases inside page (mem.resolve_left id) with range | range
  · omega
  · exact range.2

theorem tower_search {rowid : Int} (beyond : (levels + 2 : Nat) < rowid) (budget : Nat)
    (before : List Nat) (least : 2 ≤ page) (short : page + budget ≤ levels + 2) :
    (tower levels).findLeafPage rowid budget before page = .error .traversalTooLong := by
  induction budget generalizing page before with
  | zero => rfl
  | succ budget ih =>
    unfold Pages.findLeafPage
    rw [tower_interior least (by omega)]
    simp only [writePageCommon_cells, Pages.routeFor]
    have past : ¬ rowid ≤ (page : Int) := by omega
    rw [List.find?_cons_of_neg (by simpa using past)]
    exact @ih (page + 1) _ (by omega) (by omega)

section Lost

variable {geom : Geometry} {root length : Nat} {rowid : Int} {payload : ρ} {pages : Pages ρ κ}
  {error : BtreeError}

theorem encodeLeafCell_short (short : geom.chainLength length false = 0) :
    pages.encodeLeafCell geom rowid payload length = ({ rowid, length, payload }, pages) := by
  unfold Pages.encodeLeafCell
  rw [short]
  rfl

theorem insert_lost (short : geom.chainLength length false = 0)
    (lost : pages.findLeafPage rowid maxPagesVisited [] root = .error error) :
    (RowCall.insert rowid payload length).Takes geom root pages ∧
      ((RowCall.insert rowid payload length).perform geom root pages).1 = .error error := by
  constructor
  · simp only [RowCall.Takes, encodeLeafCell_short short]
    intro ancestors leaf layout found
    rw [lost] at found
    cases found
  · simp [RowCall.perform, Pages.insertRow, encodeLeafCell_short short, lost]

end Lost

/-- A well-formed tree with more levels than a search visits refuses a new row,
though nothing has to be written to find that it is absent. -/
theorem deep_tree_refuses_row : ∃ map,
    (tower maxPagesVisited).HoldsMap (fun _ => False) 2 map ∧
      (RowCall.insert 2000000 () 3).Takes smallPages 2 (tower maxPagesVisited) ∧
      ((RowCall.insert 2000000 () 3).perform smallPages 2 (tower maxPagesVisited)).1 ≠
        ((RowCall.insert 2000000 () 3).apply map).1 := by
  obtain ⟨map, holds⟩ := tower_holds maxPagesVisited
  have beyond : ((maxPagesVisited + 2 : Nat) : Int) < 2000000 := by decide
  have search := tower_search beyond maxPagesVisited [] (Nat.le_refl 2) (Nat.add_comm ..).le
  obtain ⟨takes, refused⟩ := @insert_lost Unit Unit smallPages 2 3 2000000 () _ _ (by decide) search
  refine ⟨map, holds, takes, ?_⟩
  rw [refused]
  simp only [RowCall.apply]
  split <;> simp

end Tower

end SqliteRs
