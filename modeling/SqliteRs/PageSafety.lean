import SqliteRs.TableBtree
import SqliteRs.IndexBtree
import Mathlib.Logic.Relation

/-!
Page safety of b-tree writes. A page is good when its layout is sound after its
header and none of its pointers names page 1, which is only ever a root. Splits
cut a page by the number of its cells, and nothing compares the sizes of the
halves with the page, so a write is safe when the half that takes the new cell
fits; replacing an entry by its predecessor and moving a child into page 1 are
not compared with the page either. Routes of table b-trees are too small and too
alike for their splits to overflow.
-/

namespace SqliteRs

open List Option Layout Pages Nat Page

variable {ρ κ : Type} (geom : Geometry)

/-- Pointer array, cells and free blocks share no byte and stay in the usable area. -/
def Page.Sound (page : Nat) : Page ρ κ → Prop
  | .tableLeaf layout => layout.Sound (leafCellSize geom) (leafBase page) geom.usable
  | .tableInterior layout _ => layout.Sound routeSize (interiorBase page) geom.usable
  | .indexLeaf layout => layout.Sound (entrySize geom) (leafBase page) geom.usable
  | .indexInterior layout _ =>
    layout.Sound (indexRouteSize geom) (interiorBase page) geom.usable
  | _ => True

def Page.SparesFirst : Page ρ κ → Prop
  | .tableLeaf layout => ∀ cell ∈ layout.cells, 1 ∉ cell.overflow
  | .tableInterior layout rightmost => rightmost ≠ 1 ∧ ∀ route ∈ layout.cells, route.child ≠ 1
  | .indexLeaf layout => ∀ entry ∈ layout.cells, 1 ∉ entry.overflow
  | .indexInterior layout rightmost =>
    rightmost ≠ 1 ∧ ∀ route ∈ layout.cells, route.child ≠ 1 ∧ 1 ∉ route.entry.overflow
  | _ => True

/-- Well-formed storage: every page is laid out soundly, and page 1 is neither a
child, nor an overflow page, nor free. -/
structure Pages.Good (pages : Pages ρ κ) : Prop where
  sound : ∀ page, (pages.content page).Sound geom page
  spared : ∀ page, (pages.content page).SparesFirst
  count : 1 ≤ pages.count
  free : ∀ trunk ∈ pages.trunks, trunk.1 ≠ 1 ∧ 1 ∉ trunk.2

def LeafTakes (leaf : Nat) (cells : List (LeafCell ρ)) (cell : LeafCell ρ) : Prop :=
  let position := cells.findIdx fun held => decide (cell.rowid < held.rowid)
  let sizes := (cells.insertIdx position cell).map (leafCellSize geom)
  Fits (leafBase leaf) geom.pageLen sizes ∨
    SplitFits (leafBase leaf) 8 geom.pageLen position ((cells.length + 2) / 2) 0 sizes

/-- The cells of a child fit the page of its parent, where they move when the parent is a
root left with no other child. -/
def ChildFits (parent : Nat) : Page ρ κ → Prop
  | .tableLeaf layout =>
    Fits (leafBase parent) geom.pageLen (layout.cells.map (leafCellSize geom))
  | .tableInterior layout _ =>
    Fits (interiorBase parent) geom.pageLen (layout.cells.map routeSize)
  | _ => True

/-- A row alone in a leaf under page 1, whose only sibling then moves into page 1, leaves a
sibling that fits there. Another root has room for any page of its size. -/
def SiblingFits (root : Nat) (rowid : Int) (pages : Pages ρ κ) : Prop :=
  ∀ rest leaf cell layout routes rightmost child,
    pages.findLeafPage rowid maxPagesVisited [] root = .ok (1 :: rest, leaf) →
    pages.content leaf = .tableLeaf layout → layout.cells = [cell] → cell.rowid = rowid →
    pages.content 1 = .tableInterior routes rightmost →
    Pages.dropRoute 1 routes.cells rightmost leaf = .ok ([], child) →
    ChildFits geom 1 (pages.content child)

namespace Pages

variable {geom : Geometry} {pages next : Pages ρ κ}

theorem Good.at (good : pages.Good geom) {page : Nat} {content : Page ρ κ}
    (here : pages.content page = content) : content.Sound geom page ∧ content.SparesFirst :=
  here ▸ ⟨good.sound page, good.spared page⟩

theorem Good.set (good : pages.Good geom) {page : Nat} {content : Page ρ κ}
    (sound : content.Sound geom page) (spared : content.SparesFirst) :
    (pages.set page content).Good geom := by
  constructor
  · intro other
    rw [set_content]
    split
    · rename_i same
      rw [same]
      exact sound
    · exact good.sound other
  · intro other
    rw [set_content]
    split
    · exact spared
    · exact good.spared other
  · exact good.count
  · exact good.free

theorem Good.allocatePage (good : pages.Good geom) :
    pages.allocatePage.1 ≠ 1 ∧ pages.allocatePage.2.Good geom := by
  unfold Pages.allocatePage
  split
  · have fresh : (pages.set (pages.count + 1) .blank).Good geom := good.set trivial trivial
    have count := good.count
    exact ⟨by simp only; omega, fresh.sound, fresh.spared, by simp only; omega, fresh.free⟩
  · rename_i trunk rest listed
    have free := good.free
    rw [listed] at free
    refine ⟨(free _ (.head _)).1, good.sound, good.spared, good.count, ?_⟩
    exact fun other mem => free other (.tail _ mem)
  · rename_i trunk leaf leaves rest listed
    have free := good.free
    rw [listed] at free
    have first := free _ (.head _)
    refine ⟨fun same => first.2 (same ▸ .head _), good.sound, good.spared, good.count, ?_⟩
    intro other mem
    rcases mem_cons.mp mem with rfl | later
    · exact ⟨first.1, fun inside => first.2 (.tail _ inside)⟩
    · exact free other (.tail _ later)

theorem Good.deallocatePage (good : pages.Good geom) {page : Nat} (other : page ≠ 1) :
    (pages.deallocatePage geom page).Good geom := by
  have trunk : (pages.set page .trunk).Good geom := good.set trivial trivial
  have free := good.free
  unfold Pages.deallocatePage
  split
  · refine ⟨trunk.sound, trunk.spared, trunk.count, ?_⟩
    intro listed mem
    cases mem_singleton.mp mem
    exact ⟨other, not_mem_nil⟩
  rename_i first leaves rest listed
  rw [listed] at free
  split
  · refine ⟨good.sound, good.spared, good.count, ?_⟩
    intro held mem
    rcases mem_cons.mp mem with rfl | later
    · refine ⟨(free _ (.head _)).1, ?_⟩
      rw [mem_cons, not_or]
      exact ⟨Ne.symm other, (free _ (.head _)).2⟩
    · exact free held (.tail _ later)
  · refine ⟨trunk.sound, trunk.spared, trunk.count, ?_⟩
    intro held mem
    rcases mem_cons.mp mem with rfl | later
    · exact ⟨other, not_mem_nil⟩
    · exact free held later

theorem Good.freeOverflowChain (chain : List Nat) {pages : Pages ρ κ} (good : pages.Good geom)
    (spared : 1 ∉ chain) : (pages.freeOverflowChain geom chain).Good geom := by
  induction chain generalizing pages with
  | nil => exact good
  | cons page rest ih =>
    rw [mem_cons, not_or] at spared
    exact ih (good.deallocatePage (Ne.symm spared.1)) spared.2

theorem Good.allocatePages (count : Nat) {pages : Pages ρ κ} (good : pages.Good geom) :
    1 ∉ (pages.allocatePages count).1 ∧ (pages.allocatePages count).2.Good geom := by
  induction count generalizing pages with
  | zero => exact ⟨not_mem_nil, good⟩
  | succ count ih =>
    obtain ⟨first, alloc⟩ := good.allocatePage
    obtain ⟨rest, finished⟩ := ih alloc
    refine ⟨?_, finished⟩
    simp only [Pages.allocatePages, mem_cons, not_or]
    exact ⟨Ne.symm first, rest⟩

theorem deallocatePage_content (geom : Geometry) (page other : Nat) (pages : Pages ρ κ) :
    (pages.deallocatePage geom page).content other = pages.content other ∨
      other = page ∧ (pages.deallocatePage geom page).content other = .trunk := by
  have trunk : (pages.set page .trunk).content other = pages.content other ∨
      other = page ∧ (pages.set page .trunk).content other = .trunk := by
    rw [set_content]
    split
    · rename_i same
      exact .inr ⟨same, rfl⟩
    · exact .inl rfl
  unfold deallocatePage
  split
  · exact trunk
  split
  · exact .inl rfl
  · exact trunk

theorem freeOverflowChain_content (geom : Geometry) (chain : List Nat) (other : Nat)
    (pages : Pages ρ κ) :
    (pages.freeOverflowChain geom chain).content other = pages.content other ∨
      other ∈ chain ∧ (pages.freeOverflowChain geom chain).content other = .trunk := by
  induction chain generalizing pages with
  | nil => exact .inl rfl
  | cons page rest ih =>
    rcases ih (pages.deallocatePage geom page) with same | ⟨later, trunk⟩
    · rcases deallocatePage_content geom page other pages with kept | ⟨here, trunk⟩
      · exact .inl (same.trans kept)
      · exact .inr ⟨here ▸ .head _, same.trans trunk⟩
    · exact .inr ⟨.tail _ later, trunk⟩

theorem releaseLeaf_content (geom : Geometry) (leaf : Nat) (overflow : List Nat)
    (pages : Pages ρ κ) (page : Nat) :
    (pages.releaseLeaf geom leaf overflow).content page = pages.content page ∨
      (page = leaf ∨ page ∈ overflow) ∧ ((pages.releaseLeaf geom leaf overflow).content page = .trunk ∨
          ∃ layout, (pages.releaseLeaf geom leaf overflow).content page = .tableLeaf layout ∧
            layout.cells = []) := by
  rcases freeOverflowChain_content geom overflow page
    ((pages.writeLeafPage geom leaf []).deallocatePage geom leaf) with same | ⟨inside, trunk⟩
  swap
  · exact .inr ⟨.inr inside, .inl trunk⟩
  rcases deallocatePage_content geom leaf page
    (pages.writeLeafPage geom leaf []) with kept | ⟨here, trunk⟩
  swap
  · exact .inr ⟨.inl here, .inl (same.trans trunk)⟩
  have written := same.trans kept
  rw [writeLeafPage, set_content] at written
  split at written
  · rename_i here
    exact .inr ⟨.inl here, .inr ⟨_, written, rfl⟩⟩
  · exact .inl written

section Writes

variable (whole : geom.usable = geom.pageLen) {page rightmost : Nat}
include whole

theorem Good.writeLeafPage (good : pages.Good geom) {cells : List (LeafCell ρ)}
    (fits : Fits (leafBase page) geom.pageLen (cells.map (leafCellSize geom)))
    (spared : ∀ cell ∈ cells, 1 ∉ cell.overflow) : (pages.writeLeafPage geom page cells).Good geom := by
  apply good.set
  · rw [Page.Sound, whole]
    exact (writePageCommon_sound_iff _ (Nat.add_pos_right _ (by decide))
      (leafCellSize_pos geom) cells).mpr fits
  · rw [SparesFirst, writePageCommon_cells]
    exact spared

theorem Good.writeInteriorPage (good : pages.Good geom) {routes : List Route}
    (fits : Fits (interiorBase page) geom.pageLen (routes.map routeSize))
    (last : rightmost ≠ 1) (spared : ∀ route ∈ routes, route.child ≠ 1) :
    (pages.writeInteriorPage geom page routes rightmost).Good geom := by
  apply good.set
  · rw [Page.Sound, whole]
    exact (writePageCommon_sound_iff _ (Nat.add_pos_right _ (by decide))
      routeSize_pos routes).mpr fits
  · rw [SparesFirst, writePageCommon_cells]
    exact ⟨last, spared⟩

theorem Good.writeIndexLeafPage (good : pages.Good geom) {entries : List (IndexEntry κ)}
    (fits : Fits (leafBase page) geom.pageLen (entries.map (entrySize geom)))
    (spared : ∀ entry ∈ entries, 1 ∉ entry.overflow) :
    (pages.writeIndexLeafPage geom page entries).Good geom := by
  apply good.set
  · rw [Page.Sound, whole]
    exact (writePageCommon_sound_iff _ (Nat.add_pos_right _ (by decide))
      (entrySize_pos geom) entries).mpr fits
  · rw [SparesFirst, writePageCommon_cells]
    exact spared

theorem Good.writeIndexInteriorPage (good : pages.Good geom) {routes : List (IndexRoute κ)}
    (fits : Fits (interiorBase page) geom.pageLen (routes.map (indexRouteSize geom)))
    (last : rightmost ≠ 1) (spared : ∀ route ∈ routes, route.child ≠ 1 ∧ 1 ∉ route.entry.overflow) :
    (pages.writeIndexInteriorPage geom page routes rightmost).Good geom := by
  apply good.set
  · rw [Page.Sound, whole]
    exact (writePageCommon_sound_iff _ (Nat.add_pos_right _ (by decide))
      (indexRouteSize_pos geom) routes).mpr fits
  · rw [SparesFirst, writePageCommon_cells]
    exact ⟨last, spared⟩

end Writes

section TableInsert

theorem routeSize_bounds (route : Route) : 5 ≤ routeSize route ∧ routeSize route ≤ 13 := by
  have low := varintLen_pos (rowidBits route.key)
  have high := varintLen_le (rowidBits route.key)
  unfold routeSize
  omega

variable {old target root : Nat} {divider : Int} {routes split : List Route}

theorem splitRoutes_sizes {rightmost last new : Nat}
    (done : splitRoutes routes rightmost old new divider = some (split, last)) :
    (∃ pos ≤ routes.length, split.map routeSize =
      (routes.map routeSize).insertIdx pos (routeSize ⟨old, divider⟩)) ∧
    (rightmost ≠ 1 → new ≠ 1 → (∀ route ∈ routes, route.child ≠ 1) →
      last ≠ 1 ∧ ∀ route ∈ split, route.child ≠ 1) := by
  unfold splitRoutes at done
  split at done
  · rename_i found
    cases done
    obtain ⟨front, route, back, rfl, _, here, rfl⟩ := (splitRoute_edits ..).split found
    refine ⟨⟨front.length, by simp, ?_⟩, fun ends fresh spared => ⟨ends, ?_⟩⟩
    · rw [insertIdx_split _ _ _ (by simp)]
      simp [routeSize]
    · simp_all [or_imp, forall_and]
  · split at done
    swap
    · cases done
    rename_i same
    cases done
    refine ⟨⟨routes.length, le_refl _, ?_⟩, fun ends fresh spared => ⟨fresh, ?_⟩⟩
    · rw [insertIdx_split _ _ _ (by simp), ← map_take, ← map_drop]
      simp
    · simp_all [or_imp]

variable (whole : geom.usable = geom.pageLen)

/-- What a sound page can become when it takes one more cell. -/
structure Taking {Cell : Type} (size : Cell → Nat) (clear : Cell → Prop) (base limit : Nat)
    (layout : Layout Cell) (pos : Nat) (cell : Cell) : Prop where
  all : ∀ mem ∈ layout.cells.insertIdx pos cell, clear mem
  total : Fits base limit ((layout.cells.insertIdx pos cell).map size) ↔
    base + 2 * (layout.cells.length + 1) + (size cell + cellBytes size layout.cells) ≤ limit
  spliced : ∀ {spliced}, layout.spliceInsertCell size base pos cell = some spliced →
    spliced.Sound size base limit
  halves : ∀ {lower cut skip}, lower ≤ base →
    SplitFits base lower limit pos cut skip ((layout.cells.insertIdx pos cell).map size) →
    Fits base limit (((layout.cells.insertIdx pos cell).take cut).map size) ∧
      Fits lower limit (((layout.cells.insertIdx pos cell).drop (cut + skip)).map size)

omit whole in
theorem Taking.of_sound {Cell : Type} {size : Cell → Nat} {clear : Cell → Prop}
    {base limit pos : Nat} {layout : Layout Cell} {cell : Cell}
    (sound : layout.Sound size base limit) (positive : 0 < size cell)
    (bound : pos ≤ layout.cells.length) (new : clear cell) (held : ∀ mem ∈ layout.cells, clear mem) :
    Taking size clear base limit layout pos cell where
  all := by
    simp only [(perm_insertIdx cell layout.cells bound).mem_iff, forall_mem_cons]
    exact ⟨new, held⟩
  total := by
    rw [Fits, length_map, length_insertIdx_of_le_length bound,
      ((perm_insertIdx cell layout.cells bound).map size).sum_eq]
    rfl
  spliced := by
    rw [Layout.cells, length_map] at bound
    exact sound.spliceInsertCell positive bound
  halves earlier split := by
    rw [map_take, map_drop]
    rw [map_insertIdx] at split ⊢
    exact halves_fit sound.fits (by rwa [length_map]) earlier split

theorem interiorBase_le (page : Nat) : 12 ≤ interiorBase page ∧ interiorBase page ≤ 112 := by
  unfold interiorBase headerStart
  split <;> omega

theorem leafBase_le (page : Nat) : 8 ≤ leafBase page ∧ leafBase page ≤ 108 := by
  unfold leafBase headerStart
  split <;> omega

theorem base_of_ne_one {page : Nat} (other : page ≠ 1) :
    leafBase page = 8 ∧ interiorBase page = 12 := by
  unfold leafBase interiorBase headerStart
  rw [if_neg other]
  exact ⟨rfl, rfl⟩

theorem single_route_fits (page : Nat) (route : Route) :
    Fits (interiorBase page) geom.pageLen ([route].map routeSize) := by
  have base := interiorBase_le page
  have bounds := routeSize_bounds route
  have size := geom.pageLen_ge
  simp only [Fits, map_cons, map_nil, length_singleton, sum_singleton]
  omega

include whole

theorem Layout.Sound.fits_at {Cell : Type} {size : Cell → Nat} {layout : Layout Cell} {base : Nat}
    (sound : layout.Sound size base geom.usable) (earlier : target ≤ base) :
    Fits target geom.pageLen (layout.cells.map size) := by
  rw [← whole]
  exact sound.fits.sublist (List.Sublist.refl _) earlier

theorem Good.rootSplit {right : Nat} (good : pages.Good geom) (other : right ≠ 1)
    (done : rootSplit geom root right divider pages = .ok next) : next.Good geom := by
  obtain ⟨fresh, alloc⟩ := good.allocatePage
  obtain ⟨leaves, interiors⟩ := base_of_ne_one fresh
  have only : ∀ route ∈ [(⟨pages.allocatePage.1, divider⟩ : Route)], route.child ≠ 1 := by
    intro route mem
    cases mem_singleton.mp mem
    exact fresh
  unfold Pages.rootSplit at done
  split at done
  · rename_i layout here
    have spared := (good.at here).2
    cases done
    have moved := alloc.writeLeafPage whole
      (Layout.Sound.fits_at whole (good.at here).1 (leaves.le.trans (leafBase_le root).1)) spared
    exact moved.writeInteriorPage whole (single_route_fits root _) other only
  · rename_i layout rightmost here
    have spared := (good.at here).2
    cases done
    have moved := alloc.writeInteriorPage whole
      (Layout.Sound.fits_at whole (good.at here).1 (interiors.le.trans (interiorBase_le root).1))
        spared.1 spared.2
    exact moved.writeInteriorPage whole (single_route_fits root _) other only
  · cases done

omit whole in
theorem overfull_routes {page : Nat}
    (overfull : ¬ (interiorBase page + 2 * routes.length + cellBytes routeSize routes ≤
      geom.pageLen)) : 27 ≤ routes.length := by
  have base := interiorBase_le page
  have total := sum_le_card_nsmul (routes.map routeSize) 13 (by
    intro size mem
    obtain ⟨route, _, rfl⟩ := mem_map.mp mem
    exact (routeSize_bounds route).2)
  have size := geom.pageLen_ge
  rw [length_map, nsmul_eq_mul, cast_id] at total
  unfold cellBytes at overfull
  omega

theorem Good.routes_split_fit (good : pages.Good geom) {page rightmost : Nat}
    {layout : Layout Route} (here : pages.content page = .tableInterior layout rightmost)
    {pos : Nat} {new : Route} (bound : pos ≤ layout.cells.length) (sizes : routes.map routeSize =
      (layout.cells.map routeSize).insertIdx pos (routeSize new))
    (overfull : ¬ Fits (interiorBase page) geom.pageLen (routes.map routeSize)) :
    Fits (interiorBase page) geom.pageLen ((routes.take (routes.length / 2)).map routeSize) ∧
      Fits 12 geom.pageLen ((routes.drop (routes.length / 2 + 1)).map routeSize) := by
  have base := interiorBase_le page
  have fits := Layout.Sound.fits_at whole (good.at here).1 (le_refl _)
  have inside : pos ≤ (layout.cells.map routeSize).length := by
    rw [length_map]
    exact bound
  have length : routes.length = layout.cells.length + 1 := by
    have same := congrArg List.length sizes
    rwa [length_map, length_insertIdx_of_le_length inside, length_map] at same
  have many : 27 ≤ routes.length := by
    rw [Fits, length_map] at overfull
    exact overfull_routes overfull
  have small := routeSize_bounds new
  have atLeast : ∀ size ∈ layout.cells.map routeSize, 5 ≤ size := by
    intro size mem
    obtain ⟨route, _, rfl⟩ := mem_map.mp mem
    exact (routeSize_bounds route).1
  have split : SplitFits (interiorBase page) 12 geom.pageLen pos (routes.length / 2) 1
      ((layout.cells.map routeSize).insertIdx pos (routeSize new)) := by
    apply splitFits_of_small fits inside base.1 _ atLeast
    · rw [length_map]
      omega
    · omega
    · rw [length_map]
      omega
  have halves := halves_fit fits inside base.1 split
  rw [← sizes, ← map_take, ← map_drop] at halves
  exact halves

theorem Good.insertIntoParent (ancestors : List Nat) {new : Nat} {pages : Pages ρ κ}
    (good : pages.Good geom) (other : new ≠ 1)
    (done : insertIntoParent geom root ancestors old new divider pages = .ok next) :
    next.Good geom := by
  induction ancestors generalizing old new divider pages with
  | nil => exact good.rootSplit whole other done
  | cons parent rest ih =>
    unfold insertIntoParent at done
    split at done
    swap
    · cases done
    rename_i layout rightmost here
    have spared := (good.at here).2
    split at done
    · cases done
    rename_i routes last found
    obtain ⟨⟨pos, bound, sizes⟩, keep⟩ := splitRoutes_sizes found
    obtain ⟨ends, children⟩ := keep spared.1 other spared.2
    split at done
    · rename_i fits
      cases done
      have room : Fits (interiorBase parent) geom.pageLen (routes.map routeSize) := by
        rw [Fits, length_map]
        exact fits
      exact good.writeInteriorPage whole room ends children
    rename_i overfull
    have full : ¬ Fits (interiorBase parent) geom.pageLen (routes.map routeSize) := by
      rw [Fits, length_map]
      exact overfull
    obtain ⟨left, right⟩ := good.routes_split_fit whole here bound sizes full
    split at done
    · cases done
    rename_i promoted median
    obtain ⟨fresh, alloc⟩ := good.allocatePage
    have first := alloc.writeInteriorPage whole left (children promoted (mem_of_getElem? median))
      (fun route mem => children route (mem_of_mem_take mem))
    rw [← (base_of_ne_one fresh).2] at right
    exact ih (first.writeInteriorPage whole right ends
      fun route mem => children route (mem_of_mem_drop mem)) fresh done

omit whole in
theorem Good.encodeLeafCell (good : pages.Good geom) (rowid : Int) (payload : ρ) (length : Nat) :
    1 ∉ (pages.encodeLeafCell geom rowid payload length).1.overflow ∧
      (pages.encodeLeafCell geom rowid payload length).2.Good geom := by
  obtain ⟨spared, alloc⟩ := good.allocatePages (geom.chainLength length false)
  exact ⟨spared, (fills_chain payload).keeps (Good geom)
    (fun _ _ _ good => good.set trivial trivial) 0 _ alloc⟩

theorem Good.insertIntoLeaf {leaf : Nat} {ancestors : List Nat} {cell : LeafCell ρ}
    (good : pages.Good geom) (spared : 1 ∉ cell.overflow)
    (takes : ∀ layout, pages.content leaf = .tableLeaf layout → LeafTakes geom leaf layout.cells cell)
    (done : insertIntoLeaf geom root ancestors leaf cell pages = .ok next) : next.Good geom := by
  unfold Pages.insertIntoLeaf at done
  split at done
  swap
  · cases done
  rename_i layout here
  have room := takes layout here
  obtain ⟨sound, held⟩ := good.at here
  rw [Page.Sound, whole] at sound
  split at done
  · cases done
  simp only at done
  unfold LeafTakes at room
  generalize at_ : layout.cells.findIdx (fun held => decide (cell.rowid < held.rowid)) = pos
    at done room
  have bound : pos ≤ layout.cells.length := at_ ▸ findIdx_le_length
  have taking := Taking.of_sound sound (leafCellSize_pos geom cell) bound spared held
  split at done
  · rename_i enough
    split at done
    · rename_i spliced put
      cases done
      apply good.set
      · rw [Page.Sound, whole]
        exact taking.spliced put
      · rw [Page.SparesFirst, spliceInsertCell_cells put]
        exact taking.all
    · cases done
      exact good.writeLeafPage whole (taking.total.mpr (by omega)) taking.all
  · rename_i overfull
    split at done
    · cases done
    rename_i last final
    have split := Or.resolve_left room fun fitting => by
      have needed := taking.total.mp fitting
      omega
    obtain ⟨left, right⟩ := taking.halves (leafBase_le leaf).1 split
    obtain ⟨fresh, alloc⟩ := good.allocatePage
    rw [length_insertIdx_of_le_length bound] at done
    have first := alloc.writeLeafPage whole left
      fun mem inside => taking.all mem (mem_of_mem_take inside)
    rw [← (base_of_ne_one fresh).1] at right
    exact (first.writeLeafPage whole right
      fun mem inside => taking.all mem (mem_of_mem_drop inside)).insertIntoParent whole
        ancestors fresh done

end TableInsert

section TableDelete

variable {rowid : Int} {ancestors : List Nat} {emptied old new root : Nat} {routes : List Route}

theorem findLeafPage_spared (good : pages.Good geom) (budget : Nat) {before : List Nat}
    {page leaf : Nat} (found : pages.findLeafPage rowid budget before page = .ok (ancestors, leaf)) :
    (∀ ancestor ∈ ancestors, ancestor ∈ before ∨ ancestor = page ∨ ancestor ≠ 1) ∧
      (ancestors = before ∧ leaf = page ∨ leaf ≠ 1) := by
  induction budget generalizing before page with
  | zero => cases found
  | succ budget ih =>
    unfold findLeafPage at found
    split at found
    · cases found
      exact ⟨fun ancestor mem => .inl mem, .inl ⟨rfl, rfl⟩⟩
    · rename_i layout rightmost here
      have spared := (good.at here).2
      have child : routeFor layout.cells rightmost rowid ≠ 1 := by
        unfold routeFor
        split
        · rename_i route sought
          exact spared.2 route (mem_of_find?_eq_some sought)
        · exact spared.1
      obtain ⟨path, last⟩ := ih found
      constructor
      · intro ancestor mem
        rcases path ancestor mem with old | rfl | other
        · rcases mem_cons.mp old with rfl | old
          · exact .inr (.inl rfl)
          · exact .inl old
        · exact .inr (.inr child)
        · exact .inr (.inr other)
      · rcases last with ⟨_, rfl⟩ | other
        · exact .inr child
        · exact .inr other
    · cases found

theorem dropRoute_sublist {parent rightmost last : Nat} {rest : List Route}
    (done : dropRoute parent routes rightmost emptied = .ok (rest, last)) :
    rest.Sublist routes ∧ (last = rightmost ∨ ∃ route ∈ routes, last = route.child) := by
  unfold dropRoute at done
  split at done
  · cases done
    exact ⟨eraseP_sublist, .inl rfl⟩
  split at done
  · split at done
    · cases done
    rename_i route final
    cases done
    exact ⟨dropLast_sublist _, .inr ⟨route, mem_of_getLast? final, rfl⟩⟩
  · cases done

theorem replaceRoute_sizes {newer : List Route} (done : replaceRoute old new routes = some newer) :
    newer.map routeSize = routes.map routeSize ∧
      ∀ route ∈ newer, route.child = new ∨ ∃ held ∈ routes, held.child = route.child := by
  obtain ⟨front, route, back, rfl, _, here, rfl⟩ := (replaceRoute_edits ..).split done
  refine ⟨by simp [routeSize], fun held mem => ?_⟩
  grind

variable (whole : geom.usable = geom.pageLen)
include whole

theorem Good.collapseRoot {child : Nat} (good : pages.Good geom) (other : child ≠ 1)
    (room : root = 1 → ChildFits geom 1 (pages.content child))
    (done : collapseRoot geom root child pages = .ok next) : next.Good geom := by
  unfold Pages.collapseRoot at done
  split at done
  · rename_i layout here
    have spared := (good.at here).2
    cases done
    have fits : Fits (leafBase root) geom.pageLen (layout.cells.map (leafCellSize geom)) := by
      by_cases first : root = 1
      · have room := room first
        rw [here] at room
        rw [first]
        exact room
      apply Layout.Sound.fits_at whole (good.at here).1
      rw [(base_of_ne_one first).1]
      exact (leafBase_le child).1
    exact (good.writeLeafPage whole fits spared).deallocatePage other
  · rename_i layout rightmost here
    have spared := (good.at here).2
    cases done
    have fits : Fits (interiorBase root) geom.pageLen (layout.cells.map routeSize) := by
      by_cases first : root = 1
      · have room := room first
        rw [here] at room
        rw [first]
        exact room
      apply Layout.Sound.fits_at whole (good.at here).1
      rw [(base_of_ne_one first).2]
      exact (interiorBase_le child).1
    exact (good.writeInteriorPage whole fits spared.1 spared.2).deallocatePage other
  · cases done

theorem Good.spliceChild (good : pages.Good geom) (other : new ≠ 1)
    (done : spliceChild geom ancestors old new pages = .ok next) : next.Good geom := by
  unfold Pages.spliceChild at done
  split at done
  · cases done
  rename_i parent rest
  split at done
  swap
  · cases done
  rename_i layout rightmost here
  have fits := Layout.Sound.fits_at whole (good.at here).1 (le_refl _)
  have spared := (good.at here).2
  split at done
  · rename_i routes newer
    cases done
    obtain ⟨sizes, children⟩ := replaceRoute_sizes newer
    rw [← sizes] at fits
    refine good.writeInteriorPage whole fits spared.1 fun route mem => ?_
    rcases children route mem with fresh | ⟨held, inside, same⟩
    · rw [fresh]
      exact other
    · rw [← same]
      exact spared.2 held inside
  · split at done
    · cases done
      exact good.writeInteriorPage whole fits other spared.2
    · cases done

theorem Good.collapseIntoAncestors (good : pages.Good geom)
    (path : ∀ ancestor ∈ ancestors, ancestor = root ∨ ancestor ≠ 1)
    (takes : ∀ rest routes rightmost child, ancestors = 1 :: rest →
      pages.content 1 = .tableInterior routes rightmost →
      dropRoute 1 routes.cells rightmost emptied = .ok ([], child) →
      ChildFits geom 1 (pages.content child))
    (done : collapseIntoAncestors geom root ancestors emptied pages = .ok next) : next.Good geom := by
  unfold Pages.collapseIntoAncestors at done
  split at done
  · cases done
  rename_i parent rest
  split at done
  swap
  · cases done
  rename_i layout rightmost here
  have fits := Layout.Sound.fits_at whole (good.at here).1 (le_refl _)
  have spared := (good.at here).2
  split at done
  · cases done
  rename_i routes last dropped
  obtain ⟨fewer, ends⟩ := dropRoute_sublist dropped
  have other : last ≠ 1 := by
    rcases ends with rfl | ⟨route, inside, rfl⟩
    · exact spared.1
    · exact spared.2 route inside
  split at done
  · cases done
    exact good.writeInteriorPage whole (fits.sublist (fewer.map routeSize) (le_refl _)) other
      fun route mem => spared.2 route (fewer.subset mem)
  rename_i none
  have empty : routes = [] := not_not.mp none
  split at done
  · rename_i same
    rw [empty, same] at dropped
    rw [same] at here
    refine good.collapseRoot whole other (fun first => ?_) done
    rw [first] at dropped here same
    exact takes rest layout rightmost last (by rw [same]) here dropped
  · rename_i differ
    have parentOther : parent ≠ 1 := by
      rcases path parent (.head _) with same | other
      · exact absurd same differ
      · exact other
    exact (good.deallocatePage parentOther).spliceChild whole other done

omit whole in
theorem childFits_shrunk {before after : Page ρ κ} (takes : ChildFits geom 1 before)
    (shrunk : after = before ∨ after = .trunk ∨
      ∃ layout, after = .tableLeaf layout ∧ layout.cells = []) : ChildFits geom 1 after := by
  rcases shrunk with rfl | rfl | ⟨layout, rfl, none⟩
  · exact takes
  · trivial
  · have size := geom.pageLen_ge
    have base := leafBase_le 1
    simp only [ChildFits, none, Fits, map_nil, length_nil, sum_nil]
    omega

theorem Good.deleteRow (good : pages.Good geom) (takes : SiblingFits geom root rowid pages)
    (done : deleteRow geom root rowid pages = .ok next) : next.Good geom := by
  unfold Pages.deleteRow at done
  split at done
  · cases done
  rename_i ancestors leaf found
  obtain ⟨path, last⟩ := findLeafPage_spared good maxPagesVisited found
  split at done
  swap
  · cases done
  rename_i layout here
  obtain ⟨sound, held⟩ := good.at here
  split at done
  · cases done
  rename_i cell sought
  have chain := held cell (mem_of_find?_eq_some sought)
  split at done
  · simp only at done
    split at done
    · cases done
    rename_i spliced cut
    cases done
    have written : (pages.set leaf (.tableLeaf spliced)).Good geom := by
      apply good.set
      · exact sound.spliceDeleteCell cut
      · rw [SparesFirst, spliceDeleteCell_cells cut]
        exact fun other mem => held other (mem_of_mem_eraseIdx mem)
    exact written.freeOverflowChain _ chain
  rename_i alone
  rw [not_or] at alone
  have other : leaf ≠ 1 := by
    rcases last with ⟨none, _⟩ | other
    · exact absurd none alone.2
    · exact other
  have room : Fits (leafBase leaf) geom.pageLen
      (([] : List (LeafCell ρ)).map (leafCellSize geom)) :=
    (Layout.Sound.fits_at whole (good.at here).1 (le_refl _)).sublist (nil_sublist _) (le_refl _)
  have emptied := good.writeLeafPage whole room fun cell mem => nomatch mem
  have freed : (pages.releaseLeaf geom leaf cell.overflow).Good geom :=
    (emptied.deallocatePage other).freeOverflowChain cell.overflow chain
  refine freed.collapseIntoAncestors whole (fun ancestor mem => ?_) ?_ done
  · rcases path ancestor mem with none | same | other
    · cases none
    · exact .inl same
    · exact .inr other
  have contents := releaseLeaf_content geom leaf cell.overflow pages
  have first : (pages.releaseLeaf geom leaf cell.overflow).content 1 = pages.content 1 := by
    rcases contents 1 with same | ⟨here | here, _⟩
    · exact same
    · exact absurd here.symm other
    · exact absurd here chain
  intro rest routes rightmost child parent content dropped
  rw [first] at content
  rw [parent] at found
  have only : layout.cells = [cell] := by
    obtain ⟨held, single⟩ := length_eq_one_iff.mp (show layout.cells.length = 1 by
      have some := length_pos_of_mem (mem_of_find?_eq_some sought)
      omega)
    rw [single] at sought ⊢
    rw [mem_singleton.mp (mem_of_find?_eq_some sought)]
  have wanted : cell.rowid = rowid := by simpa using List.find?_some sought
  refine childFits_shrunk
    (takes rest leaf cell layout routes rightmost child found here only wanted content dropped) ?_
  rcases contents child with same | ⟨_, changed⟩
  · exact .inl same
  · exact .inr changed

end TableDelete

end Pages

end SqliteRs
