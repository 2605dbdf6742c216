import SqliteRs.PageLayout
import Mathlib.Logic.Function.Basic

/-!
Pages of table and index b-trees, and the allocator they share. A cell is kept
by what its bytes decode to: a table leaf cell has a rowid and a payload, an
index cell has a key, and a cell of an interior page also has its child. How
many bytes it takes follows from the length of its payload, of which a page
holds only the local part. A freed page keeps its content unless it becomes a
trunk of the free list.
-/

namespace SqliteRs

open Function

/-- Page sizes the file header accepts. Up to 255 bytes of each page are reserved. -/
structure Geometry where
  pageLen : Nat
  usable : Nat
  pageLen_ge : 512 ≤ pageLen
  usable_le : usable ≤ pageLen
  reserved_le : pageLen ≤ usable + 255

def headerStart (page : Nat) : Nat := if page = 1 then 100 else 0

def leafBase (page : Nat) : Nat := headerStart page + 8

def interiorBase (page : Nat) : Nat := headerStart page + 12

def varintLen (value : Nat) : Nat :=
  if value < 2 ^ 7 then 1
  else if value < 2 ^ 14 then 2
  else if value < 2 ^ 21 then 3
  else if value < 2 ^ 28 then 4
  else if value < 2 ^ 35 then 5
  else if value < 2 ^ 42 then 6
  else if value < 2 ^ 49 then 7
  else if value < 2 ^ 56 then 8
  else 9

def rowidBits (rowid : Int) : Nat := (rowid % 2 ^ 64).toNat

variable (value : Nat)

theorem varintLen_pos : 0 < varintLen value := by
  unfold varintLen
  split_ifs <;> omega

theorem varintLen_le : varintLen value ≤ 9 := by
  unfold varintLen
  split_ifs <;> omega

namespace Geometry

variable (geom : Geometry)

def localPayloadSize (length : Nat) (isIndex : Bool) : Nat :=
  let maxLocal :=
    if isIndex then (geom.usable - 12) * 64 / 255 - 23 else geom.usable - 35
  if length ≤ maxLocal then length
  else
    let minLocal := (geom.usable - 12) * 32 / 255 - 23
    let kept := minLocal + (length - minLocal) % max (geom.usable - 4) 1
    if kept ≤ maxLocal then kept else minLocal

/-- The local part of a payload, with the page number of an overflow chain if it has one. -/
def valueSize (length : Nat) (isIndex : Bool) : Nat :=
  geom.localPayloadSize length isIndex +
    if geom.localPayloadSize length isIndex < length then 4 else 0

def chainLength (length : Nat) (isIndex : Bool) : Nat :=
  let available := max (geom.usable - 4) 1
  (length - geom.localPayloadSize length isIndex + available - 1) / available

end Geometry

structure LeafCell (ρ : Type) where
  rowid : Int
  length : Nat
  payload : ρ
  overflow : List Nat := []

structure Route where
  child : Nat
  key : Int
  deriving DecidableEq

structure IndexEntry (κ : Type) where
  key : κ
  length : Nat
  overflow : List Nat := []

structure IndexRoute (κ : Type) where
  child : Nat
  entry : IndexEntry κ

section Sizes

variable {ρ κ : Type}

def leafCellSize (geom : Geometry) (cell : LeafCell ρ) : Nat :=
  varintLen cell.length + varintLen (rowidBits cell.rowid) + geom.valueSize cell.length false

def routeSize (route : Route) : Nat := 4 + varintLen (rowidBits route.key)

def entrySize (geom : Geometry) (entry : IndexEntry κ) : Nat :=
  varintLen entry.length + geom.valueSize entry.length true

def indexRouteSize (geom : Geometry) (route : IndexRoute κ) : Nat :=
  4 + entrySize geom route.entry

theorem leafCellSize_pos (geom : Geometry) (cell : LeafCell ρ) :
    0 < leafCellSize geom cell := by
  have := varintLen_pos cell.length
  unfold leafCellSize
  omega

theorem routeSize_pos (route : Route) : 0 < routeSize route := by
  unfold routeSize
  omega

theorem entrySize_pos (geom : Geometry) (entry : IndexEntry κ) : 0 < entrySize geom entry := by
  have := varintLen_pos entry.length
  unfold entrySize
  omega

theorem indexRouteSize_pos (geom : Geometry) (route : IndexRoute κ) :
    0 < indexRouteSize geom route := by
  unfold indexRouteSize
  omega

end Sizes

/-- A page by what it holds. A chain page holds a part of a long payload or key. -/
inductive Page (ρ κ : Type) where
  | blank
  | trunk
  | chain (payload : ρ) (part : Nat)
  | keyChain (key : κ) (part : Nat)
  | tableLeaf (layout : Layout (LeafCell ρ))
  | tableInterior (layout : Layout Route) (rightmost : Nat)
  | indexLeaf (layout : Layout (IndexEntry κ))
  | indexInterior (layout : Layout (IndexRoute κ)) (rightmost : Nat)

inductive BtreeError where
  | unexpectedPageType (page : Nat)
  | rowidNotFound (rowid : Int)
  | duplicateRowid (rowid : Int)
  | duplicateKey
  | keyNotFound
  | missingChildRoute (page child : Nat)
  | overflowChainTruncated (page : Nat)
  | overflowChainCycle (page revisited : Nat)
  | overflowChainTooLong (page : Nat)
  | pageTooShort (page : Nat)
  | payloadTooLarge (page length : Nat)
  | record
  | traversalTooLong
  | internal
  deriving DecidableEq

def maxPagesVisited : Nat := 1000000

/-- Page contents, the number of pages of the file, and the free list: trunk
pages, each with the pages it lists, the last listed first. -/
structure Pages (ρ κ : Type) where
  content : Nat → Page ρ κ
  count : Nat
  trunks : List (Nat × List Nat) := []

namespace Pages

variable {ρ κ : Type} (geom : Geometry)

def set (pages : Pages ρ κ) (page : Nat) (content : Page ρ κ) : Pages ρ κ :=
  { pages with content := Function.update pages.content page content }

def allocatePage (pages : Pages ρ κ) : Nat × Pages ρ κ :=
  match pages.trunks with
  | [] => (pages.count + 1,
      { pages.set (pages.count + 1) .blank with count := pages.count + 1 })
  | (trunk, []) :: rest => (trunk, { pages with trunks := rest })
  | (trunk, leaf :: leaves) :: rest => (leaf, { pages with trunks := (trunk, leaves) :: rest })

def deallocatePage (page : Nat) (pages : Pages ρ κ) : Pages ρ κ :=
  match pages.trunks with
  | [] => { pages.set page .trunk with trunks := [(page, [])] }
  | (trunk, leaves) :: rest =>
    if leaves.length < (geom.pageLen - 8) / 4 then
      { pages with trunks := (trunk, page :: leaves) :: rest }
    else { pages.set page .trunk with trunks := (page, []) :: (trunk, leaves) :: rest }

def allocatePages : Nat → Pages ρ κ → List Nat × Pages ρ κ
  | 0, pages => ([], pages)
  | count + 1, pages =>
    let (page, pages) := pages.allocatePage
    let (rest, pages) := allocatePages count pages
    (page :: rest, pages)

def freeOverflowChain (chain : List Nat) (pages : Pages ρ κ) : Pages ρ κ :=
  chain.foldl (fun pages page => pages.deallocatePage geom page) pages

def writeLeafPage (page : Nat) (cells : List (LeafCell ρ)) (pages : Pages ρ κ) : Pages ρ κ :=
  pages.set page (.tableLeaf (Layout.writePageCommon (leafCellSize geom) geom.pageLen cells))

def writeInteriorPage (page : Nat) (routes : List Route) (rightmost : Nat) (pages : Pages ρ κ) :
    Pages ρ κ :=
  pages.set page
    (.tableInterior (Layout.writePageCommon routeSize geom.pageLen routes) rightmost)

def writeIndexLeafPage (page : Nat) (entries : List (IndexEntry κ)) (pages : Pages ρ κ) :
    Pages ρ κ :=
  pages.set page (.indexLeaf (Layout.writePageCommon (entrySize geom) geom.pageLen entries))

def writeIndexInteriorPage (page : Nat) (routes : List (IndexRoute κ)) (rightmost : Nat)
    (pages : Pages ρ κ) : Pages ρ κ :=
  pages.set page (.indexInterior
    (Layout.writePageCommon (indexRouteSize geom) geom.pageLen routes) rightmost)

@[simp] theorem set_content (pages : Pages ρ κ) (page : Nat) (content : Page ρ κ) (other : Nat) :
    (pages.set page content).content other =
      if other = page then content else pages.content other := by
  by_cases same : other = page
  · rw [if_pos same, same]
    exact update_self ..
  · rw [if_neg same]
    exact update_of_ne same ..

/-- A loop that writes the parts of a payload or key to the pages of a chain. -/
structure Fills (fill : Nat → List Nat → Pages ρ κ → Pages ρ κ) (content : Nat → Page ρ κ) :
    Prop where
  nil : ∀ part pages, fill part [] pages = pages
  cons : ∀ part page rest pages,
    fill part (page :: rest) pages = fill (part + 1) rest (pages.set page (content part))

namespace Fills

variable {fill : Nat → List Nat → Pages ρ κ → Pages ρ κ} {content : Nat → Page ρ κ}
  (fills : Fills fill content) {chain : List Nat} {page : Nat}
include fills

variable {pages : Pages ρ κ}

theorem keeps (holds : Pages ρ κ → Prop)
    (set : ∀ pages page part, holds pages → holds (pages.set page (content part)))
    (part : Nat) (chain : List Nat) (start : holds pages) : holds (fill part chain pages) := by
  induction chain generalizing part pages with
  | nil =>
    rw [fills.nil]
    exact start
  | cons head rest ih =>
    rw [fills.cons]
    exact ih _ (set _ _ _ start)

theorem other (part : Nat) (other : page ∉ chain) :
    (fill part chain pages).content page = pages.content page := by
  induction chain generalizing part pages with
  | nil => rw [fills.nil]
  | cons head rest ih =>
    rw [List.mem_cons, not_or] at other
    rw [fills.cons, ih _ other.2, set_content, if_neg other.1]

theorem here (part : Nat) (nodup : chain.Nodup) {pos : Nat} (held : chain[pos]? = some page) :
    (fill part chain pages).content page = content (part + pos) := by
  induction chain generalizing part pages pos with
  | nil => cases held
  | cons head rest ih =>
    obtain ⟨apart, later⟩ := List.nodup_cons.mp nodup
    rw [fills.cons]
    cases pos with
    | zero =>
      cases held
      rw [fills.other _ apart, set_content, if_pos rfl, Nat.add_zero]
    | succ pos => rw [ih _ later held, Nat.add_right_comm, Nat.add_assoc]

end Fills

end Pages

end SqliteRs
