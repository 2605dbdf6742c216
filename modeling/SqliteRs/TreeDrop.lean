import SqliteRs.BtreeSafety
import SqliteRs.TreeDelete
import SqliteRs.RecordFormat
import SqliteRs.Pager

/-!
Dropping a b-tree. A sweep visits its pages depth first, frees the overflow chains
of a page's cells, then the subtrees, then the page. On an interior index page it
reads the keys after their chains are freed: a chain page that has become a trunk
of the free list by then leads elsewhere, and its bytes are those of the trunk.
-/

namespace SqliteRs

open List Nat Pages ByteFile

namespace Pages

variable {ρ κ : Type}

def trunkPages (pages : Pages ρ κ) : List Nat := pages.trunks.map Prod.fst

theorem trunkPages_subset {pages : Pages ρ κ} : ∀ page ∈ pages.trunkPages, page ∈ pages.freePages := by
  intro page mem
  obtain ⟨trunk, listed, rfl⟩ := mem_map.mp mem
  exact mem_flatMap.mpr ⟨trunk, listed, .head _⟩

theorem trunkPages_deallocatePage (geom : Geometry) (pages : Pages ρ κ) (page : Nat) :
    (deallocatePage geom page pages).trunkPages = pages.trunkPages ∨
      (deallocatePage geom page pages).trunkPages = page :: pages.trunkPages := by
  unfold deallocatePage
  split
  · rename_i none
    exact .inr (by simp [trunkPages, none])
  · rename_i trunk leaves rest listed
    split
    · exact .inl (by simp [trunkPages, listed])
    · exact .inr (by simp [trunkPages, listed])

end Pages

/-- A file with the bytes that its pages hold. The first trunk and the number of free
pages, which page 1 keeps, are those of the free list of `pages`. -/
structure Disk (ρ κ : Type) where
  pages : Pages ρ κ
  bytes : Nat → Bytes

namespace Disk

variable {ρ κ : Type}

section FreeList

variable (geom : Geometry)

/-- Only the first trunk of the new free list is written: the old one with a leaf
more, or the page itself. A page that is freed as a leaf keeps its bytes. -/
def deallocatePage (page : Nat) (disk : Disk ρ κ) : Disk ρ κ :=
  let pages := disk.pages.deallocatePage geom page
  { pages
    bytes := match pages.trunks with
      | [] => disk.bytes
      | (trunk, leaves) :: rest =>
        let written : TrunkPage :=
          { nextTrunk := .ofNat ((rest.map Prod.fst).headD 0), leaves := leaves.reverse.map .ofNat }
        Function.update disk.bytes trunk (written.write (disk.bytes trunk)).1 }

def freeAll (freed : List Nat) (disk : Disk ρ κ) : Disk ρ κ :=
  freed.foldl (fun disk page => disk.deallocatePage geom page) disk

variable {geom} {disk : Disk ρ κ} {freed : List Nat} {page : Nat}

theorem freeAll_append (front back : List Nat) :
    disk.freeAll geom (front ++ back) = (disk.freeAll geom front).freeAll geom back :=
  foldl_append

theorem freeAll_other (other : page ∉ freed) :
    (disk.freeAll geom freed).pages.content page = disk.pages.content page := by
  induction freed generalizing disk with
  | nil => rfl
  | cons first rest ih =>
    rw [mem_cons, not_or] at other
    exact (ih other.2).trans (deallocatePage_other geom other.1)

theorem freePages_freeAll (freed : List Nat) :
    (disk.freeAll geom freed).pages.freePages.Perm (freed ++ disk.pages.freePages) := by
  induction freed generalizing disk with
  | nil => exact List.Perm.refl _
  | cons page rest ih =>
    have first := (@freePages_deallocatePage ρ κ geom disk.pages page).append_left rest
    exact ih.trans (first.trans perm_middle)

theorem trunkPages_freeAll (freed : List Nat) :
    (∀ page ∈ disk.pages.trunkPages, page ∈ (disk.freeAll geom freed).pages.trunkPages) ∧
      ∀ page ∈ (disk.freeAll geom freed).pages.trunkPages,
        page ∈ freed ∨ page ∈ disk.pages.trunkPages := by
  induction freed generalizing disk with
  | nil => exact ⟨fun page mem => mem, fun page mem => .inr mem⟩
  | cons first rest ih =>
    obtain ⟨kept, only⟩ := @ih (disk.deallocatePage geom first)
    have step : (disk.deallocatePage geom first).pages.trunkPages = disk.pages.trunkPages ∨
        (disk.deallocatePage geom first).pages.trunkPages = first :: disk.pages.trunkPages :=
      trunkPages_deallocatePage geom disk.pages first
    constructor
    · intro page mem
      apply kept
      rcases step with same | added
      · rw [same]
        exact mem
      · rw [added]
        exact .tail _ mem
    · intro page mem
      rcases only page mem with later | listed
      · exact .inl (.tail _ later)
      rcases step with same | added
      · exact .inr (same ▸ listed)
      · rw [added] at listed
        rcases mem_cons.mp listed with rfl | before
        · exact .inl (.head _)
        · exact .inr before

/-- A trunk stays one, so a page that is none in the end was never written. -/
theorem bytes_freeAll (off : page ∉ (disk.freeAll geom freed).pages.trunkPages) :
    (disk.freeAll geom freed).bytes page = disk.bytes page := by
  induction freed generalizing disk with
  | nil => rfl
  | cons first rest ih =>
    refine (@ih (disk.deallocatePage geom first) off).trans ?_
    have early : page ∉ (disk.deallocatePage geom first).pages.trunkPages :=
      fun mem => off ((trunkPages_freeAll rest).1 page mem)
    simp only [deallocatePage] at early ⊢
    cases listed : (Pages.deallocatePage geom first disk.pages).trunks with
    | nil => rfl
    | cons trunk below =>
      apply Function.update_of_ne
      rintro rfl
      exact early (by simp [trunkPages, listed])

theorem bytes_freeAll_other (other : page ∉ freed) (off : page ∉ disk.pages.trunkPages) :
    (disk.freeAll geom freed).bytes page = disk.bytes page :=
  bytes_freeAll fun mem => ((trunkPages_freeAll freed).2 page mem).elim other off

end FreeList

section Chains

def nextPage (bytes : Bytes) : Nat := (be32 (bytes.take 4)).toNat

/-- Each page names the next, the last one none. -/
def Linked (disk : Disk ρ κ) : List Nat → Prop
  | [] => True
  | page :: rest => page ≠ 0 ∧ nextPage (disk.bytes page) = rest.headD 0 ∧ disk.Linked rest

def maxPayloadLen : Nat := 2147483647

variable (geom : Geometry)

/-- The part of a payload that lies on its overflow pages, with the pages seen so far. -/
def readOverflow (disk : Disk ρ κ) (owner : Nat) :
    Nat → List Nat → Nat → Nat → Except BtreeError Bytes
  | _, _, _, 0 => .ok []
  | hops, seen, page, remaining + 1 =>
    if page = 0 then .error (.overflowChainTruncated owner)
    else if page ∈ seen then .error (.overflowChainCycle owner page)
    else match hops with
      | 0 => .error (.overflowChainTooLong owner)
      | hops + 1 =>
        let bytes := disk.bytes page
        let take := min (remaining + 1) (max (geom.usable - 4) 1)
        if bytes.length < 4 + take then .error (.pageTooShort page)
        else do
          let rest ← disk.readOverflow owner hops (page :: seen) (nextPage bytes) (remaining + 1 - take)
          return (bytes.drop 4).take take ++ rest

/-- A key's payload: its local part from the cell, the rest from the chain. -/
def reassemblePayload (payload : κ → Bytes) (disk : Disk ρ κ) (owner : Nat) (entry : IndexEntry κ) :
    Except BtreeError Bytes :=
  let localSize := geom.localPayloadSize entry.length true
  if maxPayloadLen < entry.length then .error (.payloadTooLarge owner entry.length)
  else if localSize = entry.length then .ok ((payload entry.key).take localSize)
  else do
    let rest ← disk.readOverflow geom owner maxPagesVisited [] (entry.overflow.headD 0)
      (entry.length - localSize)
    return (payload entry.key).take localSize ++ rest

def decodeValueCell (encoding : TextEncoding) (payload : κ → Bytes) (disk : Disk ρ κ) (owner : Nat)
    (entry : IndexEntry κ) : Except BtreeError (List Value) := do
  let read ← disk.reassemblePayload geom payload owner entry
  (decodeRecord read encoding).mapError fun _ => .record

variable {geom}

theorem readOverflow_congr {disk other : Disk ρ κ} {owner hops remaining : Nat} {seen chain : List Nat}
    (linked : disk.Linked chain) (same : ∀ page ∈ chain, other.bytes page = disk.bytes page) :
    other.readOverflow geom owner hops seen (chain.headD 0) remaining =
      disk.readOverflow geom owner hops seen (chain.headD 0) remaining := by
  induction chain generalizing hops seen remaining with
  | nil => cases remaining <;> cases hops <;> simp [readOverflow]
  | cons page rest ih =>
    obtain ⟨-, link, later⟩ := linked
    cases remaining with
    | zero => simp [readOverflow]
    | succ remaining =>
      cases hops with
      | zero => simp [readOverflow]
      | succ hops =>
        simp only [readOverflow, headD_cons, same page (.head _), link]
        rw [ih later fun page mem => same page (.tail _ mem)]

theorem decodeValueCell_congr {encoding : TextEncoding} {payload : κ → Bytes} {disk other : Disk ρ κ}
    {owner : Nat} {entry : IndexEntry κ} (linked : disk.Linked entry.overflow)
    (same : ∀ page ∈ entry.overflow, other.bytes page = disk.bytes page) :
    other.decodeValueCell geom encoding payload owner entry =
      disk.decodeValueCell geom encoding payload owner entry := by
  simp only [decodeValueCell, reassemblePayload, readOverflow_congr linked same]

end Chains

end Disk

/-- A sweep under way: how many pages it has visited, and the file. -/
structure Sweep (ρ κ : Type) where
  visited : Nat
  disk : Disk ρ κ

namespace Sweep

variable {ρ κ : Type} (geom : Geometry)

def visit (sweep : Sweep ρ κ) : Except BtreeError (Sweep ρ κ) :=
  if maxPagesVisited < sweep.visited + 1 then .error .traversalTooLong
  else .ok { sweep with visited := sweep.visited + 1 }

def release (page : Nat) (sweep : Sweep ρ κ) : Sweep ρ κ :=
  { sweep with disk := sweep.disk.deallocatePage geom page }

/-- Frees a chain page by page along the links; a page that comes back is refused.
Each page is one of those that may be visited. -/
def freeOverflowChain (owner : Nat) : Nat → List Nat → Nat → Sweep ρ κ → Except BtreeError (Sweep ρ κ)
  | 0, _, _, _ => .error .traversalTooLong
  | left + 1, seen, page, sweep =>
    if page = 0 then .ok sweep
    else do
      let sweep ← sweep.visit
      if page ∈ seen then .error (.overflowChainCycle owner page)
      else
        freeOverflowChain owner left (page :: seen) (Disk.nextPage (sweep.disk.bytes page))
          (sweep.release geom page)

def freeChains (owner : Nat) : List (List Nat) → Sweep ρ κ → Except BtreeError (Sweep ρ κ)
  | [], sweep => .ok sweep
  | chain :: rest, sweep => do
      let sweep ← sweep.freeOverflowChain geom owner (maxPagesVisited + 1) [] (chain.headD 0)
      freeChains owner rest sweep

end Sweep

section FreeBtree

variable {ρ κ : Type} (geom : Geometry) (encoding : TextEncoding) (payload : κ → Bytes)

/-- Frees a subtree. A level takes one of the pages that may be visited, so the same
number bounds the depth. -/
def freeBtreePagesInner : Nat → Nat → Sweep ρ κ → Except BtreeError (Sweep ρ κ)
  | 0, _, _ => .error .traversalTooLong
  | depth + 1, page, sweep => do
      let sweep ← sweep.visit
      let sweep ← match sweep.disk.pages.content page with
        | .tableLeaf layout =>
          sweep.freeChains geom page (layout.cells.map LeafCell.overflow)
        | .tableInterior layout rightmost =>
          (layout.cells.map Route.child ++ [rightmost]).foldlM
            (fun sweep child => freeBtreePagesInner depth child sweep) sweep
        | .indexLeaf layout =>
          sweep.freeChains geom page (layout.cells.map IndexEntry.overflow)
        | .indexInterior layout rightmost => do
            let sweep ← sweep.freeChains geom page
              (layout.cells.map fun route => route.entry.overflow)
            let _ ← (layout.cells.map IndexRoute.entry).mapM
              (sweep.disk.decodeValueCell geom encoding payload page)
            (layout.cells.map IndexRoute.child ++ [rightmost]).foldlM
              (fun sweep child => freeBtreePagesInner depth child sweep) sweep
        | _ => .error (.unexpectedPageType page)
      return sweep.release geom page

def freeBtreePages (root : Nat) (disk : Disk ρ κ) : Except BtreeError (Disk ρ κ) :=
  (freeBtreePagesInner geom encoding payload maxPagesVisited root ⟨0, disk⟩).map Sweep.disk

end FreeBtree

namespace Page

variable {ρ κ : Type}

def isTree : Page ρ κ → Bool
  | .tableLeaf _ | .tableInterior _ _ | .indexLeaf _ | .indexInterior _ _ => true
  | _ => false

def children : Page ρ κ → List Nat
  | .tableInterior layout rightmost => layout.cells.map Route.child ++ [rightmost]
  | .indexInterior layout rightmost => layout.cells.map IndexRoute.child ++ [rightmost]
  | _ => []

def chains : Page ρ κ → List (List Nat)
  | .tableLeaf layout => layout.cells.map LeafCell.overflow
  | .indexLeaf layout => layout.cells.map IndexEntry.overflow
  | .indexInterior layout _ => layout.cells.map fun route => route.entry.overflow
  | _ => []

def innerEntries : Page ρ κ → List (IndexEntry κ)
  | .indexInterior layout _ => layout.cells.map IndexRoute.entry
  | _ => []

theorem overflow_mem_chains (page : Page ρ κ) :
    ∀ entry ∈ page.innerEntries, entry.overflow ∈ page.chains := by
  cases page with
  | indexInterior layout rightmost =>
    intro entry mem
    obtain ⟨route, held, rfl⟩ := mem_map.mp mem
    exact mem_map.mpr ⟨route, held, rfl⟩
  | _ => exact fun entry mem => nomatch mem

end Page

namespace Disk

variable {ρ κ : Type} {geom : Geometry}

section Owned

/-- A key of the interior page `owner`, and the pages that are free when it is read. -/
structure Reread (κ : Type) where
  freed : List Nat
  owner : Nat
  entry : IndexEntry κ

/-- The pages of the trees with the given roots in the order in which a drop frees them
behind others, and the keys of interior pages that it reads on the way. -/
inductive Owned (disk : Disk ρ κ) : List Nat → List Nat → List Nat → List (Reread κ) → Prop where
  | nil {freed : List Nat} : Owned disk freed [] [] []
  | node {freed rest below order : List Nat} {root : Nat} {innerBelow inner : List (Reread κ)}
      (tree : (disk.pages.content root).isTree = true)
      (linked : ∀ chain ∈ (disk.pages.content root).chains, disk.Linked chain)
      (subtrees : Owned disk (freed ++ (disk.pages.content root).chains.flatten)
        (disk.pages.content root).children below innerBelow)
      (others : Owned disk (freed ++ (disk.pages.content root).chains.flatten ++ below ++ [root])
        rest order inner) :
      Owned disk freed (root :: rest)
        ((disk.pages.content root).chains.flatten ++ (below ++ root :: order))
        ((disk.pages.content root).innerEntries.map
          (Reread.mk (freed ++ (disk.pages.content root).chains.flatten) root) ++ (innerBelow ++ inner))

variable {disk : Disk ρ κ} {freed roots order : List Nat} {inner : List (Reread κ)}

/-- A page that is reached from a root: the root, the pages of its chains, and what its
subtrees reach. -/
inductive Reaches (disk : Disk ρ κ) : Nat → Nat → Prop where
  | root (page : Nat) : Reaches disk page page
  | chain {root page : Nat} (chained : page ∈ (disk.pages.content root).chains.flatten) :
      Reaches disk root page
  | child {root child page : Nat} (subtree : child ∈ (disk.pages.content root).children)
      (below : Reaches disk child page) : Reaches disk root page

theorem Owned.mem_iff (owned : disk.Owned freed roots order inner) (page : Nat) :
    page ∈ order ↔ ∃ root ∈ roots, disk.Reaches root page := by
  induction owned with
  | nil => simp
  | @node freed rest below order root innerBelow inner tree linked subtrees others ihBelow ihOthers =>
    simp only [mem_append, mem_cons, ihBelow, ihOthers]
    constructor
    · rintro (chained | ⟨child, subtree, reached⟩ | rfl | ⟨other, mem, reached⟩)
      · exact ⟨root, .inl rfl, .chain chained⟩
      · exact ⟨root, .inl rfl, .child subtree reached⟩
      · exact ⟨page, .inl rfl, .root page⟩
      · exact ⟨other, .inr mem, reached⟩
    · rintro ⟨other, rfl | mem, reached⟩
      · cases reached with
        | root => exact .inr (.inr (.inl rfl))
        | chain chained => exact .inl chained
        | child subtree below => exact .inr (.inl ⟨_, subtree, below⟩)
      · exact .inr (.inr (.inr ⟨other, mem, reached⟩))

theorem Owned.inner_linked (owned : disk.Owned freed roots order inner) :
    ∀ key ∈ inner, disk.Linked key.entry.overflow := by
  induction owned with
  | nil => exact fun key mem => nomatch mem
  | @node freed rest below order root innerBelow inner tree linked subtrees others ihBelow ihOthers =>
    intro key mem
    rcases mem_append.mp mem with own | other
    · obtain ⟨entry, held, rfl⟩ := mem_map.mp own
      exact linked _ (Page.overflow_mem_chains _ entry held)
    · rcases mem_append.mp other with lower | later
      · exact ihBelow key lower
      · exact ihOthers key later

end Owned

section Sweeping

variable {disk : Disk ρ κ} {encoding : TextEncoding} {payload : κ → Bytes}

theorem freeOverflowChain_eq (owner : Nat) {left visited : Nat} {seen freed chain : List Nat}
    (linked : disk.Linked chain) (nodup : (freed ++ chain).Nodup) (unseen : ∀ page ∈ chain, page ∉ seen)
    (fresh : ∀ page ∈ chain, page ∉ disk.pages.trunkPages) (started : visited ≤ maxPagesVisited)
    (enough : maxPagesVisited < visited + left) :
    Sweep.freeOverflowChain geom owner left seen (chain.headD 0)
      ⟨visited, disk.freeAll geom freed⟩ =
      if visited + chain.length ≤ maxPagesVisited then
        .ok ⟨visited + chain.length, disk.freeAll geom (freed ++ chain)⟩
      else .error .traversalTooLong := by
  induction chain generalizing left visited seen freed with
  | nil =>
    obtain ⟨left, rfl⟩ : ∃ fewer, left = fewer + 1 := ⟨left - 1, by omega⟩
    simp [Sweep.freeOverflowChain, started]
  | cons page rest ih =>
    obtain ⟨left, rfl⟩ : ∃ fewer, left = fewer + 1 := ⟨left - 1, by omega⟩
    obtain ⟨real, link, later⟩ := linked
    obtain ⟨-, chainDistinct, apart⟩ := nodup_append.mp nodup
    rw [headD_cons, Sweep.freeOverflowChain, if_neg real, Sweep.visit]
    by_cases overfull : maxPagesVisited < visited + 1
    · rw [if_pos overfull, if_neg (by simp only [length_cons]; omega)]
      rfl
    have bytes : (disk.freeAll geom freed).bytes page = disk.bytes page :=
      bytes_freeAll_other (fun mem => apart page mem page (.head _) rfl) (fresh page (.head _))
    have moved : (freed ++ [page] ++ rest).Nodup := by rwa [append_assoc]
    rw [if_neg overfull]
    change (if page ∈ seen then _ else Sweep.freeOverflowChain geom owner left (page :: seen)
      (nextPage ((disk.freeAll geom freed).bytes page))
      (Sweep.release geom page ⟨visited + 1, disk.freeAll geom freed⟩)) = _
    have released : Sweep.release geom page ⟨visited + 1, disk.freeAll geom freed⟩ =
        ⟨visited + 1, disk.freeAll geom (freed ++ [page])⟩ := by
      rw [freeAll_append]
      rfl
    have fewer : ∀ other ∈ rest, other ∉ page :: seen := by
      intro other mem seenOther
      rcases mem_cons.mp seenOther with rfl | before
      · exact (nodup_cons.mp chainDistinct).1 mem
      · exact unseen other (.tail _ mem) before
    rw [if_neg (unseen page (.head _)), bytes, link, released, ih later moved fewer
      (fun other mem => fresh other (.tail _ mem)) (by omega) (by omega), append_assoc]
    simp only [length_cons, singleton_append, add_assoc, add_comm 1 rest.length]

theorem freeChains_eq (owner : Nat) {visited : Nat} {freed : List Nat} {chains : List (List Nat)}
    (linked : ∀ chain ∈ chains, disk.Linked chain) (nodup : (freed ++ chains.flatten).Nodup)
    (fresh : ∀ page ∈ chains.flatten, page ∉ disk.pages.trunkPages)
    (started : visited ≤ maxPagesVisited) :
    Sweep.freeChains geom owner chains ⟨visited, disk.freeAll geom freed⟩ =
      if visited + chains.flatten.length ≤ maxPagesVisited then
        .ok ⟨visited + chains.flatten.length, disk.freeAll geom (freed ++ chains.flatten)⟩
      else .error .traversalTooLong := by
  induction chains generalizing visited freed with
  | nil => simp [Sweep.freeChains, started]
  | cons chain rest ih =>
    rw [flatten_cons, ← append_assoc] at nodup
    rw [Sweep.freeChains, freeOverflowChain_eq owner (linked chain (.head _)) (nodup_append.mp nodup).1
      (fun _ _ => not_mem_nil) (fun page mem => fresh page (mem_append_left _ mem)) started (by omega)]
    by_cases fits : visited + chain.length ≤ maxPagesVisited
    · rw [if_pos fits]
      change Sweep.freeChains geom owner rest _ = _
      rw [ih (fun chain mem => linked chain (.tail _ mem)) nodup
        (fun page mem => fresh page (mem_append_right _ mem)) fits]
      simp only [flatten_cons, length_append, append_assoc, add_assoc]
    · rw [if_neg fits, if_neg (by simp only [flatten_cons, length_append]; omega)]
      rfl

theorem mapM_ok_iff {First Second Error : Type} {act : First → Except Error Second}
    {items : List First} :
    (∃ results, items.mapM act = .ok results) ↔ ∀ item ∈ items, (act item).isOk = true := by
  induction items with
  | nil => simp [pure, Except.pure]
  | cons item rest ih =>
    rw [mapM_cons, forall_mem_cons, ← ih]
    cases act item with
    | error failure => simp [bind, Except.bind, Except.isOk, Except.toBool]
    | ok result =>
      cases rest.mapM act <;> simp [bind, Except.bind, pure, Except.pure, Except.isOk, Except.toBool]

theorem freeBtreePagesInner_tree (depth page : Nat) {sweep : Sweep ρ κ} {content : Page ρ κ}
    (held : sweep.disk.pages.content page = content) (tree : content.isTree = true)
    (room : sweep.visited + 1 ≤ maxPagesVisited) :
    freeBtreePagesInner geom encoding payload (depth + 1) page sweep = (do
      let freed ← Sweep.freeChains geom page content.chains
        { sweep with visited := sweep.visited + 1 }
      let _ ← content.innerEntries.mapM (freed.disk.decodeValueCell geom encoding payload page)
      let swept ← content.children.foldlM
        (fun sweep child => freeBtreePagesInner geom encoding payload depth child sweep) freed
      return swept.release geom page) := by
  rw [freeBtreePagesInner, Sweep.visit, if_neg (by omega)]
  simp only [bind, Except.bind, held]
  -- Each kind of page leaves out the parts that it does not have.
  cases content with
  | tableLeaf | tableInterior | indexLeaf => rfl
  | indexInterior layout rightmost =>
    simp only [Page.chains, Page.innerEntries, Page.children]
  | _ => cases tree

/-- What a page is freed by: its chains, then its keys are read, then its subtrees. -/
theorem freeBtreePagesInner_iff {depth page visited : Nat} {freed : List Nat} {next : Sweep ρ κ}
    {content : Page ρ κ} (same : disk.pages.content page = content) (outside : page ∉ freed)
    (tree : content.isTree = true) (linked : ∀ chain ∈ content.chains, disk.Linked chain)
    (nodup : (freed ++ content.chains.flatten).Nodup)
    (fresh : ∀ page ∈ content.chains.flatten, page ∉ disk.pages.trunkPages)
    (deep : maxPagesVisited ≤ visited + depth) :
    freeBtreePagesInner geom encoding payload depth page ⟨visited, disk.freeAll geom freed⟩ =
        .ok next ↔
      visited + 1 + content.chains.flatten.length ≤ maxPagesVisited ∧
      (∀ entry ∈ content.innerEntries, ((disk.freeAll geom
        (freed ++ content.chains.flatten)).decodeValueCell geom encoding payload page entry).isOk) ∧
      ∃ swept, content.children.foldlM
        (fun sweep child => freeBtreePagesInner geom encoding payload (depth - 1) child sweep)
        (⟨visited + 1 + content.chains.flatten.length,
          disk.freeAll geom (freed ++ content.chains.flatten)⟩ : Sweep ρ κ) = .ok swept ∧
      next = swept.release geom page := by
  by_cases room : visited + 1 ≤ maxPagesVisited
  · obtain ⟨lower, rfl⟩ : ∃ lower, depth = lower + 1 := ⟨depth - 1, by omega⟩
    rw [freeBtreePagesInner_tree lower page ((freeAll_other outside).trans same) tree room,
      freeChains_eq page linked nodup fresh room, bind_ok_iff, ← mapM_ok_iff]
    split
    · rename_i fits
      simp only [fits, true_and, bind_ok_iff, Except.ok.injEq, exists_eq_left', pure, Except.pure,
        exists_and_right, add_tsub_cancel_right, eq_comm (a := next)]
    · rename_i overfull
      simp only [overfull, false_and, reduceCtorEq, exists_false]
  · constructor
    · intro done
      cases depth with
      | zero => cases done
      | succ lower =>
        rw [freeBtreePagesInner, Sweep.visit, if_pos (by simp only; omega)] at done
        cases done
    · rintro ⟨fits, -⟩
      omega

variable {freed roots order : List Nat} {inner : List (Reread κ)}

theorem Owned.sweep_iff (owned : disk.Owned freed roots order inner) {visited depth : Nat}
    {next : Sweep ρ κ} (nodup : (freed ++ order).Nodup)
    (fresh : ∀ page ∈ order, page ∉ disk.pages.trunkPages) (started : visited ≤ maxPagesVisited)
    (deep : maxPagesVisited ≤ visited + depth) :
    roots.foldlM (fun sweep root => freeBtreePagesInner geom encoding payload depth root sweep)
        (⟨visited, disk.freeAll geom freed⟩ : Sweep ρ κ) = .ok next ↔
      visited + order.length ≤ maxPagesVisited ∧
      (∀ key ∈ inner, ((disk.freeAll geom key.freed).decodeValueCell geom encoding payload
        key.owner key.entry).isOk) ∧
      next = ⟨visited + order.length, disk.freeAll geom (freed ++ order)⟩ := by
  -- The budget counts pages over the whole sweep, so `visited` runs from root to root.
  induction owned generalizing visited depth next with
  | nil =>
    rw [append_nil]
    constructor
    · intro done
      cases done
      exact ⟨started, by simp, rfl⟩
    · rintro ⟨-, -, rfl⟩
      rfl
  | @node freed rest below order root innerBelow inner tree linked subtrees others ihBelow ihOthers =>
    generalize chained : (disk.pages.content root).chains.flatten = chain at *
    have parts : freed ++ (chain ++ (below ++ root :: order)) =
        freed ++ chain ++ below ++ [root] ++ order := by simp
    rw [parts] at nodup ⊢
    have distinct := (nodup_append.mp nodup).1
    have lowerDistinct := (nodup_append.mp distinct).1
    have outside : root ∉ freed := fun mem =>
      (nodup_append.mp distinct).2.2 root (by simp [mem]) root (.head _) rfl
    have step (middle : Sweep ρ κ) := @freeBtreePagesInner_iff ρ κ geom disk encoding payload
      depth root visited freed middle _ rfl outside tree linked
      (by rw [chained]; exact (nodup_append.mp lowerDistinct).1)
      (by rw [chained]; exact fun page mem => fresh page (by simp [mem])) deep
    rw [chained] at step
    have release (count : Nat) : Sweep.release geom root
        ⟨count, disk.freeAll geom (freed ++ chain ++ below)⟩ =
          ⟨count, disk.freeAll geom (freed ++ chain ++ below ++ [root])⟩ := by
      rw [freeAll_append _ [root]]
      rfl
    simp only [length_append, length_cons, forall_mem_append, forall_mem_map]
    rw [foldlM_cons, bind_ok_iff]
    constructor
    · rintro ⟨middle, first, later⟩
      obtain ⟨fits, keys, swept, lower, rfl⟩ := (step middle).mp first
      obtain ⟨budget, lowerKeys, rfl⟩ := (ihBelow lowerDistinct
        (fun page mem => fresh page (by simp [mem])) fits (by omega)).mp lower
      rw [release] at later
      obtain ⟨all, laterKeys, rfl⟩ := (ihOthers nodup (fun page mem => fresh page (by simp [mem]))
        (by omega) (by omega)).mp later
      refine ⟨by omega, ⟨keys, lowerKeys, laterKeys⟩, ?_⟩
      congr 1
      omega
    · rintro ⟨budget, ⟨keys, lowerKeys, laterKeys⟩, rfl⟩
      have lower := (@ihBelow (visited + 1 + chain.length) (depth - 1) _ lowerDistinct
        (fun page mem => fresh page (by simp [mem])) (by omega) (by omega)).mpr
          ⟨by omega, lowerKeys, rfl⟩
      refine ⟨_, (step _).mpr ⟨by omega, keys, _, lower, rfl⟩, ?_⟩
      rw [release]
      refine (ihOthers nodup (fun page mem => fresh page (by simp [mem])) (by omega)
        (by omega)).mpr ⟨by omega, laterKeys, ?_⟩
      congr 1
      omega

end Sweeping

end Disk

/-- A drop succeeds, and then frees the pages that the root reaches, each once, exactly
when they are not too many to visit and each key of an interior index page is still a
record when it is read from the freed pages. It is read as it was when none of its chain
pages has become a trunk of the free list. -/
theorem free_btree_pages_exact_iff {ρ κ : Type} (geom : Geometry) (encoding : TextEncoding)
    (payload : κ → Bytes) (disk : Disk ρ κ) (root : Nat) (order : List Nat)
    (inner : List (Disk.Reread κ)) (owned : disk.Owned [] [root] order inner)
    (distinct : (order ++ disk.pages.freePages).Nodup) :
    ((∃ next, freeBtreePages geom encoding payload root disk = .ok next ∧
        next.pages.freePages.Nodup ∧
        ∀ page, page ∈ next.pages.freePages ↔ page ∈ disk.pages.freePages ∨ disk.Reaches root page) ↔
      order.length ≤ maxPagesVisited ∧ ∀ key ∈ inner,
        ((disk.freeAll geom key.freed).decodeValueCell geom encoding payload
          key.owner key.entry).isOk = true) ∧
    ∀ key ∈ inner,
      (∀ page ∈ key.entry.overflow, page ∉ (disk.freeAll geom key.freed).pages.trunkPages) →
      (disk.freeAll geom key.freed).decodeValueCell geom encoding payload key.owner key.entry =
        disk.decodeValueCell geom encoding payload key.owner key.entry := by
  obtain ⟨orderDistinct, -, apart⟩ := nodup_append.mp distinct
  have fresh : ∀ page ∈ order, page ∉ disk.pages.trunkPages :=
    fun page member listed => apart page member page (trunkPages_subset page listed) rfl
  have swept (last : Sweep ρ κ) :
      freeBtreePagesInner geom encoding payload maxPagesVisited root ⟨0, disk⟩ = .ok last ↔
        order.length ≤ maxPagesVisited ∧ (∀ key ∈ inner, ((disk.freeAll geom
          key.freed).decodeValueCell geom encoding payload key.owner key.entry).isOk) ∧
        last = ⟨order.length, disk.freeAll geom order⟩ := by
    have whole := @Disk.Owned.sweep_iff ρ κ geom disk encoding payload [] [root]
      order inner owned 0 maxPagesVisited last orderDistinct fresh (zero_le _) (by omega)
    simp only [zero_add, nil_append, foldlM_cons, foldlM_nil, bind_pure] at whole
    exact whole
  refine ⟨⟨?_, ?_⟩, ?_⟩
  · rintro ⟨next, done, -⟩
    rw [freeBtreePages] at done
    cases last : freeBtreePagesInner geom encoding payload maxPagesVisited root
        (⟨0, disk⟩ : Sweep ρ κ) with
    | error failure =>
      rw [last] at done
      cases done
    | ok sweep =>
      obtain ⟨budget, keys, -⟩ := (swept sweep).mp last
      exact ⟨budget, keys⟩
  · rintro ⟨budget, keys⟩
    have freed := @Disk.freePages_freeAll ρ κ geom disk order
    refine ⟨disk.freeAll geom order, ?_, freed.nodup_iff.mpr distinct, ?_⟩
    · rw [freeBtreePages, (swept _).mpr ⟨budget, keys, rfl⟩]
      rfl
    intro page
    rw [freed.mem_iff, mem_append, owned.mem_iff]
    simp only [mem_singleton, exists_eq_left]
    exact or_comm
  · intro key mem off
    exact Disk.decodeValueCell_congr (owned.inner_linked key mem)
      fun page chained => Disk.bytes_freeAll (off page chained)

/-- The record of an indexed value and a rowid. -/
def keyRecord (value : Value) : Bytes := (encodeRecordInto 2 .utf8 [value, .integer 5]).getD []

/-- A chain page: the number of the next one, then its part of what is left. -/
def chainBytes : List Nat → Bytes → Nat → Bytes
  | [], _, _ => zeros 512
  | page :: rest, left, asked =>
    if asked = page then be32Bytes (.ofNat (rest.headD 0)) ++ left.take 508 ++ zeros (508 - left.length)
    else chainBytes rest (left.drop 508) asked

def longEntry (length : Nat) (overflow : List Nat) : IndexEntry Bytes :=
  let key := keyRecord (.blob (replicate length 7))
  { key, length := key.length, overflow }

/-- An index at page 2 on an empty free list, with a long blob on its root between the keys
of two leaves. -/
def longRootKey (length : Nat) (chain : List Nat) : Disk Unit Bytes where
  pages := ((({ content := fun _ => .blank, count := 7 } : Pages Unit Bytes).writeIndexLeafPage
    smallPages 3 [{ key := keyRecord (.integer 1), length := 4 }]).writeIndexLeafPage smallPages 6
      [{ key := keyRecord (.blob [9]), length := 5 }]).writeIndexInteriorPage smallPages 2
        [{ child := 3, entry := longEntry length chain }] 6
  bytes := chainBytes chain
    ((longEntry length chain).key.drop
      (smallPages.localPayloadSize (longEntry length chain).length true))

theorem longRootKey_owned (length : Nat) {chain : List Nat}
    (linked : (longRootKey length chain).Linked chain) :
    (longRootKey length chain).Owned [] [2] (chain ++ [3, 6, 2])
      [⟨chain, 2, longEntry length chain⟩] := by
  have emptyChain : ∀ held ∈ [([] : List Nat)], (longRootKey length chain).Linked held := by
    simp [Disk.Linked]
  have leaf (freed : List Nat) : (longRootKey length chain).Owned freed [6] [6] [] :=
    @Disk.Owned.node _ _ _ freed [] [] [] 6 [] [] rfl emptyChain .nil .nil
  have leaves (freed : List Nat) : (longRootKey length chain).Owned freed [3, 6] [3, 6] [] :=
    @Disk.Owned.node _ _ _ freed [6] [] [6] 3 [] [] rfl emptyChain .nil (leaf _)
  have chains : ((longRootKey length chain).pages.content 2).chains = [chain] := rfl
  have inner : ((longRootKey length chain).pages.content 2).innerEntries =
      [longEntry length chain] := rfl
  have root := @Disk.Owned.node _ _ (longRootKey length chain) [] [] [3, 6] [] 2 [] [] rfl
    (by rw [chains]; exact forall_mem_singleton.mpr linked) (leaves _) .nil
  simpa [chains, inner] using root

/-- A blob that fills one chain page is dropped: the page has become a trunk, but any bytes
make a blob. -/
theorem one_page_blob_dropped : ∃ next,
    freeBtreePages smallPages .utf8 id 2 (longRootKey 300 [4]) = .ok next ∧
      next.pages.freePages.Nodup ∧ ∀ page, page ∈ next.pages.freePages ↔
        page ∈ (longRootKey 300 [4]).pages.freePages ∨ (longRootKey 300 [4]).Reaches 2 page :=
  (free_btree_pages_exact_iff smallPages .utf8 id _ 2 _ _ (@longRootKey_owned 300 [4]
    ⟨by decide, by decide +kernel, trivial⟩) (by decide +kernel)).1.mpr ⟨by decide, by
      simp only [mem_singleton, forall_eq]
      decide +kernel⟩

/-- With two chain pages the first one leads nowhere once it is a trunk. The key could be
read before. -/
theorem two_page_blob_not_dropped :
    (longRootKey 1000 [4, 5]).Owned [] [2] [4, 5, 3, 6, 2] [⟨[4, 5], 2, longEntry 1000 [4, 5]⟩] ∧
    ((longRootKey 1000 [4, 5]).decodeValueCell smallPages .utf8 id 2
      (longEntry 1000 [4, 5])).isOk = true ∧
    (freeBtreePages smallPages .utf8 id 2 (longRootKey 1000 [4, 5])).map (fun _ => ()) =
      .error (.overflowChainTruncated 2) :=
  ⟨@longRootKey_owned 1000 [4, 5] ⟨by decide, by decide +kernel, by decide, by decide +kernel, trivial⟩,
    by decide +kernel, by decide +kernel⟩

end SqliteRs
