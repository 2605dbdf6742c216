import Mathlib.Algebra.Order.BigOperators.Group.List
import Mathlib.Data.List.InsertIdx
import Mathlib.Data.List.Sort
import Mathlib.Order.Interval.Finset.Nat
import Mathlib.Tactic.Linarith

/-!
Where a b-tree page keeps its cells. An array of two-byte cell pointers follows
the page header, and cells fill the page from its end. A page is rebuilt from
scratch, or one cell is spliced in below the others or spliced out, which may
leave a free block behind. A layout is sound when pointers, cells and free
blocks share no byte and stay inside the page.
-/

namespace SqliteRs

open List Nat

/-- Cells with their offsets in pointer order, the start of the content area, and
free blocks as offset and size. -/
structure Layout (α : Type) where
  slots : List (Nat × α)
  contentStart : Nat
  freeblocks : List (Nat × Nat) := []
  fragmented : Nat := 0

def Apart (first second : Nat × Nat) : Prop :=
  first.1 + first.2 ≤ second.1 ∨ second.1 + second.2 ≤ first.1

theorem Apart.symm {first second : Nat × Nat} (apart : Apart first second) : Apart second first :=
  Or.symm apart

/-- Non-empty byte ranges between two offsets, no two with a common byte. -/
structure Packed (low high : Nat) (ranges : List (Nat × Nat)) : Prop where
  filled : ∀ range ∈ ranges, 0 < range.2
  inside : ∀ range ∈ ranges, low ≤ range.1 ∧ range.1 + range.2 ≤ high
  apart : ranges.Pairwise Apart

namespace Packed

variable {low high : Nat} {ranges others : List (Nat × Nat)}

section

variable (packed : Packed low high ranges)

include packed

theorem perm (same : ranges.Perm others) :
    Packed low high others where
  filled range mem := packed.filled range (same.mem_iff.mpr mem)
  inside range mem := packed.inside range (same.mem_iff.mpr mem)
  apart := (same.pairwise_iff fun held => Apart.symm held).mp packed.apart

theorem sublist (less : others.Sublist ranges) :
    Packed low high others where
  filled range mem := packed.filled range (less.subset mem)
  inside range mem := packed.inside range (less.subset mem)
  apart := packed.apart.sublist less

theorem raise {start : Nat}
    (above : ∀ range ∈ ranges, start ≤ range.1) : Packed start high ranges where
  filled := packed.filled
  inside range mem := ⟨above range mem, (packed.inside range mem).2⟩
  apart := packed.apart

theorem below {start : Nat} (positive : start < low)
    (bound : low ≤ high) : Packed start high ((start, low - start) :: ranges) where
  filled range mem := by
    rcases mem_cons.mp mem with rfl | old
    · exact Nat.sub_pos_of_lt positive
    · exact packed.filled range old
  inside range mem := by
    rcases mem_cons.mp mem with rfl | old
    · simp only
      omega
    · have bounds := packed.inside range old
      omega
  apart := by
    refine pairwise_cons.mpr ⟨fun range old => ?_, packed.apart⟩
    have bounds := packed.inside range old
    left
    omega

end

theorem merge {start first second : Nat}
    (packed : Packed low high ((start, first) :: (start + first, second) :: ranges)) :
    Packed low high ((start, first + second) :: ranges) := by
  have one := packed.inside (start, first) (.head _)
  have two := packed.inside (start + first, second) (.tail _ (.head _))
  have some := packed.filled (start, first) (.head _)
  obtain ⟨lower, rest⟩ := pairwise_cons.mp packed.apart
  obtain ⟨upper, others⟩ := pairwise_cons.mp rest
  constructor
  · intro range mem
    rcases mem_cons.mp mem with rfl | old
    · simp only at some ⊢
      omega
    · exact packed.filled range (.tail _ (.tail _ old))
  · intro range mem
    rcases mem_cons.mp mem with rfl | old
    · simp only at one two ⊢
      omega
    · exact packed.inside range (.tail _ (.tail _ old))
  · refine pairwise_cons.mpr ⟨fun range old => ?_, others⟩
    have nonempty := packed.filled range (.tail _ (.tail _ old))
    have left := lower range (.tail _ old)
    have right := upper range old
    simp only [Apart] at left right ⊢
    omega

def covered : List (Nat × Nat) → Finset Nat
  | [] => ∅
  | range :: rest => Finset.Ico range.1 (range.1 + range.2) ∪ covered rest

theorem mem_covered {ranges : List (Nat × Nat)} {off : Nat} (mem : off ∈ covered ranges) :
    ∃ range ∈ ranges, range.1 ≤ off ∧ off < range.1 + range.2 := by
  induction ranges with
  | nil => cases mem
  | cons range rest ih =>
    rcases Finset.mem_union.mp mem with here | later
    · exact ⟨range, .head _, Finset.mem_Ico.mp here⟩
    · obtain ⟨other, inside, bounds⟩ := ih later
      exact ⟨other, .tail _ inside, bounds⟩

theorem card_covered (apart : ranges.Pairwise Apart) :
    (covered ranges).card = (ranges.map Prod.snd).sum := by
  induction ranges with
  | nil => rfl
  | cons range rest ih =>
    obtain ⟨clear, others⟩ := pairwise_cons.mp apart
    have disjoint : Disjoint (Finset.Ico range.1 (range.1 + range.2)) (covered rest) := by
      apply Finset.disjoint_left.mpr
      intro off here later
      obtain ⟨other, inside, bounds⟩ := mem_covered later
      have gap := clear other inside
      have mine := Finset.mem_Ico.mp here
      simp only [Apart] at gap
      omega
    rw [covered, Finset.card_union_of_disjoint disjoint, card_Ico, ih others, map_cons, sum_cons]
    omega

theorem total (packed : Packed low high ranges) : (ranges.map Prod.snd).sum ≤ high - low := by
  rw [← card_covered packed.apart, ← card_Ico]
  apply Finset.card_le_card
  intro off mem
  obtain ⟨range, inside, bounds⟩ := mem_covered mem
  have limits := packed.inside range inside
  exact Finset.mem_Ico.mpr (by omega)

end Packed

variable {α : Type} (size : α → Nat)

def cellBytes (cells : List α) : Nat := (cells.map size).sum

/-- Cells of these sizes, and a pointer for each, fit between two offsets. -/
def Fits (base limit : Nat) (sizes : List Nat) : Prop := base + 2 * sizes.length + sizes.sum ≤ limit

instance (base limit : Nat) (sizes : List Nat) : Decidable (Fits base limit sizes) :=
  inferInstanceAs (Decidable (_ ≤ _))

section Split

/-- The half of a split list that takes the new cell fits its page. The split
keeps the cells before the cut on the left and skips those it promotes. -/
def SplitFits (leftBase rightBase limit position cut skip : Nat) (sizes : List Nat) : Prop :=
  (position < cut → Fits leftBase limit (sizes.take cut)) ∧
    (cut + skip ≤ position → Fits rightBase limit (sizes.drop (cut + skip)))

variable {sizes : List Nat} {pos leftBase rightBase cut skip new : Nat}

theorem Fits.sublist {base base' limit : Nat} {others : List Nat} (fits : Fits base limit sizes)
    (less : others.Sublist sizes) (earlier : base' ≤ base) : Fits base' limit others := by
  have count := less.length_le
  have bytes : others.sum ≤ sizes.sum := less.sum_le_sum fun _ _ => zero_le _
  unfold Fits at fits ⊢
  omega

theorem insertIdx_split (list : List α) (pos : Nat) (new : α) (bound : pos ≤ list.length) :
    list.insertIdx pos new = list.take pos ++ new :: list.drop pos := by
  induction pos generalizing list with
  | zero => rfl
  | succ pos ih =>
    cases list with
    | nil => cases bound
    | cons first rest =>
      rw [insertIdx_succ_cons, ih rest (le_of_succ_le_succ bound)]
      rfl

section Edit

variable {test : α → Prop} {image : α → List α} {edit : List α → Option (List α)} {items new : List α}

/-- The items of `image` take the place of the first item that meets `test`. -/
structure EditsFirst (test : α → Prop) (image : α → List α) (edit : List α → Option (List α)) :
    Prop where
  nil : edit [] = none
  here : ∀ {item} rest, test item → edit (item :: rest) = some (image item ++ rest)
  later : ∀ {item} rest, ¬ test item → edit (item :: rest) = (edit rest).map (item :: ·)

theorem EditsFirst.none_iff (edits : EditsFirst test image edit) :
    edit items = none ↔ ∀ item ∈ items, ¬ test item := by
  induction items with
  | nil => simp [edits.nil]
  | cons item rest ih =>
    by_cases met : test item
    · simp [edits.here rest met, met]
    · simp [edits.later rest met, met, ih]

theorem EditsFirst.at (edits : EditsFirst test image edit) {front : List α} {item : α}
    (first : ∀ other ∈ front, ¬ test other) (met : test item) (back : List α) :
    edit (front ++ item :: back) = some (front ++ (image item ++ back)) := by
  induction front with
  | nil => exact edits.here back met
  | cons other front ih =>
    rw [forall_mem_cons] at first
    rw [cons_append, edits.later _ first.1, ih first.2]
    rfl

theorem EditsFirst.split (edits : EditsFirst test image edit) (done : edit items = some new) :
    ∃ front item back, items = front ++ item :: back ∧ (∀ other ∈ front, ¬ test other) ∧
      test item ∧ new = front ++ (image item ++ back) := by
  induction items generalizing new with
  | nil =>
    rw [edits.nil] at done
    cases done
  | cons item rest ih =>
    by_cases met : test item
    · rw [edits.here rest met] at done
      cases done
      exact ⟨[], item, rest, rfl, by simp, met, rfl⟩
    · rw [edits.later rest met] at done
      obtain ⟨later, found, rfl⟩ := Option.map_eq_some_iff.mp done
      obtain ⟨front, other, back, rfl, first, held, rfl⟩ := ih found
      exact ⟨item :: front, other, back, rfl, forall_mem_cons.mpr ⟨met, first⟩, held, rfl⟩

end Edit

theorem drop_insertIdx {list : List α} {count : Nat} (new : α) (bound : pos ≤ list.length)
    (later : pos < count) : (list.insertIdx pos new).drop count = list.drop (count - 1) := by
  obtain ⟨extra, rfl⟩ := Nat.exists_eq_add_of_lt later
  rw [insertIdx_split _ _ _ bound, drop_append, length_take, min_eq_left bound,
    drop_eq_nil_of_le (by rw [length_take]; omega),
    show pos + extra + 1 - pos = extra + 1 by omega, drop_succ_cons, drop_drop]
  rfl

theorem halves_fit {limit : Nat} (fits : Fits leftBase limit sizes)
    (bound : pos ≤ sizes.length) (earlier : rightBase ≤ leftBase)
    (split : SplitFits leftBase rightBase limit pos cut skip (sizes.insertIdx pos new)) :
    Fits leftBase limit ((sizes.insertIdx pos new).take cut) ∧
      Fits rightBase limit ((sizes.insertIdx pos new).drop (cut + skip)) := by
  constructor
  · by_cases inside : pos < cut
    · exact split.1 inside
    · rw [take_insertIdx_eq_take_of_le _ _ _ _ (Nat.le_of_not_lt inside)]
      exact fits.sublist (take_sublist _ _) (le_refl _)
  · by_cases inside : cut + skip ≤ pos
    · exact split.2 inside
    · rw [drop_insertIdx _ bound (Nat.lt_of_not_le inside)]
      exact fits.sublist (drop_sublist _ _) earlier

theorem splitFits_of_small {limit least : Nat} (fits : Fits leftBase limit sizes)
    (bound : pos ≤ sizes.length) (earlier : rightBase ≤ leftBase)
    (inside : cut ≤ sizes.length + 1) (atLeast : ∀ size ∈ sizes, least ≤ size)
    (left : new + 2 ≤ (least + 2) * (sizes.length + 1 - cut))
    (right : new + 2 ≤ (least + 2) * (cut + skip)) :
    SplitFits leftBase rightBase limit pos cut skip (sizes.insertIdx pos new) := by
  have whole : (sizes.insertIdx pos new).sum = new + sizes.sum :=
    (perm_insertIdx new sizes bound).sum_eq
  have length : (sizes.insertIdx pos new).length = sizes.length + 1 :=
    length_insertIdx_of_le_length bound new
  rw [add_mul] at left right
  unfold Fits at fits
  constructor
  · intro before
    have parts := sum_take_add_sum_drop (sizes.insertIdx pos new) cut
    rw [drop_insertIdx new bound before] at parts
    -- What stays behind the cut makes room for the new cell.
    have behind := card_nsmul_le_sum (sizes.drop (cut - 1)) least
      fun size mem => atLeast size (mem_of_mem_drop mem)
    rw [length_drop, nsmul_eq_mul, cast_id, mul_comm,
      show sizes.length - (cut - 1) = sizes.length + 1 - cut by omega] at behind
    rw [Fits, length_take]
    omega
  · intro after
    have parts := sum_take_add_sum_drop (sizes.insertIdx pos new) (cut + skip)
    rw [take_insertIdx_eq_take_of_le _ _ _ _ after] at parts
    have ahead := card_nsmul_le_sum (sizes.take (cut + skip)) least
      fun size mem => atLeast size (mem_of_mem_take mem)
    rw [length_take, nsmul_eq_mul, cast_id, mul_comm, min_eq_left (after.trans bound)] at ahead
    rw [Fits, length_drop]
    omega

end Split

namespace Layout

def cells (layout : Layout α) : List α := layout.slots.map Prod.snd

def ranges (layout : Layout α) : List (Nat × Nat) :=
  (layout.slots.map fun slot => (slot.1, size slot.2)) ++ layout.freeblocks

/-- Soundness between the first byte after the page header and the end of the usable area. -/
structure Sound (base limit : Nat) (layout : Layout α) : Prop where
  pointers : base + 2 * layout.slots.length ≤ layout.contentStart
  content : layout.contentStart ≤ limit
  packed : Packed layout.contentStart limit (layout.ranges size)

/-- Lays out cells from the end of the page on, the last one first. -/
def placeCells (pageLen : Nat) : List α → Nat × List (Nat × α)
  | [] => (pageLen, [])
  | cell :: rest =>
    let below := placeCells pageLen rest
    -- The source subtracts with saturation, so cells that do not fit pile up at offset 0.
    (below.1 - size cell, (below.1 - size cell, cell) :: below.2)

def writePageCommon (pageLen : Nat) (cells : List α) : Layout α where
  slots := (placeCells size pageLen cells).2
  contentStart := (placeCells size pageLen cells).1

def pointerEnd (base : Nat) (layout : Layout α) : Nat := base + 2 * layout.slots.length

def spliceInsertCell (base : Nat) (layout : Layout α) (index : Nat) (cell : α) :
    Option (Layout α) :=
  if layout.contentStart < layout.pointerEnd base ∨
      layout.contentStart - layout.pointerEnd base < size cell + 2 then none
  else
    some { layout with
      slots := layout.slots.insertIdx index (layout.contentStart - size cell, cell)
      contentStart := layout.contentStart - size cell }

/-- Gives free blocks that begin where the content area does back to the gap. -/
def absorbBlocks : Nat → Nat → List (Nat × Nat) → Nat × List (Nat × Nat)
  | 0, start, blocks => (start, blocks)
  | fuel + 1, start, blocks =>
    match blocks.find? fun block => block.1 == start with
    | none => (start, blocks)
    | some block =>
      absorbBlocks fuel (start + block.2) (blocks.erase block)

/-- Joins a freed range with the block before it, if that block ends where it begins. -/
def joinPrevious (before : List (Nat × Nat)) (start length : Nat) :
    List (Nat × Nat) × Nat × Nat :=
  match before.getLast? with
  | some previous =>
    if previous.1 + previous.2 = start then (before.dropLast, previous.1, length + previous.2)
    else (before, start, length)
  | none => (before, start, length)

/-- Joins a freed range with the block after it, if that block begins where it ends. -/
def joinNext (start length : Nat) : List (Nat × Nat) → List (Nat × Nat)
  | [] => [(start, length)]
  | next :: rest =>
    if start + length = next.1 then (start, length + next.2) :: rest
    else (start, length) :: next :: rest

def addFreeblock (blocks : List (Nat × Nat)) (start length : Nat) : List (Nat × Nat) :=
  let joined := joinPrevious (blocks.takeWhile fun block => decide (block.1 < start)) start length
  joined.1 ++ joinNext joined.2.1 joined.2.2
    (blocks.dropWhile fun block => decide (block.1 < start))

def minFreeblockSize : Nat := 4

/-- Takes a cell out and returns its bytes to the gap, the chain of free blocks
or the count of fragmented bytes. -/
def spliceDeleteCell (layout : Layout α) (index : Nat) : Option (Layout α) :=
  match layout.slots[index]? with
  | none => none
  | some (start, cell) =>
    let slots := layout.slots.eraseIdx index
    if start = layout.contentStart then
      let (contentStart, freeblocks) :=
        absorbBlocks layout.freeblocks.length (start + size cell) layout.freeblocks
      some { layout with slots, contentStart, freeblocks }
    else if size cell < minFreeblockSize then
      some { layout with slots, fragmented := min 255 (layout.fragmented + size cell) }
    else
      some { layout with slots, freeblocks := addFreeblock layout.freeblocks start (size cell) }

section Rebuild

theorem placeCells_start (pageLen : Nat) (cells : List α) :
    (placeCells size pageLen cells).1 = pageLen - cellBytes size cells := by
  induction cells with
  | nil => rfl
  | cons cell rest ih =>
    simp only [placeCells, cellBytes, map_cons, sum_cons] at ih ⊢
    omega

theorem placeCells_cells (pageLen : Nat) (cells : List α) :
    (placeCells size pageLen cells).2.map Prod.snd = cells := by
  induction cells with
  | nil => rfl
  | cons cell rest ih => rw [placeCells, map_cons, ih]

@[simp] theorem writePageCommon_cells (pageLen : Nat) (cells : List α) :
    (writePageCommon size pageLen cells).cells = cells := placeCells_cells size pageLen cells

theorem placeCells_packed (positive : ∀ cell, 0 < size cell) (pageLen : Nat) (cells : List α)
    (fits : cellBytes size cells ≤ pageLen) : Packed (placeCells size pageLen cells).1 pageLen
      ((placeCells size pageLen cells).2.map fun slot => (slot.1, size slot.2)) := by
  induction cells with
  | nil => exact ⟨by simp [placeCells], by simp [placeCells], by simp [placeCells]⟩
  | cons cell rest ih =>
    have total : cellBytes size (cell :: rest) = size cell + cellBytes size rest := rfl
    have start := placeCells_start size pageLen rest
    have room := positive cell
    -- The new cell ends where the cells placed before it begin.
    have joined := (ih (by omega)).below 
      (show (placeCells size pageLen rest).1 - size cell < _ by omega) (by omega)
    rw [show (placeCells size pageLen rest).1 - ((placeCells size pageLen rest).1 - size cell) =
      size cell by omega] at joined
    exact joined

theorem writePageCommon_sound_iff {base pageLen : Nat} (hdr : 0 < base)
    (positive : ∀ cell, 0 < size cell) (cells : List α) :
    (writePageCommon size pageLen cells).Sound size base pageLen ↔
      Fits base pageLen (cells.map size) := by
  rw [Fits, length_map]
  have slots : (placeCells size pageLen cells).2.length = cells.length := by
    rw [← length_map Prod.snd, placeCells_cells]
  have start := placeCells_start size pageLen cells
  constructor
  · intro sound
    have pointers := sound.pointers
    simp only [writePageCommon, cellBytes] at pointers start
    omega
  intro fits
  have total : cellBytes size cells = (cells.map size).sum := rfl
  constructor
  · simp only [writePageCommon]
    omega
  · simp only [writePageCommon]
    omega
  · have packed := placeCells_packed size positive pageLen cells (by omega)
    rw [← append_nil (List.map _ _)] at packed
    exact packed

theorem Sound.fits {size : α → Nat} {base limit : Nat} {layout : Layout α}
    (sound : layout.Sound size base limit) : Fits base limit (layout.cells.map size) := by
  have bytes : (layout.cells.map size).sum ≤ ((layout.ranges size).map Prod.snd).sum := by
    rw [ranges, cells, map_append, List.sum_append, map_map, map_map]
    exact le_add_right _ _
  have count : (layout.cells.map size).length = layout.slots.length := by
    rw [length_map, cells, length_map]
  have total := sound.packed.total
  have pointers := sound.pointers
  have content := sound.content
  unfold Fits
  omega

end Rebuild

section Splice

variable {size} {layout next : Layout α} {base limit : Nat}

theorem ranges_insertIdx (size : α → Nat) (slot : Nat × α) (index : Nat)
    (bound : index ≤ layout.slots.length)
    (start : Nat) :
    (ranges size { layout with
      slots := layout.slots.insertIdx index slot, contentStart := start }).Perm
        ((slot.1, size slot.2) :: layout.ranges size) := by
  have placed : (layout.slots.insertIdx index slot).Perm (slot :: layout.slots) :=
    perm_insertIdx slot layout.slots bound
  exact (placed.map fun slot => (slot.1, size slot.2)).append_right layout.freeblocks

variable {index : Nat} {cell : α} {blocks : List (Nat × Nat)}

theorem Sound.spliceInsertCell (sound : layout.Sound size base limit) (positive : 0 < size cell)
    (bound : index ≤ layout.slots.length)
    (done : spliceInsertCell size base layout index cell = some next) : next.Sound size base limit := by
  unfold Layout.spliceInsertCell pointerEnd at done
  split at done
  · cases done
  rename_i room
  cases done
  have content := sound.content
  constructor
  · rw [length_insertIdx_of_le_length bound]
    simp only
    omega
  · simp only
    omega
  · have joined := sound.packed.below (show layout.contentStart - size cell < _ by omega) content
    rw [show layout.contentStart - (layout.contentStart - size cell) = size cell by omega]
      at joined
    exact joined.perm (ranges_insertIdx size (layout.contentStart - size cell, cell)
      index bound _).symm

theorem spliceInsertCell_cells (done : spliceInsertCell size base layout index cell = some next) :
    next.cells = layout.cells.insertIdx index cell := by
  unfold Layout.spliceInsertCell at done
  split at done
  · cases done
  · cases done
    exact map_insertIdx ..

theorem ranges_eraseIdx (size : α → Nat) {start : Nat}
    (here : layout.slots[index]? = some (start, cell)) :
    (layout.ranges size).Perm ((start, size cell) ::
      ((layout.slots.eraseIdx index).map (fun slot => (slot.1, size slot.2)) ++
        layout.freeblocks)) := by
  obtain ⟨bound, found⟩ := List.getElem?_eq_some_iff.mp here
  have taken : (layout.slots[index] :: layout.slots.eraseIdx index).Perm layout.slots :=
    getElem_cons_eraseIdx_perm bound
  rw [found] at taken
  exact ((taken.map fun slot => (slot.1, size slot.2)).append_right layout.freeblocks).symm

theorem absorbBlocks_packed {low : Nat} (others : List (Nat × Nat)) (fuel : Nat) {start : Nat}
    (packed : Packed low limit (others ++ blocks))
    (above : ∀ range ∈ others ++ blocks, start ≤ range.1) (bound : start ≤ limit) :
    start ≤ (absorbBlocks fuel start blocks).1 ∧ (absorbBlocks fuel start blocks).1 ≤ limit ∧
      Packed (absorbBlocks fuel start blocks).1 limit
        (others ++ (absorbBlocks fuel start blocks).2) := by
  induction fuel generalizing start blocks with
  | zero => exact ⟨le_refl _, bound, packed.raise above⟩
  | succ fuel ih =>
    cases sought : blocks.find? fun block => block.1 == start with
    | none =>
      simp only [absorbBlocks, sought]
      exact ⟨le_refl _, bound, packed.raise above⟩
    | some block =>
      simp only [absorbBlocks, sought]
      have off : block.1 = start := by simpa using List.find?_some sought
      have mem : block ∈ blocks := mem_of_find?_eq_some sought
      have front : (others ++ blocks).Perm (block :: (others ++ blocks.erase block)) :=
        ((perm_cons_erase mem).append_left others).trans perm_middle
      have moved := packed.perm front
      have next := moved.inside block (.head _)
      obtain ⟨clear, _⟩ := pairwise_cons.mp moved.apart
      have higher : ∀ range ∈ others ++ blocks.erase block, start + block.2 ≤ range.1 := by
        intro range inside
        have low := above range (front.mem_iff.mpr (.tail _ inside))
        have nonempty := moved.filled range (.tail _ inside)
        have apart := clear range inside
        simp only [Apart] at apart
        omega
      have later := ih (moved.sublist (sublist_cons_self _ _)) higher (by omega)
      exact ⟨by omega, later.2⟩

variable {low high start length : Nat} {others : List (Nat × Nat)}

theorem joinPrevious_packed {before : List (Nat × Nat)}
    (packed : Packed low high ((start, length) :: (before ++ others))) : Packed low high
      ((joinPrevious before start length).2 :: ((joinPrevious before start length).1 ++ others)) := by
  unfold joinPrevious
  cases last : before.getLast? with
  | none => exact packed
  | some previous =>
    simp only
    split
    swap
    · exact packed
    rename_i touches
    have whole := dropLast_append_getLast? previous last
    rw [← whole, append_assoc, ← touches] at packed
    have front : ((previous.1 + previous.2, length) :: (before.dropLast ++ ([previous] ++ others))).Perm
          (previous :: (previous.1 + previous.2, length) :: (before.dropLast ++ others)) :=
      (perm_middle.cons _).trans (List.Perm.swap _ _ _)
    have merged := (packed.perm front).merge
    rwa [add_comm previous.2 length] at merged

theorem joinNext_packed {after : List (Nat × Nat)}
    (packed : Packed low high ((start, length) :: (after ++ others))) :
    Packed low high (joinNext start length after ++ others) := by
  cases after with
  | nil => exact packed
  | cons next rest =>
    simp only [joinNext]
    split
    · rename_i touches
      have same : next = (start + length, next.2) := by rw [touches]
      rw [same] at packed
      exact packed.merge
    · exact packed

theorem addFreeblock_packed (packed : Packed low high ((start, length) :: (blocks ++ others))) :
    Packed low high (addFreeblock blocks start length ++ others) := by
  rw [← takeWhile_append_dropWhile (p := fun block => decide (block.1 < start)) (l := blocks),
    append_assoc] at packed
  have left := joinPrevious_packed packed
  have right := joinNext_packed (left.perm ((perm_append_comm_assoc _ _ _).cons _))
  rw [addFreeblock, append_assoc]
  exact right.perm (perm_append_comm_assoc _ _ _)

theorem Sound.spliceDeleteCell (sound : layout.Sound size base limit)
    (done : spliceDeleteCell size layout index = some next) : next.Sound size base limit := by
  unfold Layout.spliceDeleteCell at done
  cases here : layout.slots[index]? with
  | none =>
    rw [here] at done
    cases done
  | some slot =>
    obtain ⟨start, cell⟩ := slot
    rw [here] at done
    have taken := sound.packed.perm (ranges_eraseIdx size here)
    have rest := taken.sublist (sublist_cons_self _ _)
    have bounds := taken.inside _ (.head _)
    have shorter : (layout.slots.eraseIdx index).length ≤ layout.slots.length :=
      (eraseIdx_sublist _ _).length_le
    have pointers := sound.pointers
    simp only at done bounds
    split at done
    · rename_i first
      cases done
      obtain ⟨clear, _⟩ := pairwise_cons.mp taken.apart
      have above : ∀ range ∈ (layout.slots.eraseIdx index).map
          (fun slot => (slot.1, size slot.2)) ++ layout.freeblocks,
          start + size cell ≤ range.1 := by
        intro range mem
        have nonempty := rest.filled range mem
        have low := rest.inside range mem
        have apart := clear range mem
        simp only [Apart] at apart
        omega
      have absorbed := absorbBlocks_packed _ layout.freeblocks.length rest above bounds.2
      exact ⟨by simp only; omega, absorbed.2.1, absorbed.2.2⟩
    · split at done
      · cases done
        exact ⟨by simp only; omega, sound.content, rest⟩
      cases done
      refine ⟨by simp only; omega, sound.content, ?_⟩
      have moved := taken.perm (perm_append_comm.cons _)
      exact (addFreeblock_packed moved).perm perm_append_comm

theorem spliceDeleteCell_cells (done : spliceDeleteCell size layout index = some next) :
    next.cells = layout.cells.eraseIdx index := by
  unfold Layout.spliceDeleteCell at done
  cases here : layout.slots[index]? with
  | none =>
    rw [here] at done
    cases done
  | some slot =>
    rw [here] at done
    simp only at done
    split at done
    · cases done
      exact (eraseIdx_map ..).symm
    split at done
    all_goals
      cases done
      exact (eraseIdx_map ..).symm

theorem spliceDeleteCell_isSome (bound : index < layout.cells.length) :
    ∃ next, spliceDeleteCell size layout index = some next := by
  rw [cells, length_map] at bound
  unfold Layout.spliceDeleteCell
  rw [List.getElem?_eq_getElem bound]
  simp only
  split
  · exact ⟨_, rfl⟩
  · split <;> exact ⟨_, rfl⟩

end Splice

end Layout

end SqliteRs
