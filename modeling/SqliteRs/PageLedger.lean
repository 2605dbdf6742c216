import SqliteRs.BtreePages

/-!
The page ledger. A new page comes off the free list or is added to the file, and
a freed page goes on the list, so what an operation does with the pages of a tree
is checked by counting: pages in use and free pages against pages of the file. Neither
the free list nor the end of the file offers a page that something still uses.
-/

namespace SqliteRs

open List

/-- A table page that is not a leaf has a route besides its last child. -/
def Page.Branches {ρ κ : Type} : Page ρ κ → Prop
  | .tableInterior layout _ => layout.cells ≠ []
  | _ => True

namespace Pages

variable {ρ κ : Type} {geom : Geometry} {pages next last : Pages ρ κ}
  {used whole more others : List Nat}

def freePages (pages : Pages ρ κ) : List Nat :=
  pages.trunks.flatMap fun (trunk, leaves) => trunk :: leaves

def inFile (pages : Pages ρ κ) (page : Nat) : Nat := if page ≤ pages.count then 1 else 0

/-- What a change took for a tree or gave back came from the free list and the end
of the file or went to the free list. -/
structure Balanced (pages : Pages ρ κ) (used : List Nat) (next : Pages ρ κ) (whole : List Nat) :
    Prop where
  grown : pages.count ≤ next.count
  balance : ∀ page, whole.count page + next.freePages.count page + pages.inFile page =
    used.count page + pages.freePages.count page + next.inFile page

namespace Balanced

theorem refl (pages : Pages ρ κ) (used : List Nat) : pages.Balanced used pages used :=
  ⟨Nat.le_refl _, fun _ => rfl⟩

theorem trans (first : pages.Balanced used next whole) (second : next.Balanced whole last more) :
    pages.Balanced used last more where
  grown := first.grown.trans second.grown
  balance page := by
    have one := first.balance page
    have two := second.balance page
    omega

section

variable (balanced : pages.Balanced used next whole)

include balanced

theorem perm (same : more.Perm whole) : pages.Balanced used next more := by
  constructor
  · exact balanced.grown
  intro page
  rw [same.count_eq]
  exact balanced.balance page

theorem perm_left (same : more.Perm used) : pages.Balanced more next whole := by
  constructor
  · exact balanced.grown
  intro page
  rw [same.count_eq]
  exact balanced.balance page

theorem beside (others : List Nat) : pages.Balanced (used ++ others) next (whole ++ others) := by
  constructor
  · exact balanced.grown
  intro page
  have counted := balanced.balance page
  simp only [count_append]
  omega

theorem set (page : Nat) (content : Page ρ κ) :
    pages.Balanced used (next.set page content) whole := ⟨balanced.grown, balanced.balance⟩

end

end Balanced

theorem balanced_allocatePage (pages : Pages ρ κ) (used : List Nat) :
    pages.Balanced used pages.allocatePage.2 (pages.allocatePage.1 :: used) := by
  unfold allocatePage
  split
  · rename_i none
    constructor
    · exact Nat.le_succ _
    intro page
    simp only [freePages, set, count_cons, inFile, beq_iff_eq]
    split_ifs <;> omega
  · rename_i trunk rest listed
    constructor
    · exact Nat.le_refl _
    intro page
    simp only [freePages, listed, flatMap_cons, count_append, count_cons, count_nil, inFile]
    omega
  · rename_i trunk leaf leaves rest listed
    constructor
    · exact Nat.le_refl _
    intro page
    simp only [freePages, listed, flatMap_cons, count_append, count_cons, inFile]
    omega

variable (page : Nat)

theorem freePages_deallocatePage :
    (deallocatePage geom page pages).freePages.Perm (page :: pages.freePages) := by
  unfold deallocatePage
  split
  · rename_i none
    simp [freePages, none]
  rename_i trunk leaves rest listed
  split
  · simp only [freePages, listed]
    exact List.Perm.swap _ _ _
  · simp [freePages, listed]

theorem count_deallocatePage : (deallocatePage geom page pages).count = pages.count := by
  unfold deallocatePage
  split
  · rfl
  · split <;> rfl

theorem balanced_deallocatePage (pages : Pages ρ κ) (used : List Nat) :
    pages.Balanced (page :: used) (pages.deallocatePage geom page) used := by
  constructor
  · exact (count_deallocatePage page).ge
  intro other
  rw [(freePages_deallocatePage page).count_eq, inFile, inFile, count_deallocatePage]
  simp only [count_cons]
  omega

theorem balanced_allocatePages (count : Nat) (pages : Pages ρ κ) (used : List Nat) :
    pages.Balanced used (pages.allocatePages count).2 ((pages.allocatePages count).1 ++ used) := by
  induction count generalizing pages used with
  | zero => exact Balanced.refl pages used
  | succ count ih =>
    have later := ih pages.allocatePage.2 (pages.allocatePage.1 :: used)
    exact ((balanced_allocatePage pages used).trans later).perm perm_middle.symm

theorem balanced_freeOverflowChain (chain : List Nat) (pages : Pages ρ κ) (used : List Nat) :
    pages.Balanced (chain ++ used) (pages.freeOverflowChain geom chain) used := by
  induction chain generalizing pages with
  | nil => exact Balanced.refl pages used
  | cons page rest ih => exact (balanced_deallocatePage page pages (rest ++ used)).trans (ih _)

def Branching (pages : Pages ρ κ) (used : List Nat) : Prop :=
  ∀ page ∈ used, (pages.content page).Branches

/-- A balanced change of a table that leaves no page with a single child. -/
structure Exchange (pages : Pages ρ κ) (used : List Nat) (next : Pages ρ κ) (whole : List Nat) :
    Prop extends pages.Balanced used next whole where
  branching : pages.Branching used → next.Branching whole

namespace Exchange

theorem trans (first : pages.Exchange used next whole) (second : next.Exchange whole last more) :
    pages.Exchange used last more :=
  ⟨first.toBalanced.trans second.toBalanced, fun held => second.branching (first.branching held)⟩

theorem perm_left (exchange : pages.Exchange used next whole) (same : more.Perm used) :
    pages.Exchange more next whole :=
  ⟨exchange.toBalanced.perm_left same, fun held =>
    exchange.branching fun page mem => held page (same.mem_iff.mpr mem)⟩

theorem of_content (balanced : pages.Balanced used next whole)
    (written : ∀ page ∈ whole, page ∈ used ∧ next.content page = pages.content page ∨
      (next.content page).Branches) : pages.Exchange used next whole := by
  refine ⟨balanced, fun held page mem => ?_⟩
  rcases written page mem with ⟨old, same⟩ | branches
  · rw [same]
    exact held page old
  · exact branches

end Exchange

/-- Free pages in the order they are taken: the pages a trunk lists, then the trunk. -/
def popOrder (pages : Pages ρ κ) : List Nat :=
  pages.trunks.flatMap fun (trunk, leaves) => leaves ++ [trunk]

theorem allocatePages_eq (count : Nat) (pages : Pages ρ κ) :
    (pages.allocatePages count).1 = pages.popOrder.take count ++
      range' (pages.count + 1) (count - pages.popOrder.length) := by
  induction count generalizing pages with
  | zero => simp [allocatePages]
  | succ count ih =>
    rw [allocatePages]
    simp only [allocatePage, ih]
    split
    · rename_i none
      simp [popOrder, set, none, range'_succ]
    · rename_i trunk rest listed
      simp [popOrder, listed]
    · rename_i trunk leaf leaves rest listed
      simp only [popOrder, listed, flatMap_cons, cons_append, take_succ_cons, length_cons,
        Nat.succ_sub_succ]

end Pages


namespace Pages

variable {ρ κ : Type} {geom : Geometry} {pages : Pages ρ κ} {taken : Nat → Prop}

structure Spares (pages : Pages ρ κ) (taken : Nat → Prop) : Prop where
  distinct : pages.freePages.Nodup
  bounded : ∀ page ∈ pages.freePages, page ≤ pages.count
  apart : ∀ page, taken page → page ∉ pages.freePages ∧ page ≤ pages.count

theorem Spares.mono {fewer : Nat → Prop} (spares : pages.Spares taken)
    (less : ∀ page, fewer page → taken page) : pages.Spares fewer :=
  ⟨spares.distinct, spares.bounded, fun page mem => spares.apart page (less page mem)⟩

theorem Spares.set {page : Nat} {content : Page ρ κ} (spares : pages.Spares taken) :
    (pages.set page content).Spares taken := ⟨spares.distinct, spares.bounded, spares.apart⟩

theorem allocatePage_other {page : Nat} (other : page ≠ pages.allocatePage.1) :
    pages.allocatePage.2.content page = pages.content page := by
  unfold allocatePage at other ⊢
  split at other
  · exact (set_content ..).trans (if_neg other)
  · rfl
  · rfl

theorem Spares.allocatePage (spares : pages.Spares taken) : ¬ taken pages.allocatePage.1 ∧
      pages.allocatePage.2.Spares fun page => page = pages.allocatePage.1 ∨ taken page := by
  obtain ⟨nodup, bounded, apart⟩ := spares
  unfold Pages.allocatePage
  split
  · rename_i none
    have empty : pages.freePages = [] := by rw [freePages, none]; rfl
    constructor
    · intro held
      have inside := (apart _ held).2
      omega
    have still : ({ pages.set (pages.count + 1) .blank with count := pages.count + 1 } :
        Pages ρ κ).freePages = [] := empty
    constructor
    · rw [still]
      exact nodup_nil
    · rw [still]
      exact forall_mem_nil _
    intro page mem
    rw [still]
    refine ⟨not_mem_nil, ?_⟩
    rcases mem with rfl | held
    · exact Nat.le_refl _
    · exact Nat.le_succ_of_le (apart page held).2
  · rename_i trunk rest listed
    have whole : pages.freePages = trunk :: ({ pages with trunks := rest } : Pages ρ κ).freePages := by
      rw [freePages, listed]
      rfl
    rw [whole] at nodup bounded apart
    obtain ⟨fresh, others⟩ := nodup_cons.mp nodup
    refine ⟨fun held => (apart trunk held).1 (.head _), others,
      fun page mem => bounded page (.tail _ mem), fun page mem => ?_⟩
    rcases mem with rfl | held
    · exact ⟨fresh, bounded _ (.head _)⟩
    · exact ⟨fun inside => (apart page held).1 (.tail _ inside), (apart page held).2⟩
  · rename_i trunk leaf leaves rest listed
    have whole : pages.freePages.Perm
        (leaf :: ({ pages with trunks := (trunk, leaves) :: rest } : Pages ρ κ).freePages) := by
      rw [freePages, listed]
      exact List.Perm.swap leaf trunk _
    obtain ⟨fresh, others⟩ := nodup_cons.mp (whole.nodup_iff.mp nodup)
    refine ⟨fun held => (apart leaf held).1 (whole.mem_iff.mpr (.head _)), others,
      fun page mem => bounded page (whole.mem_iff.mpr (.tail _ mem)), fun page mem => ?_⟩
    rcases mem with rfl | held
    · exact ⟨fresh, bounded _ (whole.mem_iff.mpr (.head _))⟩
    · exact ⟨fun inside => (apart page held).1 (whole.mem_iff.mpr (.tail _ inside)),
        (apart page held).2⟩

section Counting

variable {next : Pages ρ κ} {used whole : List Nat} {others : Nat → Prop}

theorem Spares.count_le (spares : pages.Spares (· ∈ used)) (nodup : used.Nodup) (page : Nat) :
    used.count page + pages.freePages.count page ≤ pages.inFile page := by
  have once := nodup_iff_count_le_one.mp nodup page
  have free := nodup_iff_count_le_one.mp spares.distinct page
  by_cases inUse : page ∈ used
  · obtain ⟨apart, inside⟩ := spares.apart page inUse
    rw [count_eq_zero.mpr apart, inFile, if_pos inside]
    omega
  rw [count_eq_zero.mpr inUse]
  by_cases listed : page ∈ pages.freePages
  · rw [inFile, if_pos (spares.bounded page listed)]
    omega
  · rw [count_eq_zero.mpr listed]
    omega

theorem Balanced.spares (balanced : pages.Balanced used next whole)
    (spares : pages.Spares fun page => others page ∨ page ∈ used) (nodup : used.Nodup)
    (apart : ∀ page ∈ used, ¬ others page) :
    next.Spares (fun page => others page ∨ page ∈ whole) ∧ ∀ page ∈ whole, ¬ others page := by
  have own : pages.Spares (· ∈ used) := spares.mono fun page mem => .inr mem
  have counted : ∀ page, whole.count page + next.freePages.count page ≤ next.inFile page := by
    intro page
    have before := own.count_le nodup page
    have after := balanced.balance page
    omega
  have inside : ∀ page, 0 < next.inFile page → page ≤ next.count := by
    intro page positive
    unfold inFile at positive
    split at positive
    · assumption
    · cases positive
  have atMost : ∀ page, next.inFile page ≤ 1 := by
    intro page
    unfold inFile
    split <;> omega
  have foreign : ∀ page, others page → whole.count page = 0 ∧ next.freePages.count page = 0 := by
    intro page other
    obtain ⟨notFree, within⟩ := spares.apart page (.inl other)
    have balance := balanced.balance page
    have mine : page ∉ used := fun mem => apart page mem other
    rw [count_eq_zero.mpr notFree, count_eq_zero.mpr mine, inFile, if_pos within] at balance
    have most := atMost page
    omega
  refine ⟨⟨nodup_iff_count_le_one.mpr fun page => ?_, fun page mem => inside page ?_,
    fun page taken => ?_⟩, fun page mem other => ?_⟩
  · have most := atMost page
    have count := counted page
    omega
  · have positive := count_pos_iff.mpr mem
    have count := counted page
    omega
  · rcases taken with other | mem
    · refine ⟨count_eq_zero.mp (foreign page other).2, ?_⟩
      exact (spares.apart page (.inl other)).2.trans balanced.grown
    have positive := count_pos_iff.mpr mem
    have count := counted page
    have most := atMost page
    exact ⟨count_eq_zero.mp (by omega), inside page (by omega)⟩
  · exact (count_pos_iff.mpr mem).ne' (foreign page other).1

end Counting

theorem Spares.allocatePages (count : Nat) {pages : Pages ρ κ} {taken : Nat → Prop}
    (spares : pages.Spares taken) :
    (pages.allocatePages count).1.Nodup ∧ (∀ page ∈ (pages.allocatePages count).1, ¬ taken page) ∧
      (pages.allocatePages count).2.Spares
        (fun page => page ∈ (pages.allocatePages count).1 ∨ taken page) ∧
      ∀ page ∉ (pages.allocatePages count).1,
        (pages.allocatePages count).2.content page = pages.content page := by
  induction count generalizing pages taken with
  | zero =>
    refine ⟨nodup_nil, fun page mem => (nomatch mem), ?_, fun page _ => rfl⟩
    exact spares.mono fun page mem => mem.elim (fun none => nomatch none) id
  | succ count ih =>
    obtain ⟨fresh, alloc⟩ := spares.allocatePage
    obtain ⟨nodup, apart, left, same⟩ := ih alloc
    simp only [Pages.allocatePages]
    refine ⟨?_, ?_, ?_, ?_⟩
    · exact nodup_cons.mpr ⟨fun inside => apart _ inside (.inl rfl), nodup⟩
    · intro page mem held
      rcases mem_cons.mp mem with rfl | later
      · exact fresh held
      · exact apart page later (.inr held)
    · apply left.mono
      intro page mem
      rcases mem with listed | held
      · rcases mem_cons.mp listed with rfl | later
        · exact .inr (.inl rfl)
        · exact .inl later
      · exact .inr (.inr held)
    · intro page outside
      rw [mem_cons, not_or] at outside
      exact (same page outside.2).trans (allocatePage_other outside.1)

/-- Pages of a tree that is about to be put together: they are distinct, free
pages are elsewhere, and so are the pages of others. -/
structure Room (others : Nat → Prop) (pages : Pages ρ κ) (used : List Nat) : Prop where
  distinct : used.Nodup
  spares : pages.Spares fun page => others page ∨ page ∈ used
  apart : ∀ page ∈ used, ¬ others page

variable {next : Pages ρ κ} {used more : List Nat} {others : Nat → Prop}

theorem Room.perm (room : Room others pages used) (same : more.Perm used) :
    Room others pages more := by
  refine ⟨same.nodup_iff.mpr room.distinct, ?_, fun page mem =>
    room.apart page (same.mem_iff.mp mem)⟩
  simp only [same.mem_iff]
  exact room.spares

theorem Room.allocatePage (room : Room others pages used) :
    pages.allocatePage.1 ∉ used ∧ ¬ others pages.allocatePage.1 ∧
      Room others pages.allocatePage.2 (pages.allocatePage.1 :: used) := by
  obtain ⟨unused, alloc⟩ := room.spares.allocatePage
  rw [not_or] at unused
  refine ⟨unused.2, unused.1, nodup_cons.mpr ⟨unused.2, room.distinct⟩, ?_, ?_⟩
  · apply alloc.mono
    intro page mem
    rw [mem_cons] at mem
    tauto
  · intro page mem
    rcases mem_cons.mp mem with rfl | old
    · exact unused.1
    · exact room.apart page old

theorem Room.set (room : Room others pages used) (page : Nat)
    (content : Page ρ κ) : Room others (pages.set page content) used :=
  ⟨room.distinct, room.spares.set, room.apart⟩

theorem Room.balanced (room : Room others pages used)
    (balanced : pages.Balanced used next more) : Room others next more := by
  obtain ⟨spares, apart⟩ := balanced.spares room.spares room.distinct room.apart
  refine ⟨nodup_iff_count_le_one.mpr fun page => ?_, spares, apart⟩
  have own : pages.Spares (· ∈ used) := room.spares.mono fun page mem => .inr mem
  have before := own.count_le room.distinct page
  have after := balanced.balance page
  have most : next.inFile page ≤ 1 := by
    unfold inFile
    split <;> omega
  omega

/-- Pages after `page` was cut in two, with the higher part on the new page. -/
structure Cut (others : Nat → Prop) (pages : Pages ρ κ) (used : List Nat) (page : Nat)
    (low high : Page ρ κ) (stored : Pages ρ κ) : Prop where
  low : stored.content page = low
  high : stored.content pages.allocatePage.1 = high
  same : ∀ num, num ≠ page → num ≠ pages.allocatePage.1 → stored.content num = pages.content num
  unused : pages.allocatePage.1 ∉ used
  kept : ∀ num, others num → stored.content num = pages.content num
  room : Room others stored (pages.allocatePage.1 :: used)
  balanced : pages.Balanced used stored (pages.allocatePage.1 :: used)

theorem Room.cut (room : Room others pages used) {page : Nat} (mem : page ∈ used)
    (low high : Page ρ κ) : Cut others pages used page low high
      ((pages.allocatePage.2.set page low).set pages.allocatePage.1 high) := by
  obtain ⟨unused, notOther, alloc⟩ := room.allocatePage
  have same : ∀ num, num ≠ page → num ≠ pages.allocatePage.1 →
      ((pages.allocatePage.2.set page low).set pages.allocatePage.1 high).content num =
        pages.content num := by
    intro num notPage notFresh
    simp [notPage, notFresh, allocatePage_other notFresh]
  refine ⟨?_, by simp, same, unused, fun num other => same num ?_ ?_, (alloc.set _ _).set _ _,
    ((balanced_allocatePage pages used).set _ _).set _ _⟩
  · have fresh : page ≠ pages.allocatePage.1 := fun equal => unused (equal ▸ mem)
    simp [fresh]
  · exact fun equal => room.apart page mem (equal ▸ other)
  · exact fun equal => notOther (equal ▸ other)

end Pages

end SqliteRs
