import SqliteRs.PageLedger
import SqliteRs.PagerView

/-!
The supply of pages. The trees take theirs from a free list given as its trunks with the
pages they list. The pager keeps that list in bytes, in the header on page 1 and in the trunk
pages. Where the bytes say what the trees are told, both hand out the same page, and
neither holds the lock-byte page back.
-/

namespace SqliteRs

open List SqliteRs.Action ByteFile

namespace Pager

/-- A trunk page lists the page that is taken next last. -/
def ListsFirst (view : UInt32 → Except PageError Bytes) (first : UInt32) :
    List (Nat × List Nat) → Prop
  | [] => first = 0
  | (trunk, leaves) :: _ => first ≠ 0 ∧ first.toNat = trunk ∧ ∃ buf listed,
      view first = .ok buf ∧ TrunkPage.parse buf = .ok listed ∧
        listed.leaves.map UInt32.toNat = leaves.reverse

variable {ρ κ : Type}

/-- The pager's pages say how many pages the file has and which are the next free ones. -/
structure Supplies (pager : Pager) (world : World) (pages : Pages ρ κ) : Prop where
  sound : pager.Sound world
  header : ∃ page1 count first, pager.view world 1 = .ok page1 ∧
    readBeU32 page1 pageCountOffset = .ok count ∧ count.toNat = pages.count ∧
    count ≠ 0xFFFFFFFF ∧ readBeU32 page1 freelistTrunkPageOffset = .ok first ∧
    ListsFirst (pager.view world) first pages.trunks

section Steps

variable {Result Next : Type} {world after : World} {pager last : Pager} {proc : Nat} {res : Next}

theorem readPageM_bind {pageNum : UInt32} {next : Bytes → PagerM Next} (sound : pager.Sound world)
    (ran : exec (unixVfs proc) (readPageM pageNum >>= next) pager world =
      ⟨after, last, .ok res⟩) :
    ∃ held buf, pager.view world pageNum = .ok buf ∧ held.Sound world ∧
      held.view world = pager.view world ∧
      exec (unixVfs proc) (next buf) held world = ⟨after, last, .ok res⟩ := by
  obtain ⟨cache, read, cached⟩ := exec_readPage proc world pager sound pageNum
  rw [exec_bind, readPageM, exec_zoom, id, read] at ran
  cases viewed : pager.view world pageNum with
  | error error =>
    rw [viewed] at ran
    cases ran
  | ok buf =>
    rw [viewed] at ran
    exact ⟨_, buf, rfl, cached, rfl, ran⟩

theorem check_bind {found : Except FreelistError Result} {next : Result → PagerM Next}
    (ran : exec (unixVfs proc) (check (found.mapError .freelist) >>= next) pager world =
      ⟨after, last, .ok res⟩) :
    ∃ value, found = .ok value ∧
      exec (unixVfs proc) (next value) pager world = ⟨after, last, .ok res⟩ := by
  rw [exec_bind, exec_check] at ran
  cases found with
  | error error => cases ran
  | ok value => exact ⟨value, rfl, ran⟩

theorem popTrunk_ok {trunkPage taken newTrunk : UInt32} {trunk : TrunkPage}
    (ran : (popTrunk trunkPage trunk).exec (unixVfs proc) pager world =
      ⟨after, last, .ok (taken, newTrunk)⟩) : taken = trunk.leaves.getLast?.getD trunkPage := by
  rw [popTrunk] at ran
  cases listed : trunk.leaves.getLast? with
  | none =>
    rw [listed] at ran
    cases ran
    rfl
  | some leaf =>
    rw [listed] at ran
    obtain ⟨_, _, _, -, ran⟩ := (exec_bind_ok ..).mp ran
    cases ran
    rfl

end Steps

/-- What the pager hands out is what the trees are told to have been handed. -/
theorem Supplies.allocatePage {pages : Pages ρ κ} {world after : World} {pager last : Pager}
    {proc : Nat} {page : UInt32} (supplies : pager.Supplies world pages)
    (ran : allocatePage.exec (unixVfs proc) pager world = ⟨after, last, .ok page⟩) :
    page.toNat = pages.allocatePage.1 := by
  obtain ⟨sound, page1, count, first, viewed, counted, total, small, trunk, lists⟩ := supplies
  obtain ⟨held, _, read, sound, views, ran⟩ := readPageM_bind sound ran
  cases viewed.symm.trans read
  obtain ⟨_, read, ran⟩ := check_bind ran
  cases counted.symm.trans read
  obtain ⟨_, read, ran⟩ := check_bind ran
  cases trunk.symm.trans read
  obtain ⟨freeCount, -, ran⟩ := check_bind ran
  unfold Pages.allocatePage
  cases trunks : pages.trunks with
  | nil =>
    rw [trunks] at lists
    rw [if_pos (show first = 0 from lists), if_neg small] at ran
    obtain ⟨_, _, _, -, ran⟩ := (exec_bind_ok ..).mp ran
    obtain ⟨_, _, _, -, ran⟩ := (exec_bind_ok ..).mp ran
    cases ran
    have room : count.toNat + 1 < 2 ^ 32 := by
      have bounded := count.toNat_lt
      have apart : count.toNat ≠ 0xFFFFFFFF := fun same => small (UInt32.toNat_inj.mp same)
      omega
    rw [UInt32.toNat_add, ← total]
    exact Nat.mod_eq_of_lt room
  | cons head rest =>
    obtain ⟨num, leaves⟩ := head
    rw [trunks] at lists
    obtain ⟨some, named, buf, listed, shown, parsed, order⟩ := lists
    rw [if_neg some] at ran
    obtain ⟨_, _, read, -, -, ran⟩ := readPageM_bind sound ran
    rw [views, shown] at read
    cases read
    obtain ⟨_, read, ran⟩ := check_bind ran
    cases parsed.symm.trans read
    obtain ⟨_, _, ⟨taken, newTrunk⟩, popped, ran⟩ := (exec_bind_ok ..).mp ran
    obtain ⟨_, _, _, -, ran⟩ := (exec_bind_ok ..).mp ran
    obtain ⟨_, _, _, -, ran⟩ := (exec_bind_ok ..).mp ran
    cases ran
    rw [popTrunk_ok popped]
    cases leaves with
    | nil =>
      rw [map_eq_nil_iff.mp order]
      exact named
    -- `popTrunk` takes the last leaf of the trunk, the head of the list kept in `pages`.
    | cons leaf leaves =>
      rw [reverse_cons] at order
      obtain ⟨_, ends, same, -, one⟩ := map_eq_append_iff.mp order
      obtain ⟨last, rfl, rfl⟩ := map_eq_singleton_iff.mp one
      rw [same, getLast?_append]
      rfl

end Pager

/-- The page of byte 0x40000000, which the file format leaves to locks. -/
def Geometry.lockBytePage (geom : Geometry) : Nat := 0x40000000 / geom.pageLen + 1

namespace Pages

variable {ρ κ : Type}

/-- Nothing keeps an allocation off the lock-byte page: it is handed out when it is
free already, or when the file grows past it. The pager hands out the same page where its
bytes hold this free list. -/
theorem lock_byte_page_spared_iff (geom : Geometry) (pages : Pages ρ κ) (count : Nat) :
    (geom.lockBytePage ∉ (pages.allocatePages count).1 ↔
      geom.lockBytePage ∉ pages.popOrder.take count ∧
        (pages.count < geom.lockBytePage →
          pages.count + (count - pages.popOrder.length) < geom.lockBytePage)) ∧
    ∀ (proc : Nat) (pager last : Pager) (world after : World) (page : UInt32),
      pager.Supplies world pages →
      Pager.allocatePage.exec (unixVfs proc) pager world = ⟨after, last, .ok page⟩ →
      (pages.allocatePages 1).1 = [page.toNat] := by
  constructor
  · rw [allocatePages_eq, mem_append, not_or, mem_range'_1]
    refine and_congr Iff.rfl ?_
    omega
  · intro proc pager last world after page supplies ran
    rw [supplies.allocatePage ran]
    rfl

/-- With a first page that counts 2097152 pages of 512 bytes and no free one. -/
def gigabyte : Pager :=
  ⟨.shared, .shared, none, none, none, ⟨.main, 0⟩, .empty,
    .insert .empty 1 (zeros 28 ++ ([0, 0x20, 0, 0] ++ zeros 480)), .new 0, 512, .legacy, .full⟩

/-- The file of 2097152 pages of 512 bytes grows by its lock-byte page. -/
theorem growth_takes_lock_byte_page :
    let lockByte := Geometry.lockBytePage ⟨512, 512, by decide, by decide, by decide⟩
    lockByte ∈ (Pages.allocatePages 1 (⟨fun _ => .blank, 2097152, []⟩ : Pages Unit Unit)).1 ∧
      (Pager.allocatePage.exec (unixVfs 1) gigabyte
        ⟨fun _ => false, fun _ => 0, fun _ => [], [], fun _ => 0⟩).result.toOption.map UInt32.toNat =
          some lockByte := by
  decide +kernel

end Pages

end SqliteRs
