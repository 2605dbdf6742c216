import SqliteRs.OrderedMap
import SqliteRs.ByteFile

/-!
The bounded cache of pages read from the main file. Every touch stamps the entry
with a new tick and pushes the tick on a heap; eviction pops ticks until one is
still current. The heap is a bag of ticks here, popped smallest first, and the
tick counter does not wrap.
-/

namespace SqliteRs

open OrderedMap

structure PageCache where
  capacity : Nat
  entries : OrderedMap UInt32 (Bytes × Nat)
  evictionHeap : List (Nat × UInt32)
  tick : Nat

def defaultPageCacheCapacity : Nat := 2000

namespace PageCache

def new (capacity : Nat) : PageCache :=
  { capacity, entries := OrderedMap.empty, evictionHeap := [], tick := 0 }

def compactEvictionHeap (cache : PageCache) : PageCache :=
  { cache with evictionHeap := cache.entries.entries.map fun entry => (entry.2.2, entry.1) }

def get (cache : PageCache) (pageNum : UInt32) : PageCache × Option Bytes :=
  let tick := cache.tick + 1
  match cache.entries.get pageNum with
  | none => ({ cache with tick }, none)
  | some (page, _) =>
    let touched : PageCache :=
      { cache with
        tick
        entries := cache.entries.insert pageNum (page, tick)
        evictionHeap := (tick, pageNum) :: cache.evictionHeap }
    (if max (cache.capacity * 4) 16 < touched.evictionHeap.length
      then touched.compactEvictionHeap else touched, some page)

def smallest : Nat × UInt32 → List (Nat × UInt32) → Nat × UInt32
  | best, [] => best
  | best, next :: rest =>
    if next.1 < best.1 ∨ (next.1 = best.1 ∧ next.2 < best.2) then smallest next rest
    else smallest best rest

/-- Pops heap entries until one is current; each round drops one, so the heap bounds them. -/
def evictLoop : Nat → PageCache → PageCache × Option (UInt32 × Bytes)
  | 0, cache => (cache, none)
  | fuel + 1, cache =>
    match cache.evictionHeap with
    | [] => (cache, none)
    | first :: rest =>
      let candidate := smallest first rest
      let popped := { cache with evictionHeap := cache.evictionHeap.erase candidate }
      match cache.entries.get candidate.2 with
      | some (page, tick) =>
        if tick = candidate.1 then
          ({ popped with entries := cache.entries.erase candidate.2 },
            some (candidate.2, page))
        else evictLoop fuel popped
      | none => evictLoop fuel popped

def evictOne (cache : PageCache) : PageCache × Option (UInt32 × Bytes) :=
  evictLoop cache.evictionHeap.length cache

def insert (cache : PageCache) (pageNum : UInt32) (page : Bytes) : PageCache :=
  let tick := cache.tick + 1
  let added : PageCache :=
    { cache with
      tick
      entries := cache.entries.insert pageNum (page, tick)
      evictionHeap := (tick, pageNum) :: cache.evictionHeap }
  if cache.capacity < added.entries.entries.length then added.evictOne.1 else added

def evictOneIfFull (cache : PageCache) : PageCache :=
  if cache.entries.entries.length < cache.capacity then cache else cache.evictOne.1

def invalidate (cache : PageCache) (pageNum : UInt32) : PageCache :=
  { cache with entries := cache.entries.erase pageNum }

def Within (lookup : UInt32 → Option Bytes) (cache : PageCache) : Prop :=
  ∀ pageNum page tick, cache.entries.get pageNum = some (page, tick) → lookup pageNum = some page

section Contents

variable {lookup : UInt32 → Option Bytes} {cache : PageCache}

theorem within_new (capacity : Nat) : Within lookup (new capacity) := by
  intro pageNum page tick found
  simp [new] at found

theorem get_snd (cache : PageCache) (pageNum : UInt32) :
    (cache.get pageNum).2 = (cache.entries.get pageNum).map Prod.fst := by
  simp only [get]
  cases cache.entries.get pageNum <;> rfl

theorem get_fst_within (within : Within lookup cache) (pageNum : UInt32) :
    Within lookup (cache.get pageNum).1 := by
  intro wanted page tick found
  simp only [get] at found
  cases hit : cache.entries.get pageNum with
  | none =>
    simp only [hit] at found
    exact within wanted page tick found
  | some entry =>
    have touched : OrderedMap.get
        (cache.entries.insert pageNum (entry.1, cache.tick + 1)) wanted = some (page, tick) := by
      simp only [hit] at found
      split at found <;> exact found
    rw [get_insert] at touched
    by_cases same : wanted = pageNum
    · rw [if_pos same] at touched
      cases touched
      rw [same]
      exact within pageNum entry.1 entry.2 hit
    · rw [if_neg same] at touched
      exact within wanted page tick touched

theorem evictLoop_within (fuel : Nat) (cache : PageCache) (within : Within lookup cache) :
    Within lookup (evictLoop fuel cache).1 := by
  induction fuel generalizing cache with
  | zero => exact within
  | succ fuel ih =>
    simp only [evictLoop]
    split
    · exact within
    split
    swap
    · exact ih _ within
    split
    · intro wanted page tick found
      simp only [get_erase] at found
      split at found
      · cases found
      · exact within wanted page tick found
    · exact ih _ within

theorem insert_within (within : Within lookup cache) (pageNum : UInt32) (page : Bytes)
    (known : lookup pageNum = some page) : Within lookup (cache.insert pageNum page) := by
  have added : Within lookup { cache with
        entries := cache.entries.insert pageNum (page, cache.tick + 1)
        evictionHeap := (cache.tick + 1, pageNum) :: cache.evictionHeap } := by
    intro wanted content tick found
    simp only [get_insert] at found
    split at found
    · rename_i same
      cases found
      rw [same]
      exact known
    · exact within wanted content tick found
  simp only [insert]
  split
  · exact evictLoop_within _ _ added
  · exact added

theorem evictOneIfFull_within (within : Within lookup cache) : Within lookup cache.evictOneIfFull := by
  simp only [evictOneIfFull]
  split
  · exact within
  · exact evictLoop_within _ _ within

theorem invalidate_within (within : Within lookup cache) (pageNum : UInt32) :
    Within lookup (cache.invalidate pageNum) := by
  intro wanted page tick found
  simp only [invalidate, get_erase] at found
  split at found
  · cases found
  · exact within wanted page tick found

end Contents

end PageCache

end SqliteRs
