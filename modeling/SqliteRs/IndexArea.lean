import SqliteRs.TreeDelete
import SqliteRs.BtreeSafety

/-!
The pages of the indexes of a table. Index pages lead only to pages of the same
area, so maintaining the indexes leaves every page outside the area alone. The area
grows by pages that nothing used.
-/

namespace SqliteRs

open List Layout

variable {ρ κ : Type} {geom : Geometry} {compareKeys : κ → κ → Ordering} {area : Nat → Prop}

/-- Every child and overflow page of an index page lies in an area. -/
def Page.IndexWithin (area : Nat → Prop) : Page ρ κ → Prop
  | .indexLeaf layout => ∀ entry ∈ layout.cells, ∀ page ∈ entry.overflow, area page
  | .indexInterior layout rightmost => area rightmost ∧
      ∀ route ∈ layout.cells, area route.child ∧ ∀ page ∈ route.entry.overflow, area page
  | _ => True

def IndexDescent.Within (area : Nat → Prop) : IndexDescent → Prop
  | .leaf _ page => area page
  | .interiorMatch page child => area page ∧ area child

namespace Pages

variable {pages next : Pages ρ κ}

def IndexArea (pages : Pages ρ κ) (area : Nat → Prop) : Prop :=
  ∀ page, area page → (pages.content page).IndexWithin area

/-- A change of the pages of an area that keeps them to themselves. -/
structure Confined (area : Nat → Prop) (before after : Pages ρ κ) : Prop where
  within : after.IndexArea area
  outside : ∀ page, ¬ area page → after.content page = before.content page

theorem Confined.trans {first second third : Pages ρ κ} (one : Confined area first second)
    (two : Confined area second third) : Confined area first third :=
  ⟨two.within, fun page other => (two.outside page other).trans (one.outside page other)⟩

namespace IndexArea

theorem congr {other : Pages ρ κ} (own : pages.IndexArea area)
    (same : ∀ page, area page → other.content page = pages.content page) : other.IndexArea area := by
  intro page mem
  rw [same page mem]
  exact own page mem

theorem refl (own : pages.IndexArea area) : Confined area pages pages := ⟨own, fun _ _ => rfl⟩

variable {page : Nat} {key : κ}

section

variable (own : pages.IndexArea area)

include own

theorem set {content : Page ρ κ} (mem : area page)
    (within : content.IndexWithin area) : Confined area pages (pages.set page content) := by
  constructor
  · intro other inside
    rw [set_content]
    split
    · exact within
    · exact own other inside
  · intro other outside
    have apart : other ≠ page := fun same => outside (same ▸ mem)
    rw [set_content, if_neg apart]

theorem deallocatePage (geom : Geometry) (mem : area page) :
    Confined area pages (pages.deallocatePage geom page) := by
  constructor
  swap
  · exact fun other outside => deallocatePage_other geom fun same => outside (same ▸ mem)
  intro other inside
  rcases deallocatePage_content geom page other pages with same | ⟨_, trunk⟩
  · rw [same]
    exact own other inside
  · rw [trunk]
    trivial

theorem freeOverflowChain (geom : Geometry) {chain : List Nat} (members : ∀ page ∈ chain, area page) :
    Confined area pages (pages.freeOverflowChain geom chain) := by
  constructor
  · intro other inside
    rcases freeOverflowChain_content geom chain other pages with same | ⟨_, trunk⟩
    · rw [same]
      exact own other inside
    · rw [trunk]
      trivial
  · exact fun other outside =>
      freeOverflowChain_other geom fun inside => outside (members other inside)

theorem writeIndexInteriorPage (geom : Geometry) {rightmost : Nat}
    {routes : List (IndexRoute κ)} (mem : area page) (last : area rightmost)
    (children : ∀ route ∈ routes, area route.child ∧ ∀ page ∈ route.entry.overflow, area page) :
    Confined area pages (pages.writeIndexInteriorPage geom page routes rightmost) := by
  apply own.set mem
  rw [Page.IndexWithin, writePageCommon_cells]
  exact ⟨last, children⟩

theorem descendIndexTree (budget : Nat) {before : List Nat} {start : Nat} {found : IndexDescent}
    (mem : area start) (above : ∀ page ∈ before, area page)
    (done : pages.descendIndexTree compareKeys key budget before start = .ok found) :
    found.Within area ∧
      ∀ ancestors leaf, found = .leaf ancestors leaf → ∀ page ∈ ancestors, area page := by
  induction budget generalizing before start with
  | zero => cases done
  | succ budget ih =>
    have within := own start mem
    have onward : ∀ page ∈ start :: before, area page := forall_mem_cons.mpr ⟨mem, above⟩
    unfold Pages.descendIndexTree at done
    split at done
    · cases done
      refine ⟨mem, fun ancestors leaf same => ?_⟩
      cases same
      exact above
    · rename_i layout rightmost here
      rw [here] at within
      split at done
      · rename_i route sought
        cases done
        exact ⟨⟨mem, (within.2 route (mem_of_find?_eq_some sought)).1⟩, fun _ _ same => by cases same⟩
      split at done
      · rename_i route sought
        exact ih (within.2 route (mem_of_find?_eq_some sought)).1 onward done
      · exact ih within.1 onward done
    · cases done

theorem deleteFromLeaf {leaf : Nat} (mem : area leaf)
    (done : deleteFromLeaf geom compareKeys leaf key pages = .ok next) : Confined area pages next := by
  have within := own leaf mem
  unfold Pages.deleteFromLeaf at done
  split at done
  swap
  · cases done
  rename_i layout here
  rw [here] at within
  split at done
  · cases done
  rename_i pos _
  split at done
  · cases done
  rename_i spliced cut
  cases done
  have written : Confined area pages (pages.set leaf (.indexLeaf spliced)) := by
    apply own.set mem
    rw [Page.IndexWithin, spliceDeleteCell_cells cut]
    exact fun entry inside => within entry (mem_of_mem_eraseIdx inside)
  apply written.trans (written.within.freeOverflowChain geom _)
  intro page listed
  cases held : layout.cells[pos]? with
  | none =>
    rw [held] at listed
    cases listed
  | some entry =>
    rw [held] at listed
    exact within entry (mem_of_getElem? held) page listed

end

theorem extractMaxEntry (budget : Nat) {taken : Option (IndexEntry κ)} {pages next : Pages ρ κ}
    (own : pages.IndexArea area) (mem : area page)
    (done : extractMaxEntry geom budget page pages = .ok (taken, next)) :
    Confined area pages next ∧ ∀ entry ∈ taken, ∀ chained ∈ entry.overflow, area chained := by
  induction budget generalizing page taken next with
  | zero => cases done
  | succ budget ih =>
    have within := own page mem
    unfold Pages.extractMaxEntry at done
    split at done
    · rename_i layout here
      rw [here] at within
      split at done
      · cases done
        exact ⟨own.refl, by simp⟩
      rename_i greatest final
      split at done
      · cases done
      rename_i spliced cut
      cases done
      constructor
      · apply own.set mem
        rw [Page.IndexWithin, spliceDeleteCell_cells cut]
        exact fun entry inside => within entry (mem_of_mem_eraseIdx inside)
      · intro entry same
        cases same
        exact within _ (mem_of_getLast? final)
    · rename_i layout rightmost here
      rw [here] at within
      split at done
      · cases done
      · rename_i greatest deeper found
        cases done
        exact ih within.1 found
      rename_i deeper found
      have below := (ih within.1 found).1
      have freed := below.trans (below.within.deallocatePage geom within.1)
      split at done
      · cases done
        exact ⟨freed, by simp⟩
      rename_i last final
      cases done
      have listed := within.2 last (mem_of_getLast? final)
      constructor
      · apply freed.trans (freed.within.writeIndexInteriorPage geom mem listed.1 _)
        exact fun route inside => within.2 route (mem_of_mem_dropLast inside)
      intro entry same
      cases same
      exact listed.2
    · cases done

theorem deleteViaPredecessorSwap (own : pages.IndexArea area) {child : Nat} (mem : area page)
    (childMember : area child) (done : deleteViaPredecessorSwap geom page child pages = .ok next) :
    Confined area pages next := by
  unfold Pages.deleteViaPredecessorSwap at done
  split at done
  · cases done
  · rename_i drained extracted
    have below := (own.extractMaxEntry _ childMember extracted).1
    have freed := below.trans (below.within.deallocatePage geom childMember)
    have within := freed.within page mem
    unfold Pages.removeEntryByChild at done
    split at done
    swap
    · cases done
    rename_i layout rightmost here
    rw [here] at within
    split at done
    · cases done
    rename_i removed sought
    cases done
    have fewer : ∀ route ∈ layout.cells.eraseP fun route => route.child == child,
        area route.child ∧ ∀ page ∈ route.entry.overflow, area page :=
      fun route inside => within.2 route (eraseP_subset inside)
    have written := freed.trans (freed.within.writeIndexInteriorPage geom mem within.1 fewer)
    exact written.trans (written.within.freeOverflowChain geom
      (within.2 removed (mem_of_find?_eq_some sought)).2)
  · rename_i predecessor left extracted
    obtain ⟨below, chained⟩ := own.extractMaxEntry _ childMember extracted
    have within := below.within page mem
    split at done
    swap
    · cases done
    rename_i layout rightmost here
    rw [here] at within
    split at done
    · cases done
    rename_i routes newer
    cases done
    apply below.trans (below.within.writeIndexInteriorPage geom mem within.1 _)
    intro route inside
    rcases replaceEntry_mem newer route inside with rfl | old
    · exact ⟨childMember, chained predecessor rfl⟩
    · exact within.2 route old

theorem deleteEntry (own : pages.IndexArea area) {root : Nat} (mem : area root)
    (done : deleteEntry geom compareKeys root key pages = .ok next) : Confined area pages next := by
  unfold Pages.deleteEntry at done
  split at done
  · cases done
  · rename_i found
    exact own.deleteFromLeaf (own.descendIndexTree maxPagesVisited mem (forall_mem_nil _) found).1 done
  · rename_i found
    obtain ⟨⟨pageMember, childMember⟩, _⟩ := own.descendIndexTree _ mem (forall_mem_nil _) found
    exact own.deleteViaPredecessorSwap pageMember childMember done

end IndexArea

end Pages

open Page

variable {ρ κ : Type} {geom : Geometry} {compareKeys : κ → κ → Ordering}
  {others area : Nat → Prop}

end SqliteRs
