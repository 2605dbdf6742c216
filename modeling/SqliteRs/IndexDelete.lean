import SqliteRs.IndexInsert
import SqliteRs.TreeDelete

/-!
Deletion from index b-trees. A leaf loses its entry and frees the overflow pages. An
entry of an interior page gives way to the greatest entry of the subtree before it,
which is taken out of its leaf or out of the last page that is not drained; only a
drained subtree lets the entry go with its page. The swap keeps the order, as the
entry it moves is the nearest one before the deleted key. It does not free the
overflow pages of the deleted entry, which the ledger shows.
-/

namespace SqliteRs

open List Option Layout

variable {ρ κ P : Type} [LinearOrder P] {geom : Geometry}

namespace Pages

variable {pages next : Pages ρ κ} {others : Nat → Prop}

section Extract

variable {entries : List (IndexEntry κ)}

/-- What taking the greatest entry out of a subtree leaves: the entries before it, or
only the top page when there are none. -/
def Extracted (pages : Pages ρ κ) (page : Nat) (used : List Nat) (entries : List (IndexEntry κ))
    (next : Pages ρ κ) : Option (IndexEntry κ) → Prop
  | none => entries = [] ∧ pages.Balanced used next [page]
  | some greatest => ∃ whole front, entries = front ++ [greatest] ∧
      next.IndexReads [.page page] whole front ∧ next.KeyIntact greatest ∧
      pages.Balanced used next (whole ++ greatest.overflow) ∧
      ∀ number ∈ whole ++ greatest.overflow, number ∈ used

theorem keyPages_append (front back : List (IndexEntry κ)) :
    keyPages (front ++ back) = keyPages front ++ keyPages back := flatMap_append

theorem extract_leaf {page : Nat} {layout spliced : Layout (IndexEntry κ)}
    {front : List (IndexEntry κ)} {greatest : IndexEntry κ}
    (nodup : (page :: keyPages layout.cells).Nodup)
    (intact : ∀ entry ∈ layout.cells, pages.KeyIntact entry)
    (cells : layout.cells = front ++ [greatest]) (kept : spliced.cells = front) :
    Extracted pages page (page :: keyPages layout.cells) layout.cells
      (pages.set page (.indexLeaf spliced)) (some greatest) := by
  have apart := (nodup_cons.mp nodup).1
  have listed : keyPages layout.cells = keyPages front ++ greatest.overflow := by
    rw [cells, keyPages_append]
    simp [keyPages, flatMap_cons, flatMap_nil, append_nil]
  have same : ∀ entry ∈ layout.cells, (pages.set page (.indexLeaf spliced)).KeyIntact entry := by
    intro entry mem
    apply (intact entry mem).congr
    intro num chained
    have inside : num ∈ keyPages layout.cells := mem_flatMap.mpr ⟨entry, mem, chained⟩
    rw [set_content, if_neg]
    exact fun equal => apart (equal ▸ inside)
  have items : ((pages.set page (.indexLeaf spliced)).content page).items =
      some (front.map .entry) := by
    rw [set_content, if_pos rfl, ← kept]
    rfl
  refine ⟨page :: keyPages front, front, cells, ?_, ?_, ?_, ?_⟩
  · exact IndexReads.single.mpr ⟨_, _, items, rfl, IndexReads.of_entries fun entry mem =>
      same entry (cells ▸ mem_append_left _ mem)⟩
  · exact same greatest (cells ▸ mem_append_right _ (.head _))
  · rw [cons_append, ← listed]
    exact (Balanced.refl pages _).set _ _
  · rw [cons_append, ← listed]
    exact fun num mem => mem

theorem routes_last {routes : List (IndexRoute κ)} {last : IndexRoute κ}
    (final : routes.getLast? = some last) : routes = routes.dropLast ++ [last] := by
  obtain ⟨front, rfl⟩ := List.getLast?_eq_some_iff.mp final
  rw [dropLast_concat]

theorem routeItems_concat (routes : List (IndexRoute κ)) (last : IndexRoute κ) :
    routeItems (routes ++ [last]) = childItems routes last.child ++ [.entry last.entry] := by
  rw [routeItems_append, childItems, append_assoc]
  rfl

theorem extract_drained {page rightmost : Nat} {layout : Layout (IndexRoute κ)}
    {leftUsed ownUsed : List Nat} {last : IndexRoute κ}
    (left : next.IndexReads (routeItems layout.cells) leftUsed entries)
    (final : layout.cells.getLast? = some last)
    (nodup : (page :: (leftUsed ++ ownUsed)).Nodup) (child : rightmost ∈ ownUsed)
    (balanced : pages.Balanced ownUsed next [rightmost]) :
    Extracted pages page (page :: (leftUsed ++ ownUsed)) entries
      ((next.deallocatePage geom rightmost).writeIndexInteriorPage geom page
        layout.cells.dropLast last.child) (some last.entry) := by
  obtain ⟨apart, below⟩ := nodup_cons.mp nodup
  have disjoint := (nodup_append.mp below).2.2
  rw [routes_last final, routeItems_concat] at left
  obtain ⟨frontUsed, lastUsed, front, own, rfl, rfl, before, greatest⟩ := left.split
  obtain ⟨rfl, rfl⟩ := @IndexReads.entries_eq ρ κ next _ _ [last.entry] greatest
  have chain : keyPages [last.entry] = last.entry.overflow := append_nil _
  rw [chain] at apart disjoint ⊢
  have same : ∀ num ∈ frontUsed ++ last.entry.overflow,
      ((next.deallocatePage geom rightmost).writeIndexInteriorPage geom page
        layout.cells.dropLast last.child).content num = next.content num := by
    intro num mem
    rw [writeIndexInteriorPage_other, deallocatePage_other]
    · exact disjoint num mem rightmost child
    · exact fun equal => apart (equal ▸ mem_append_left _ mem)
  obtain ⟨written, here, cells⟩ := writeIndexInteriorPage_here geom page layout.cells.dropLast
    last.child (next.deallocatePage geom rightmost)
  have items := items_interior here
  rw [cells] at items
  refine ⟨page :: frontUsed, front, rfl, ?_, ?_, ?_, ?_⟩
  · exact IndexReads.single.mpr ⟨_, _, items, rfl, before.congr fun num mem =>
      same num (mem_append_left _ mem)⟩
  · apply (greatest.intact last.entry (.head _)).congr
    exact fun num mem => same num (mem_append_right _ mem)
  · have freed := (balanced.trans (@balanced_deallocatePage ρ κ geom rightmost next [])).beside
      (page :: (frontUsed ++ last.entry.overflow))
    refine ((freed.set _ _).perm ?_).perm_left ?_
    · exact List.Perm.refl _
    rw [perm_iff_count]
    simp only [count_append, count_cons]
    omega
  · intro num mem
    rcases mem_cons.mp mem with rfl | held
    · exact .head _
    · exact .tail _ (mem_append_left _ held)

theorem IndexReads.extractMaxEntry (geom : Geometry) (levels : Nat) {page : Nat} {used : List Nat}
    (reads : pages.IndexReads [.page page] used entries)
    (nodup : used.Nodup) (within : pages.IndexLevels levels page) :
    ∃ res next, Pages.extractMaxEntry geom levels page pages = .ok (res, next) ∧
      Extracted pages page used entries next res ∧
      ∀ num, num ∉ used → next.content num = pages.content num := by
  induction levels generalizing page used entries with
  | zero => cases within
  | succ levels ih =>
    obtain ⟨items, below, here, rfl, later⟩ := IndexReads.single.mp reads
    unfold IndexLevels at within
    unfold Pages.extractMaxEntry
    split
    · rename_i layout content
      rw [content] at here
      cases here
      obtain ⟨rfl, rfl⟩ := later.entries_eq
      cases final : layout.cells.getLast? with
      | none =>
        have empty := List.getLast?_eq_none_iff.mp final
        refine ⟨none, pages, rfl, ⟨empty, ?_⟩, fun _ _ => rfl⟩
        rw [empty]
        exact Balanced.refl pages [page]
      | some greatest =>
        obtain ⟨front, cells⟩ := List.getLast?_eq_some_iff.mp final
        have count : layout.cells.length - 1 + 1 = layout.cells.length := by
          rw [cells, length_append, length_singleton]
          omega
        obtain ⟨spliced, cut⟩ := @Layout.spliceDeleteCell_isSome _ (entrySize geom) layout
          (layout.cells.length - 1) (by omega)
        have kept : spliced.cells = front := by
          rw [spliceDeleteCell_cells cut, ← dropLast_eq_eraseIdx count, cells, dropLast_concat]
        simp only [cut]
        refine ⟨some greatest, _, rfl, extract_leaf nodup later.intact cells kept, ?_⟩
        intro num outside
        rw [set_content, if_neg]
        exact fun equal => outside (equal ▸ .head _)
    · rename_i layout rightmost content
      rw [content] at within
      rw [items_interior content] at here
      cases here
      obtain ⟨leftUsed, ownUsed, leftEntries, own, rfl, rfl, left, last⟩ := later.split
      obtain ⟨apart, belowDistinct⟩ := nodup_cons.mp nodup
      obtain ⟨_, ownDistinct, disjoint⟩ := nodup_append.mp belowDistinct
      obtain ⟨res, next, done, extracted, same⟩ := ih last ownDistinct within.1
      have untouched : ∀ num ∈ leftUsed, next.content num = pages.content num :=
        fun num mem => same num fun inside => disjoint num mem num inside rfl
      have child : rightmost ∈ ownUsed := last.uses rightmost (.head _)
      have pageOther : page ∉ ownUsed := fun inside => apart (mem_append_right _ inside)
      have lower : next.IndexReads (routeItems layout.cells) leftUsed leftEntries :=
        left.congr untouched
      simp only [done]
      cases res with
      | some greatest =>
        obtain ⟨whole, front, rfl, rest, intact, balanced, fewer⟩ := extracted
        refine ⟨some greatest, next, rfl,
          ⟨page :: (leftUsed ++ whole), leftEntries ++ front, ?_, ?_, intact, ?_, ?_⟩, ?_⟩
        · rw [append_assoc]
        · exact IndexReads.single.mpr ⟨_, _, items_interior ((same page pageOther).trans content),
            rfl, lower.append rest⟩
        · refine ((balanced.beside (page :: leftUsed)).perm ?_).perm_left ?_
          all_goals
            rw [perm_iff_count]
            simp only [count_append, count_cons]
            omega
        · intro num mem
          simp only [mem_cons, mem_append] at mem fewer ⊢
          have inside := fewer num
          tauto
        · intro num outside
          exact same num fun inside => outside (.tail _ (mem_append_right _ inside))
      -- The subtree under the rightmost pointer was empty, so the page is left to be taken down.
      | none =>
        obtain ⟨rfl, balanced⟩ := extracted
        cases final : layout.cells.getLast? with
        | none =>
          have empty := List.getLast?_eq_none_iff.mp final
          rw [empty] at left
          cases left
          refine ⟨none, _, rfl, ⟨rfl, ?_⟩, ?_⟩
          · have freed := balanced.trans (@balanced_deallocatePage ρ κ geom rightmost next [])
            exact (freed.beside [page]).perm_left (perm_append_singleton page ownUsed).symm
          intro num outside
          have other : num ∉ ownUsed := fun inside => outside (.tail _ inside)
          rw [deallocatePage_other]
          · exact same num other
          · exact fun equal => other (equal ▸ child)
        | some last =>
          rw [append_nil]
          refine ⟨some last.entry, _, rfl, extract_drained lower final nodup child balanced, ?_⟩
          intro num outside
          have other : num ∉ ownUsed := fun inside =>
            outside (.tail _ (mem_append_right _ inside))
          rw [writeIndexInteriorPage_other, deallocatePage_other]
          · exact same num other
          · exact fun equal => other (equal ▸ child)
          · exact fun equal => outside (equal ▸ .head _)
    · rename_i leaf interior
      exact (items_elsewhere here leaf interior).elim

end Extract

section Levels

theorem IndexLevels.mono {less more : Nat} {page : Nat} (within : pages.IndexLevels less page)
    (enough : less ≤ more) : pages.IndexLevels more page := by
  induction less generalizing more page with
  | zero => cases within
  | succ less ih =>
    obtain ⟨more, rfl⟩ := Nat.exists_eq_add_of_le' (Nat.le_trans (Nat.le_add_left 1 less) enough)
    have fewer : less ≤ more := by omega
    unfold IndexLevels at within ⊢
    split at within
    · exact ⟨ih within.1 fewer, fun route mem => ih (within.2 route mem) fewer⟩
    · trivial

theorem IndexLevels.child {levels page child rightmost : Nat} {layout : Layout (IndexRoute κ)}
    (within : pages.IndexLevels levels page)
    (content : pages.content page = .indexInterior layout rightmost)
    (mem : .page child ∈ childItems layout.cells rightmost) : pages.IndexLevels levels child := by
  cases levels with
  | zero => cases within
  | succ levels =>
    unfold IndexLevels at within
    rw [content] at within
    rcases mem_childItems.mp mem with rfl | ⟨route, listed, rfl⟩
    · exact within.1.mono (Nat.le_succ _)
    · exact (within.2 route listed).mono (Nat.le_succ _)

theorem IndexPath.levels {levels root hole : Nat} {ancestors used : List Nat}
    {front back : List (IndexEntry κ)} (path : pages.IndexPath root ancestors hole used front back)
    (within : pages.IndexLevels levels root) : pages.IndexLevels levels hole := by
  induction path with
  | here => exact within
  | step _ content split _ _ ih =>
    apply ih.child content
    rw [split]
    exact mem_append_right _ (.head _)

end Levels

section Free

variable {root : Nat} {used whole chain : List Nat} {entries : List (IndexEntry κ)}

theorem Room.part (room : Room others pages (chain ++ used)) : Room others pages used where
  distinct := (nodup_append.mp room.distinct).2.1
  spares := room.spares.mono fun _ mem => mem.imp_right (mem_append_right _)
  apart page mem := room.apart page (mem_append_right _ mem)

theorem Regrown.free (geom : Geometry) (regrown : Regrown others pages used next root whole entries)
    (room : Room others pages (chain ++ used)) :
    Regrown others pages (chain ++ used) (next.freeOverflowChain geom chain) root whole entries := by
  have kept : pages.Balanced (chain ++ used) next (chain ++ whole) :=
    ((regrown.balanced.beside chain).perm perm_append_comm).perm_left perm_append_comm
  have disjoint := (nodup_append.mp (room.balanced kept).distinct).2.2
  have freed := kept.trans (@balanced_freeOverflowChain ρ κ geom chain next whole)
  refine ⟨?_, room.balanced freed, freed, fun page other => ?_⟩
  · apply regrown.reads.congr
    intro page mem
    apply freeOverflowChain_other
    exact fun inside => disjoint page inside page mem rfl
  · rw [freeOverflowChain_other]
    · exact regrown.same page other
    · exact fun inside => room.apart page (mem_append_left _ inside) other

end Free

section Leaf

variable {place : κ → P} {allowed : κ → Prop} {compareKeys : κ → κ → Ordering} {key : κ}
  {root leaf : Nat} {used ancestors pathUsed : List Nat} {entries front back : List (IndexEntry κ)}
  {layout : Layout (IndexEntry κ)}

theorem AtLeaf.deleteFromLeaf (geom : Geometry) (order : KeyOrder compareKeys place allowed)
    (keyOk : allowed key)
    (found : AtLeaf place pages root key used entries ancestors leaf pathUsed front back layout)
    (ascends : Ascends place entries) (allows : ∀ entry ∈ entries, allowed entry.key)
    (room : Room others pages used) : ((∀ entry ∈ entries, entry.key ≠ key) ∧
        Pages.deleteFromLeaf geom compareKeys leaf key pages = .error .keyNotFound) ∨
      ∃ next whole before entry after, Pages.deleteFromLeaf geom compareKeys leaf key pages = .ok next ∧
          entries = before ++ entry :: after ∧ entry.key = key ∧
          Regrown others pages used next root whole (before ++ after) := by
  obtain ⟨path, content, intact, uses, rfl, parts⟩ := found
  have inside : ∀ entry ∈ layout.cells, entry ∈ front ++ layout.cells ++ back := fun entry mem =>
    mem_append_left _ (mem_append_right _ mem)
  have leafAscends := (pairwise_append.mp (pairwise_append.mp ascends).1).2.1
  have searched := searchIndexLeaf_whole order keyOk leafAscends fun entry mem =>
    allows entry (inside entry mem)
  unfold Pages.deleteFromLeaf
  simp only [content]
  generalize searchIndexLeaf compareKeys layout.cells key (layout.cells.length + 1) 0
    layout.cells.length = outcome at searched
  cases outcome with
  | notFound pos =>
    left
    refine ⟨fun entry mem => (parts.append searched.2).absent entry ?_, rfl⟩
    rwa [← take_append_drop pos layout.cells, ← append_assoc, append_assoc] at mem
  | found pos =>
    right
    obtain ⟨entry, held, equal⟩ := searched
    obtain ⟨bound, _⟩ := List.getElem?_eq_some_iff.mp held
    have mem := inside entry (mem_of_getElem? held)
    have cells := entries_cut held
    obtain ⟨spliced, cut⟩ := @Layout.spliceDeleteCell_isSome _ (entrySize geom) layout _ bound
    have kept : spliced.cells =
        layout.cells.take pos ++ layout.cells.drop (pos + 1) := by
      rw [spliceDeleteCell_cells cut, eraseIdx_eq_take_drop_succ]
    have perm : (entry.overflow ++ (pathUsed ++ leaf :: keyPages (layout.cells.take pos ++
        layout.cells.drop (pos + 1)))).Perm used := by
      refine List.Perm.trans ?_ uses
      have listed : keyPages layout.cells = keyPages (layout.cells.take pos) ++
          (entry.overflow ++ keyPages (layout.cells.drop (pos + 1))) := by
        conv => lhs; rw [cells, keyPages_append]
        rfl
      rw [listed, keyPages_append, perm_iff_count]
      simp only [count_append, count_cons]
      omega
    obtain ⟨whole, regrown⟩ := path.putEntries (fun held among => intact held (by
      rw [cells]
      exact mem_append.mpr ((mem_append.mp among).imp_right (.tail _)))) kept
      (room.perm perm).part
    have freed := regrown.free geom (room.perm perm)
    simp only [cut, held, map_some, getD_some]
    refine ⟨_, whole, front ++ layout.cells.take pos, entry,
      layout.cells.drop (pos + 1) ++ back, rfl, ?_,
      order.faithful _ _ (allows entry mem) keyOk equal, ?_⟩
    · conv => lhs; rw [cells]
      simp [append_assoc, cons_append]
    refine ⟨?_, freed.room, freed.balanced.perm_left perm.symm, freed.same⟩
    have reads := freed.reads
    simpa only [append_assoc] using reads

end Leaf

section Swap

variable {earlier later : List (IndexRoute κ)} {child rightmost : Nat} {entry : IndexEntry κ}

theorem childItems_without (earlier later : List (IndexRoute κ)) (rightmost : Nat) :
    childItems (earlier ++ later) rightmost = routeItems earlier ++ childItems later rightmost := by
  rw [childItems, routeItems_append, append_assoc]
  rfl

theorem find_at (first : ∀ route ∈ earlier, route.child ≠ child) :
    (earlier ++ ⟨child, entry⟩ :: later).find? (fun route => route.child == child) =
      some ⟨child, entry⟩ := by
  rw [List.find?_eq_some_iff_append]
  refine ⟨beq_self_eq_true _, earlier, later, rfl, fun route mem => ?_⟩
  simpa using first route mem

theorem erase_at (first : ∀ route ∈ earlier, route.child ≠ child) :
    (earlier ++ ⟨child, entry⟩ :: later).eraseP (fun route => route.child == child) =
      earlier ++ later := by
  rw [eraseP_append_right]
  · simp
  · intro route mem
    simpa using first route mem

variable {root page : Nat} {used ancestors pathUsed leftUsed ownUsed restUsed : List Nat}
  {front back leftEntries own restEntries : List (IndexEntry κ)}

/-- A page of an index with a child, the entry after it and what lies beside them. -/
structure Opened (pages : Pages ρ κ) (root page child : Nat) (entry : IndexEntry κ)
    (earlier later : List (IndexRoute κ)) (rightmost : Nat) (ancestors pathUsed leftUsed ownUsed
    restUsed : List Nat) (front back leftEntries own restEntries : List (IndexEntry κ)) : Prop where
  path : pages.IndexPath root ancestors page pathUsed front back
  content : ∃ layout, pages.content page = .indexInterior layout rightmost ∧
    layout.cells = earlier ++ ⟨child, entry⟩ :: later
  left : pages.IndexReads (routeItems earlier) leftUsed leftEntries
  hole : pages.IndexReads [.page child] ownUsed own
  intact : pages.KeyIntact entry
  rest : pages.IndexReads (childItems later rightmost) restUsed restEntries
  distinct : (ownUsed ++ (entry.overflow ++ (pathUsed ++ page :: (leftUsed ++ restUsed)))).Nodup

/-- What a deletion leaves: an index with these entries, and pages that neither it nor
the free list has any more. -/
structure Reduced (others : Nat → Prop) (pages : Pages ρ κ) (used : List Nat) (next : Pages ρ κ)
    (root : Nat) (whole leaked : List Nat) (entries : List (IndexEntry κ)) : Prop where
  reads : next.IndexReads [.page root] whole entries
  balanced : pages.Balanced used next (whole ++ leaked)
  same : ∀ page, others page → next.content page = pages.content page

theorem Reduced.of_regrown {whole : List Nat} {entries : List (IndexEntry κ)}
    (regrown : Regrown others pages used next root whole entries) :
    Reduced others pages used next root whole [] entries := by
  refine ⟨regrown.reads, ?_, regrown.same⟩
  rw [append_nil]
  exact regrown.balanced

section Parent

variable {mid : Pages ρ κ} {greatest : IndexEntry κ}
  (opened : Opened pages root page child entry earlier later rightmost ancestors pathUsed leftUsed
    ownUsed restUsed front back leftEntries own restEntries)

include opened

theorem Opened.first : ∀ route ∈ earlier, route.child ≠ child := by
  rintro route mem rfl
  have listed := opened.left.uses route.child (mem_flatMap.mpr ⟨route, mem, .head _⟩)
  have held := opened.hole.uses route.child (.head _)
  exact (nodup_append.mp opened.distinct).2.2 _ held _ (mem_append_right _
    (mem_append_right _ (.tail _ (mem_append_left _ listed)))) rfl

variable (same : ∀ num, num ∉ ownUsed → mid.content num = pages.content num)

include same

theorem Opened.congr : mid.IndexPath root ancestors page pathUsed front back ∧
      mid.IndexReads (routeItems earlier) leftUsed leftEntries ∧
      mid.IndexReads (childItems later rightmost) restUsed restEntries ∧
      mid.content page = pages.content page := by
  have apart : ∀ num ∈ pathUsed ++ page :: (leftUsed ++ restUsed),
      mid.content num = pages.content num := by
    intro num mem
    apply same num
    intro inside
    exact (nodup_append.mp opened.distinct).2.2 _ inside _ (mem_append_right _ mem) rfl
  refine ⟨opened.path.congr fun num mem => ?_, opened.left.congr fun num mem => ?_,
    opened.rest.congr fun num mem => ?_, ?_⟩
  · exact apart num (mem_append_left _ mem)
  · exact apart num (mem_append_right _ (.tail _ (mem_append_left _ mem)))
  · exact apart num (mem_append_right _ (.tail _ (mem_append_right _ mem)))
  · exact apart page (mem_append_right _ (.head _))

variable (geom : Geometry) (room : Room others pages
  (ownUsed ++ (entry.overflow ++ (pathUsed ++ page :: (leftUsed ++ restUsed)))))

include room

theorem Opened.swap (extracted : Extracted pages child ownUsed own mid (some greatest)) :
    ∃ whole, Reduced others pages
      (ownUsed ++ (entry.overflow ++ (pathUsed ++ page :: (leftUsed ++ restUsed))))
      (mid.writeIndexInteriorPage geom page (earlier ++ ⟨child, greatest⟩ :: later) rightmost)
      root whole entry.overflow (front ++ (leftEntries ++ (own ++ restEntries)) ++ back) := by
  obtain ⟨path, left, rest, _⟩ := opened.congr same
  obtain ⟨holeUsed, held, rfl, hole, intact, balanced, _⟩ := extracted
  have reads : mid.IndexReads (childItems (earlier ++ ⟨child, greatest⟩ :: later) rightmost)
      (leftUsed ++ (holeUsed ++ (greatest.overflow ++ restUsed)))
      (leftEntries ++ (held ++ greatest :: restEntries)) := by
    rw [childItems_at]
    exact left.append (hole.append (.entry intact rest))
  have counted : pages.Balanced
      (ownUsed ++ (entry.overflow ++ (pathUsed ++ page :: (leftUsed ++ restUsed)))) mid
      (entry.overflow ++ (pathUsed ++ page ::
        (leftUsed ++ (holeUsed ++ (greatest.overflow ++ restUsed))))) := by
    refine (balanced.beside _).perm ?_
    rw [perm_iff_count]
    simp only [count_append, count_cons]
    omega
  obtain ⟨whole, regrown⟩ := path.rewrite geom reads
    (room.balanced counted).part
  refine ⟨whole, ?_, ?_, fun num other => ?_⟩
  · simpa only [append_assoc, cons_append, nil_append] using regrown.reads
  · exact counted.trans (((regrown.balanced.beside entry.overflow).perm_left
      perm_append_comm))
  · rw [regrown.same num other]
    exact same num fun inside => room.apart num (mem_append_left _ inside) other

theorem Opened.drain (balanced : pages.Balanced ownUsed mid [child]) : ∃ whole, Regrown others pages
      (ownUsed ++ (entry.overflow ++ (pathUsed ++ page :: (leftUsed ++ restUsed))))
      (((mid.deallocatePage geom child).writeIndexInteriorPage geom page (earlier ++ later)
        rightmost).freeOverflowChain geom entry.overflow)
      root whole (front ++ (leftEntries ++ restEntries) ++ back) := by
  have held := opened.hole.uses child (.head _)
  have untouched : ∀ num, num ∉ ownUsed →
      (mid.deallocatePage geom child).content num = pages.content num := by
    intro num outside
    rw [deallocatePage_other]
    · exact same num outside
    · exact fun equal => outside (equal ▸ held)
  obtain ⟨path, left, rest, _⟩ := opened.congr untouched
  have reads : (mid.deallocatePage geom child).IndexReads (childItems (earlier ++ later) rightmost)
      (leftUsed ++ restUsed) (leftEntries ++ restEntries) := by
    rw [childItems_without]
    exact left.append rest
  have freed := (balanced.trans (@balanced_deallocatePage ρ κ geom child mid [])).beside
    (entry.overflow ++ (pathUsed ++ page :: (leftUsed ++ restUsed)))
  rw [nil_append] at freed
  have after := room.balanced freed
  obtain ⟨whole, regrown⟩ := path.rewrite geom reads
    after.part
  have res := regrown.free geom after
  refine ⟨whole, res.reads, res.room, freed.trans res.balanced, fun num other => ?_⟩
  rw [res.same num other]
  exact untouched num fun inside => room.apart num (mem_append_left _ inside) other

end Parent

end Swap

section Delete

variable {place : κ → P} {allowed : κ → Prop} {compareKeys : κ → κ → Ordering} {key : κ}
  {root page child rightmost : Nat} {used ancestors pathUsed : List Nat} {entry : IndexEntry κ}
  {entries front back : List (IndexEntry κ)} {earlier later : List (IndexRoute κ)}

omit [LinearOrder P] in
theorem AtEntry.opened (found : AtEntry place pages root key used entries page child ancestors
      pathUsed front back earlier later entry rightmost) (nodup : used.Nodup) :
    ∃ leftUsed ownUsed restUsed leftEntries own restEntries,
      Opened pages root page child entry earlier later rightmost ancestors pathUsed leftUsed ownUsed
        restUsed front back leftEntries own restEntries ∧
        (ownUsed ++ (entry.overflow ++ (pathUsed ++ page :: (leftUsed ++ restUsed)))).Perm used ∧
        front ++ (leftEntries ++ (own ++ entry :: restEntries)) ++ back = entries := by
  obtain ⟨path, content, ⟨below, held, reads, uses, rfl⟩, _⟩ := found
  rw [childItems_at] at reads
  obtain ⟨leftUsed, _, leftEntries, _, rfl, rfl, left, others⟩ := reads.split
  obtain ⟨ownUsed, _, own, _, rfl, rfl, hole, last⟩ := others.split
  cases last with
  | @entry _ _ restUsed restEntries intact rest =>
    have perm : (ownUsed ++ (entry.overflow ++ (pathUsed ++ page :: (leftUsed ++ restUsed)))).Perm
        used := by
      refine List.Perm.trans ?_ uses
      rw [perm_iff_count]
      intro num
      simp only [count_append, count_cons]
      omega
    exact ⟨leftUsed, ownUsed, restUsed, leftEntries, own, restEntries,
      ⟨path, content, left, hole, intact, rest, perm.nodup_iff.mpr nodup⟩, perm, rfl⟩

/-- Pages are lost when an entry with overflow pages gives way to one before it. -/
def Lost (pages : Pages ρ κ) (child : Nat) (entry : IndexEntry κ) (leaked : List Nat) : Prop :=
  leaked = [] ∨ leaked = entry.overflow ∧
    ∃ used held greatest, pages.IndexReads [.page child] used (held ++ [greatest])

omit [LinearOrder P] in
theorem AtEntry.deleteViaPredecessorSwap (geom : Geometry)
    (found : AtEntry place pages root key used entries page child ancestors pathUsed front back
      earlier later entry rightmost)
    (room : Room others pages used) (within : pages.IndexLevels maxPagesVisited root) :
    ∃ next whole leaked before after, Pages.deleteViaPredecessorSwap geom page child pages = .ok next ∧
        entries = before ++ entry :: after ∧
        Reduced others pages used next root whole leaked (before ++ after) ∧
        pages.Lost child entry leaked := by
  obtain ⟨leftUsed, ownUsed, restUsed, leftEntries, own, restEntries, opened, perm, rfl⟩ :=
    found.opened room.distinct
  obtain ⟨layout, content, cells⟩ := opened.content
  have lower : pages.IndexLevels (maxPagesVisited + 1) child := by
    refine IndexLevels.mono (IndexLevels.child (opened.path.levels within) content ?_)
      (Nat.le_succ _)
    exact mem_childItems.mpr (.inr ⟨⟨child, entry⟩, cells ▸ mem_append_right _ (.head _), rfl⟩)
  have nodup := (nodup_append.mp opened.distinct).1
  obtain ⟨res, mid, done, extracted, same⟩ := opened.hole.extractMaxEntry geom
    (maxPagesVisited + 1) nodup lower
  have first := opened.first
  have regroup : ∀ list : List (IndexEntry κ), front ++ (leftEntries ++ list) ++ back =
      front ++ leftEntries ++ (list ++ back) := by
    intro list
    simp [append_assoc]
  unfold Pages.deleteViaPredecessorSwap
  simp only [done]
  cases res with
  | some greatest =>
    obtain ⟨whole, reduced⟩ := opened.swap same geom (room.perm perm) extracted
    have here := (opened.congr same).2.2.2.trans content
    have swapped : replaceEntry child greatest (earlier ++ ⟨child, entry⟩ :: later) = _ :=
      (replaceEntry_edits ..).at first rfl later
    simp only [here, cells, swapped, cons_append, nil_append]
    refine ⟨_, whole, entry.overflow, front ++ leftEntries ++ own, restEntries ++ back, rfl, ?_,
      ⟨?_, reduced.balanced.perm_left perm.symm, reduced.same⟩, .inr ⟨rfl, ?_⟩⟩
    · simp [append_assoc, cons_append]
    · simpa only [append_assoc] using reduced.reads
    · obtain ⟨_, held, rfl, _⟩ := extracted
      exact ⟨ownUsed, held, greatest, opened.hole⟩
  | none =>
    obtain ⟨rfl, balanced⟩ := extracted
    obtain ⟨whole, regrown⟩ := opened.drain same geom (room.perm perm) balanced
    have here : (mid.deallocatePage geom child).content page = .indexInterior layout rightmost := by
      rw [deallocatePage_other]
      · exact (opened.congr same).2.2.2.trans content
      rintro rfl
      exact (nodup_append.mp opened.distinct).2.2 page (opened.hole.uses page (.head _)) page
        (mem_append_right _ (mem_append_right _ (.head _))) rfl
    simp only [Pages.removeEntryByChild, here, cells, find_at first, erase_at first]
    refine ⟨_, whole, [], front ++ leftEntries, restEntries ++ back, rfl, ?_, ?_, .inl rfl⟩
    · rw [nil_append, regroup, cons_append]
    have reduced := Reduced.of_regrown regrown
    rw [regroup] at reduced
    exact ⟨reduced.reads, reduced.balanced.perm_left perm.symm, reduced.same⟩

theorem HoldsIndexBeside.deleteEntry (geom : Geometry) (order : KeyOrder compareKeys place allowed)
    (keyOk : allowed key) (index : pages.HoldsIndexBeside place allowed others root used entries)
    (within : pages.IndexLevels maxPagesVisited root) : ((∀ entry ∈ entries, entry.key ≠ key) ∧
        pages.deleteEntry geom compareKeys root key = .error .keyNotFound) ∨
      ∃ next whole leaked before entry after, pages.deleteEntry geom compareKeys root key = .ok next ∧
          entries = before ++ entry :: after ∧ entry.key = key ∧
          next.HoldsIndexBeside place allowed others root whole (before ++ after) ∧
          pages.Balanced used next (whole ++ leaked) ∧
          (∀ page, others page → next.content page = pages.content page) ∧
          (leaked = [] ∨ ∃ page child, pages.descendIndexTree compareKeys key maxPagesVisited [] root =
              .ok (.interiorMatch page child) ∧ pages.Lost child entry leaked) := by
  obtain ⟨res, found⟩ := index.reads.descend_ok compareKeys key maxPagesVisited [] within
  have landed := index.toReadsIndex.descend order keyOk found
  -- Fewer entries of an index in order are in order, and the pages in use still are apart.
  have assemble : ∀ {next whole leaked before entry after}, entries = before ++ entry :: after →
      Reduced others pages used next root whole leaked (before ++ after) →
      next.HoldsIndexBeside place allowed others root whole (before ++ after) := by
    rintro next whole leaked before entry after rfl reduced
    have kept := index.toRoom.balanced (reduced.balanced.perm perm_append_comm)
    refine ⟨⟨reduced.reads, index.ascends.without, fun held mem => index.allows held ?_⟩, kept.part⟩
    rw [mem_append, mem_cons]
    rcases mem_append.mp mem with first | last
    · exact .inl first
    · exact .inr (.inr last)
  unfold Pages.deleteEntry
  rw [found]
  cases res with
  | leaf ancestors leaf =>
    obtain ⟨pathUsed, front, back, layout, atLeaf⟩ := landed
    rcases atLeaf.deleteFromLeaf geom order keyOk
         index.ascends index.allows index.toRoom with
      absent | ⟨next, whole, before, entry, after, done, cut, same, regrown⟩
    · exact .inl absent
    have reduced := Reduced.of_regrown regrown
    exact .inr ⟨next, whole, [], before, entry, after, done, cut, same, assemble cut reduced,
      reduced.balanced, reduced.same, .inl rfl⟩
  | interiorMatch page child =>
    obtain ⟨ancestors, pathUsed, front, back, earlier, later, entry, rightmost, atEntry⟩ := landed
    obtain ⟨next, whole, leaked, before, after, done, cut, reduced, lost⟩ :=
      atEntry.deleteViaPredecessorSwap geom index.toRoom within
    have mem : entry ∈ entries := cut ▸ mem_append_right _ (.head _)
    exact .inr ⟨next, whole, leaked, before, entry, after, done, cut,
      order.faithful _ _ (index.allows entry mem) keyOk atEntry.same, assemble cut reduced,
      reduced.balanced, reduced.same, .inr ⟨page, child, rfl, lost⟩⟩

end Delete

end Pages

end SqliteRs
