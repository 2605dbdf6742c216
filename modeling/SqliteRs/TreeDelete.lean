import SqliteRs.TreeReading
import SqliteRs.PageSafety
import SqliteRs.PageLedger

/-!
Deleting a row from a well-formed table leaves a well-formed table without the
row: a leaf loses a cell, or an emptied leaf leaves its parent, and a parent left
with one child gives way to it. Pages outside the tree keep their content, and
pages that do not lead to the row keep theirs or are freed.
-/

namespace SqliteRs

open List Option Layout Pages Balanced Route

variable {ρ κ : Type} {geom : Geometry}

section Routes

variable {span child : Span} {routes : List Route} {rightmost : Nat} {left right : List Span}

theorem Span.Divides.sublist {fewer : List Route} (keys : span.Divides routes)
    (sublist : fewer.Sublist routes) : span.Divides fewer :=
  ⟨fun route mem => keys.inside route (sublist.subset mem), keys.ascending.sublist sublist⟩

theorem Span.Divides.of_keys {others : List Route} (keys : span.Divides routes)
    (same : others.map key = routes.map key) : span.Divides others := by
  constructor
  · intro route mem
    have listed : route.key ∈ routes.map Route.key := same ▸ mem_map.mpr ⟨route, mem, rfl⟩
    obtain ⟨held, inside, equal⟩ := mem_map.mp listed
    exact equal ▸ keys.inside held inside
  · apply pairwise_map.mp
    rw [same]
    exact pairwise_map.mpr keys.ascending

theorem dropRoute_cons (parent emptied : Nat) {route : Route} (other : route.child ≠ emptied)
    (more : routes ≠ []) : dropRoute parent (route :: routes) rightmost emptied =
      (dropRoute parent routes rightmost emptied).map fun (rest, last) => (route :: rest, last) := by
  have elsewhere : (route.child == emptied) = false := beq_eq_false_iff_ne.mpr other
  unfold dropRoute
  rw [any_cons, elsewhere, Bool.false_or,
    eraseP_cons_of_neg (by rw [elsewhere]; exact Bool.false_ne_true)]
  split
  · rfl
  split
  · obtain ⟨second, rest, rfl⟩ := exists_cons_of_ne_nil more
    rw [getLast?_cons_cons]
    split <;> rfl
  · rfl

theorem dropRoute_children {parent last : Nat} {rest : List Route} (keys : span.Divides routes)
    (split : span.children routes rightmost = left ++ child :: right)
    (others : ∀ sibling ∈ left, sibling.page ≠ child.page)
    (done : dropRoute parent routes rightmost child.page = .ok (rest, last)) :
    List.Forall₂ Span.Widens (span.children rest last) (left ++ right) := by
  induction routes generalizing span left rest with
  | nil =>
    unfold dropRoute at done
    rw [any_nil] at done
    simp only [Bool.false_eq_true, if_false] at done
    split at done <;> cases done
  | cons route tail ih =>
    have key := keys.inside route (.head _)
    cases left with
    | nil =>
      obtain ⟨rfl, rfl⟩ := cons.inj split
      unfold dropRoute at done
      rw [any_cons, beq_self_eq_true] at done
      rw [eraseP_cons_of_pos (by exact beq_self_eq_true _)] at done
      cases done
      have wider : span.Widens ⟨span.page, some route.key, span.high⟩ := ⟨rfl, fun rowid admitted =>
          ⟨fun low same => (key.1 low same).trans (admitted.1 _ rfl), admitted.2⟩⟩
      exact wider.children keys.tail
    | cons first left =>
      obtain ⟨rfl, onward⟩ := cons.inj split
      change _ = left ++ child :: right at onward
      have other : route.child ≠ child.page := others _ (.head _)
      by_cases more : tail = []
      · -- Only the rightmost child is left to drop, and the route's child takes its place.
        subst more
        obtain ⟨rfl, rfl⟩ : left = [] ∧ right = [] := by
          have length := congrArg length onward
          simp only [childSpans, length_append, length_cons, length_nil] at length
          constructor
          all_goals exact length_eq_zero_iff.mp (by omega)
        unfold dropRoute at done
        rw [any_cons, beq_eq_false_iff_ne.mpr other] at done
        simp only [any_nil, Bool.or_false, Bool.false_eq_true, if_false] at done
        split at done
        · cases done
          refine .cons ⟨rfl, fun rowid admitted => ⟨admitted.1, fun high same => ?_⟩⟩ .nil
          exact (admitted.2 _ rfl).trans (key.2 high same)
        · cases done
      · rw [dropRoute_cons parent child.page other more] at done
        cases dropped : dropRoute parent tail rightmost child.page with
        | error error =>
          rw [dropped] at done
          cases done
        | ok res =>
          rw [dropped] at done
          cases done
          have below := ih keys.tail onward
            (fun sibling mem => others sibling (.tail _ mem)) dropped
          exact .cons (.refl _) below

theorem replaceRoute_children {new : Nat}
    (split : span.children routes rightmost = left ++ child :: right)
    (others : ∀ sibling ∈ left, sibling.page ≠ child.page) :
    (∀ newer, replaceRoute child.page new routes = some newer → newer.map key = routes.map key ∧
        span.children newer rightmost = left ++ ⟨new, child.low, child.high⟩ :: right) ∧
    (replaceRoute child.page new routes = none → rightmost = child.page →
      span.children routes new = left ++ ⟨new, child.low, child.high⟩ :: right) := by
  induction routes generalizing span left with
  | nil =>
    constructor
    · intro newer done
      cases done
    intro _ same
    cases left with
    | nil =>
      obtain ⟨rfl, rfl⟩ := cons.inj split
      rfl
    | cons first left =>
      obtain ⟨_, rest⟩ := cons.inj split
      exact absurd rest.symm (append_ne_nil_of_right_ne_nil _ (cons_ne_nil _ _))
  | cons route tail ih =>
    unfold replaceRoute
    cases left with
    | nil =>
      obtain ⟨rfl, rfl⟩ := cons.inj split
      rw [if_pos rfl]
      constructor
      · intro newer done
        cases done
        exact ⟨rfl, rfl⟩
      · intro missing
        cases missing
    | cons first left =>
      obtain ⟨rfl, rest⟩ := cons.inj split
      rw [if_neg (others _ (.head _))]
      have below := @ih ⟨span.page, some route.key, span.high⟩ _ rest
        fun sibling mem => others sibling (.tail _ mem)
      constructor
      · intro newer done
        obtain ⟨later, found, rfl⟩ := map_eq_some_iff.mp done
        obtain ⟨same, whole⟩ := below.1 later found
        constructor
        · rw [map_cons, map_cons, same]
        · rw [cons_append, ← whole]
          rfl
      · intro missing same
        rw [cons_append, ← below.2 (map_eq_none_iff.mp missing) same]
        rfl

end Routes

section Rows

variable {front cells back : List (LeafCell ρ)} {rowid : Int}

def withoutRow (rowid : Int) (cells : List (LeafCell ρ)) : List (LeafCell ρ) :=
  cells.filter fun cell => decide (cell.rowid ≠ rowid)

theorem withoutRow_sublist (rowid : Int) (cells : List (LeafCell ρ)) :
    (withoutRow rowid cells).Sublist cells := filter_sublist

theorem withoutRow_of_absent (absent : ∀ cell ∈ cells, cell.rowid ≠ rowid) :
    withoutRow rowid cells = cells :=
  filter_eq_self.mpr fun cell mem => decide_eq_true (absent cell mem)

theorem withoutRow_between (before : ∀ cell ∈ front, cell.rowid < rowid)
    (after : ∀ cell ∈ back, rowid < cell.rowid) :
    withoutRow rowid (front ++ cells ++ back) = front ++ withoutRow rowid cells ++ back := by
  have low := withoutRow_of_absent fun cell mem => (before cell mem).ne
  have high := withoutRow_of_absent fun cell mem => (after cell mem).ne'
  unfold withoutRow at *
  rw [filter_append, filter_append, low, high]

theorem eraseIdx_row (asc : cells.Pairwise fun first second => first.rowid < second.rowid) :
    cells.eraseIdx (cells.findIdx fun cell => cell.rowid == rowid) = withoutRow rowid cells := by
  induction cells with
  | nil => rfl
  | cons cell rest ih =>
    obtain ⟨first, later⟩ := pairwise_cons.mp asc
    rw [findIdx_cons]
    by_cases here : cell.rowid = rowid
    · rw [beq_iff_eq.mpr here]
      have absent : ∀ other ∈ rest, other.rowid ≠ rowid :=
        fun other mem => here ▸ (first other mem).ne'
      rw [withoutRow, filter_cons_of_neg (by simpa using here)]
      exact (withoutRow_of_absent absent).symm
    · rw [beq_eq_false_iff_ne.mpr here, withoutRow, filter_cons_of_pos (by simpa using here)]
      exact congrArg (cell :: ·) (ih later)

end Rows

theorem Page.Copies.branches {copy content : Page ρ κ} (copies : copy.Copies content)
    (branches : content.Branches) : copy.Branches := by
  cases content with
  | tableLeaf layout =>
    obtain ⟨moved, rfl, _⟩ := copies
    trivial
  | tableInterior layout rightmost =>
    obtain ⟨moved, rfl, same⟩ := copies
    rw [Page.Branches, same]
    exact branches
  | blank | trunk | chain | keyChain | indexLeaf | indexInterior => cases copies

namespace Pages

variable {pages next : Pages ρ κ} {root leaf : Nat} {rowid : Int} {used ancestors : List Nat}
  {cells : List (LeafCell ρ)}

variable {hole : Span} {front back : List (LeafCell ρ)}

theorem Path.top_used {top : Span}
    (path : pages.Path top ancestors hole used front back) :
    (ancestors = [] ∧ hole = top ∧ used = [] ∧ front = [] ∧ back = []) ∨ top.page ∈ used := by
  induction path with
  | here => exact .inl ⟨rfl, rfl, rfl, rfl, rfl⟩
  | step _ _ _ _ _ _ ih =>
    right
    rcases ih with ⟨_, rfl, _⟩ | inside
    · exact .head _
    · exact mem_append_right _ inside

theorem HoldsTable.locate (table : pages.HoldsTable root used cells)
    (found : pages.findLeafPage rowid maxPagesVisited [] root = .ok (ancestors, leaf)) :
    ∃ hole pathUsed front back layout, hole.page = leaf ∧ hole.Admits rowid ∧
      pages.Path ⟨root, none, none⟩ ancestors hole pathUsed front back ∧
      pages.content leaf = .tableLeaf layout ∧
      (∀ cell ∈ layout.cells, pages.Intact cell ∧ hole.Admits cell.rowid) ∧
      (pathUsed ++ leaf :: chainPages layout.cells).Perm used ∧
      front ++ layout.cells ++ back = cells := by
  have anything : (⟨root, none, none⟩ : Span).Admits rowid :=
    ⟨fun _ none => (nomatch none), fun _ none => nomatch none⟩
  have located := Path.here.descend maxPagesVisited anything table.reads found
  rwa [append_nil] at located

theorem Path.rebuild {pathUsed holeUsed : List Nat}
    (path : pages.Path ⟨root, none, none⟩ ancestors hole pathUsed front back)
    (reads : pages.Reads [hole] holeUsed cells) (nodup : (pathUsed ++ holeUsed).Nodup)
    (asc : (front ++ cells ++ back).Pairwise fun first second => first.rowid < second.rowid) :
    ∃ whole, whole.Perm (pathUsed ++ holeUsed) ∧
      pages.HoldsTable root whole (front ++ cells ++ back) := by
  obtain ⟨whole, perm, read⟩ := path.plug reads
  exact ⟨whole, perm, read, perm.nodup_iff.mpr nodup, asc⟩

section Freeing

variable {page : Nat}

theorem writeLeafPage_here (geom : Geometry) (page : Nat) (cells : List (LeafCell ρ))
    (pages : Pages ρ κ) : ∃ layout, (pages.writeLeafPage geom page cells).content page =
      .tableLeaf layout ∧ layout.cells = cells := by
  rw [writeLeafPage, set_content, if_pos rfl]
  exact ⟨_, rfl, writePageCommon_cells ..⟩

variable {chain : List Nat} {written : Nat}

theorem writeLeafPage_other (geom : Geometry) (cells : List (LeafCell ρ)) (other : page ≠ written) :
    (pages.writeLeafPage geom written cells).content page = pages.content page := by
  rw [writeLeafPage, set_content, if_neg other]

theorem writeInteriorPage_here (geom : Geometry) (page : Nat) (routes : List Route)
    (rightmost : Nat) (pages : Pages ρ κ) :
    ∃ layout, (pages.writeInteriorPage geom page routes rightmost).content page =
      .tableInterior layout rightmost ∧ layout.cells = routes := by
  rw [writeInteriorPage, set_content, if_pos rfl]
  exact ⟨_, rfl, writePageCommon_cells ..⟩

theorem writeInteriorPage_other (geom : Geometry) (routes : List Route)
    (rightmost : Nat) (other : page ≠ written) :
    (pages.writeInteriorPage geom written routes rightmost).content page = pages.content page := by
  rw [writeInteriorPage, set_content, if_neg other]

theorem deallocatePage_other (geom : Geometry) {freed : Nat} (other : page ≠ freed) :
    (pages.deallocatePage geom freed).content page = pages.content page := by
  rcases deallocatePage_content geom freed page pages with same | ⟨equal, _⟩
  · exact same
  · exact absurd equal other

theorem freeOverflowChain_other (geom : Geometry) (other : page ∉ chain) :
    (pages.freeOverflowChain geom chain).content page = pages.content page := by
  rcases freeOverflowChain_content geom chain page pages with same | ⟨inside, _⟩
  · exact same
  · exact absurd inside other

theorem releaseLeaf_other (geom : Geometry) (leafOther : page ≠ leaf) (other : page ∉ chain) :
    (pages.releaseLeaf geom leaf chain).content page = pages.content page := by
  rcases releaseLeaf_content geom leaf chain pages page with same | ⟨here | inside, _⟩
  · exact same
  · exact absurd here leafOther
  · exact absurd inside other

end Freeing

section Collapse

variable {front back : List (LeafCell ρ)}

theorem collapseRoot_inv {child : Nat} (done : collapseRoot geom root child pages = .ok next) :
    ∃ content : Page ρ κ, content.Copies (pages.content child) ∧
      next = (pages.set root content).deallocatePage geom child := by
  unfold collapseRoot at done
  split at done
  · rename_i layout here
    cases done
    rw [here]
    exact ⟨_, ⟨_, rfl, writePageCommon_cells ..⟩, rfl⟩
  · rename_i layout rightmost here
    cases done
    rw [here]
    exact ⟨_, ⟨_, rfl, writePageCommon_cells ..⟩, rfl⟩
  · cases done

variable {new : Nat}

theorem spliceChild_inv {span child : Span} {rest : List Nat}
    {layout : Layout Route} {rightmost : Nat} {left right : List Span}
    (content : pages.content span.page = .tableInterior layout rightmost)
    (keys : span.Divides layout.cells)
    (split : span.children layout.cells rightmost = left ++ child :: right)
    (others : ∀ sibling ∈ left, sibling.page ≠ child.page)
    (done : spliceChild geom (span.page :: rest) child.page new pages = .ok next) :
    ∃ written last, next = pages.set span.page (.tableInterior written last) ∧
      span.Divides written.cells ∧
      span.children written.cells last = left ++ ⟨new, child.low, child.high⟩ :: right := by
  obtain ⟨swapped, kept⟩ := @replaceRoute_children span child layout.cells rightmost left right new
    split others
  unfold spliceChild at done
  simp only [content] at done
  split at done
  · rename_i routes newer
    cases done
    obtain ⟨same, children⟩ := swapped routes newer
    refine ⟨_, rightmost, rfl, ?_, ?_⟩
    · rw [writePageCommon_cells]
      exact keys.of_keys same
    · rw [writePageCommon_cells, children]
  · rename_i missing
    split at done
    swap
    · cases done
    rename_i same
    cases done
    refine ⟨_, new, rfl, ?_, ?_⟩
    · rw [writePageCommon_cells]
      exact keys
    · rw [writePageCommon_cells, kept missing same]

theorem Reads.of_leaf {span : Span} {layout : Layout (LeafCell ρ)} {held : List (LeafCell ρ)}
    (here : pages.content span.page = .tableLeaf layout) (same : layout.cells = held)
    (intact : ∀ cell ∈ held, pages.Intact cell) (admitted : ∀ cell ∈ held, span.Admits cell.rowid) :
    pages.Reads [span] (span.page :: chainPages held) held := by
  subst same
  have reads := Reads.leaf here intact admitted .nil
  rwa [append_nil, append_nil] at reads

/-- One page of the tree is written anew. -/
theorem Path.put {hole : Span} {content : Page ρ κ} {below : List Nat}
    (path : pages.Path ⟨root, none, none⟩ ancestors hole used front back)
    (reads : ∀ stored : Pages ρ κ, (∀ page ∈ below, stored.content page = pages.content page) →
      stored.content hole.page = content → stored.Reads [hole] (hole.page :: below) cells)
    (branches : pages.Branching (used ++ hole.page :: below) → content.Branches)
    (asc : (front ++ cells ++ back).Pairwise fun first second => first.rowid < second.rowid)
    (nodup : (used ++ hole.page :: below).Nodup) :
    ∃ whole, whole.Perm (used ++ hole.page :: below) ∧
      (pages.set hole.page content).HoldsTable root whole (front ++ cells ++ back) ∧
      pages.Exchange (used ++ hole.page :: below) (pages.set hole.page content) whole := by
  obtain ⟨_, ownDistinct, disjoint⟩ := nodup_append.mp nodup
  have same : ∀ page, page ≠ hole.page →
      (pages.set hole.page content).content page = pages.content page :=
    fun page other => (set_content ..).trans (if_neg other)
  have here := (set_content pages hole.page content hole.page).trans (if_pos rfl)
  have own := reads _ (fun page mem => same page fun equal =>
    (nodup_cons.mp ownDistinct).1 (equal ▸ mem)) here
  obtain ⟨whole, uses, table⟩ := (path.congr fun page mem => same page
    (disjoint page mem _ (.head _))).rebuild own nodup asc
  refine ⟨whole, uses, table, ((refl pages _).set _ _).perm uses, fun held page mem => ?_⟩
  by_cases equal : page = hole.page
  · rw [equal, here]
    exact branches held
  · rw [same page equal]
    exact held page (uses.mem_iff.mp mem)

theorem Path.spliceChild {span : Span} {holeUsed : List Nat}
    (path : pages.Path ⟨root, none, none⟩ ancestors span used front back)
    (reads : pages.Reads [⟨new, span.low, span.high⟩] holeUsed cells)
    (nodup : (used ++ holeUsed).Nodup) (apart : span.page ∉ used ++ holeUsed)
    (asc : (front ++ cells ++ back).Pairwise fun first second => first.rowid < second.rowid)
    (done : spliceChild geom ancestors span.page new pages = .ok next) :
    ∃ whole, whole.Perm (used ++ holeUsed) ∧ next.HoldsTable root whole (front ++ cells ++ back) ∧
      pages.Exchange (used ++ holeUsed) next whole ∧
      ∀ page ∉ used, next.content page = pages.content page := by
  cases path with
  | here => cases done
  | @step above upperSpan _ upperUsed leftUsed rightUsed upperFront upperBack leftCells rightCells
      layout rightmost left right upper content keys split before after =>
    have others : ∀ sibling ∈ left, sibling.page ≠ span.page := by
      intro sibling mem same
      apply apart
      rw [← same]
      exact mem_append_left _ (mem_append_left _
        (.tail _ (mem_append_left _ (before.uses sibling mem))))
    obtain ⟨written, last, rfl, divided, children⟩ := spliceChild_inv content keys split others done
    have perm : (upperUsed ++ upperSpan.page :: (leftUsed ++ (holeUsed ++ rightUsed))).Perm
        (upperSpan.page :: (leftUsed ++ rightUsed) ++ upperUsed ++ holeUsed) := by
      rw [perm_iff_count]
      simp only [count_append, count_cons]
      omega
    have regroup : upperFront ++ leftCells ++ cells ++ (rightCells ++ upperBack) =
        upperFront ++ (leftCells ++ (cells ++ rightCells)) ++ upperBack := by
      simp [append_assoc]
    rw [regroup] at asc ⊢
    have filled : pages.Branching (upperUsed ++ upperSpan.page :: (leftUsed ++ (holeUsed ++
        rightUsed))) → written.cells ≠ [] := by
      intro branching none
      have some := branching upperSpan.page (mem_append_right _ (.head _))
      rw [content] at some
      have one := congrArg length (upperSpan.children_pages layout.cells rightmost)
      have two := congrArg length (upperSpan.children_pages written.cells last)
      rw [split] at one
      rw [children, none] at two
      simp only [length_map, length_append, length_cons, length_nil] at one two
      exact some (length_eq_zero_iff.mp (by omega))
    obtain ⟨whole, uses, table, exchange⟩ := upper.put (fun stored same here =>
      .node here divided (by
        rw [append_nil, children]
        apply (before.congr _).append ((reads.congr _).append (after.congr _))
        all_goals exact fun page mem => same page (by simp [mem]))) filled asc
      (perm.nodup_iff.mpr nodup)
    refine ⟨whole, uses.trans perm, table, exchange.perm_left perm.symm, fun page outside => ?_⟩
    exact (set_content ..).trans (if_neg fun equal : page = _ => outside (equal ▸ .head _))

theorem Path.collapse {hole : Span}
    (path : pages.Path ⟨root, none, none⟩ ancestors hole used front back) (nodup : used.Nodup)
    (apart : hole.page ∉ used)
    (asc : (front ++ back).Pairwise fun first second => first.rowid < second.rowid)
    (done : collapseIntoAncestors geom root ancestors hole.page pages = .ok next) :
    ∃ whole ⊆ used, next.HoldsTable root whole (front ++ back) ∧ pages.Exchange used next whole ∧
      ∀ page ∉ used, next.content page = pages.content page := by
  cases path with
  | here => cases done
  | @step above span _ upperUsed leftUsed rightUsed upperFront upperBack leftCells rightCells layout
      rightmost left right upper content keys split before after =>
    unfold collapseIntoAncestors at done
    simp only [content] at done
    split at done
    · cases done
    rename_i routes last dropped
    have others : ∀ sibling ∈ left, sibling.page ≠ hole.page := by
      intro sibling mem same
      apply apart
      rw [← same]
      exact mem_append_left _ (.tail _ (mem_append_left _ (before.uses sibling mem)))
    have siblings := (before.append after).widen (dropRoute_children keys split others dropped)
    have divided := keys.sublist (dropRoute_sublist dropped).1
    obtain ⟨ownDistinct, upperDistinct, disjoint⟩ := nodup_append.mp nodup
    obtain ⟨pageApart, siblingsDistinct⟩ := nodup_cons.mp ownDistinct
    have regroup : upperFront ++ leftCells ++ (rightCells ++ upperBack) =
        upperFront ++ (leftCells ++ rightCells) ++ upperBack := by
      simp [append_assoc]
    rw [regroup] at asc ⊢
    split at done
    -- The parent keeps a route: it is rewritten in place and nothing above changes.
    · rename_i more
      cases done
      obtain ⟨whole, perm, table, exchange⟩ := upper.put (fun stored same here => by
        rw [← writePageCommon_cells routeSize geom.pageLen routes] at divided siblings
        apply Reads.node here divided
        rw [append_nil]
        exact siblings.congr same) (fun _ => by rwa [Page.Branches, writePageCommon_cells]) asc
        (nodup_append_comm.mp nodup)
      have uses := perm.trans perm_append_comm
      refine ⟨whole, fun page mem => uses.mem_iff.mp mem, table,
        exchange.perm_left perm_append_comm, fun page outside =>
          writeInteriorPage_other geom _ _ fun equal => outside (equal ▸ .head _)⟩
    · rename_i noRoutes
      have empty : routes = [] := not_not.mp noRoutes
      rw [empty] at siblings
      split at done
      -- The root keeps its number, so its last child moves into it and is freed.
      · rename_i isRoot
        rcases upper.top_used with ⟨_, rfl, rfl, rfl, rfl⟩ | inside
        swap
        · exact absurd isRoot (disjoint span.page (.head _) root inside)
        obtain ⟨rest, uses, moved⟩ := @Reads.relocate ρ κ pages _ _ _
          (⟨root, none, none⟩ : Span) siblings fun _ admitted => admitted
        rw [uses] at pageApart siblingsDistinct
        have apart' : root ≠ last := fun same => pageApart (same ▸ .head _)
        obtain ⟨content, copies, rfl⟩ := collapseRoot_inv done
        have copied : (((pages.set root content).deallocatePage geom last).content root).Copies
            (pages.content last) := by
          rwa [deallocatePage_other geom apart', set_content, if_pos rfl]
        have same : ∀ page, page ≠ root → page ≠ last →
            ((pages.set root content).deallocatePage geom last).content page =
              pages.content page := by
          intro page notRoot notChild
          rw [deallocatePage_other geom notChild, set_content, if_neg notRoot]
        have read := moved _ (fun page mem => same page
          (fun equal => pageApart (equal ▸ .tail _ mem))
          fun equal => (nodup_cons.mp siblingsDistinct).1 (equal ▸ mem)) copied
        rw [uses, append_nil, append_nil]
        rw [append_nil] at asc
        refine ⟨root :: rest, ?_, ⟨read, ?_, asc⟩, ⟨?_, fun branching page mem => ?_⟩,
          fun page outside => same page ?_ ?_⟩
        · exact cons_subset_cons _ (subset_cons_self ..)
        · exact nodup_cons.mpr ⟨fun inside => pageApart (.tail _ inside),
            (nodup_cons.mp siblingsDistinct).2⟩
        · exact (((refl pages _).set root _).trans (balanced_deallocatePage last _ _)).perm_left
            (List.Perm.swap ..)
        · rcases mem_cons.mp mem with rfl | inside
          · exact copied.branches (branching last (.tail _ (.head _)))
          rw [same page (fun equal => pageApart (equal ▸ .tail _ inside))
            fun equal => (nodup_cons.mp siblingsDistinct).1 (equal ▸ inside)]
          exact branching page (.tail _ (.tail _ inside))
        · exact fun equal => outside (equal ▸ .head _)
        · exact fun equal => outside (equal ▸ .tail _ (.head _))
      -- Below the root the page is freed and its child spliced in one level up.
      · rename_i notRoot
        have below : ∀ page ∈ upperUsed ++ (leftUsed ++ rightUsed), page ≠ span.page := by
          intro page mem equal
          rcases mem_append.mp mem with above | sibling
          · exact disjoint span.page (.head _) page above equal.symm
          · exact pageApart (equal ▸ sibling)
        have freed : ∀ page, page ≠ span.page →
            (pages.deallocatePage geom span.page).content page = pages.content page :=
          fun page other => deallocatePage_other geom other
        have path := upper.congr fun page mem =>
          freed page (below page (mem_append_left _ mem))
        have own := siblings.congr fun page mem =>
          freed page (below page (mem_append_right _ mem))
        have fewer : (upperUsed ++ (leftUsed ++ rightUsed)).Nodup :=
          nodup_append_comm.mp (nodup_cons.mp nodup).2
        obtain ⟨whole, perm, table, exchange, same⟩ := path.spliceChild own fewer
          (fun mem => below _ mem rfl) asc done
        have swapped : (span.page :: (leftUsed ++ rightUsed) ++ upperUsed).Perm
            (span.page :: (upperUsed ++ (leftUsed ++ rightUsed))) :=
          perm_append_comm.cons span.page
        refine ⟨whole, fun page mem => ?_, table, ?_, fun page outside => ?_⟩
        · exact .tail _ (perm_append_comm.mem_iff.mp (perm.mem_iff.mp mem))
        · refine Exchange.trans (.of_content ((balanced_deallocatePage span.page pages
            _).perm_left swapped) fun page mem => .inl ⟨?_, freed page (below page mem)⟩) exchange
          exact swapped.mem_iff.mpr (.tail _ mem)
        · rw [same page fun inside => outside (mem_append_right _ inside)]
          exact freed page fun equal => outside (equal ▸ .head _)

end Collapse

section DeleteRow

variable {cell : LeafCell ρ} {inside : Nat → Prop} {held : LeafCell ρ → Prop}

theorem chainPages_perm {index : Nat} (held : cells[index]? = some cell) :
    (chainPages cells).Perm (cell.overflow ++ chainPages (cells.eraseIdx index)) := by
  obtain ⟨bound, rfl⟩ := List.getElem?_eq_some_iff.mp held
  exact ((getElem_cons_eraseIdx_perm bound).symm.flatMap_right LeafCell.overflow)

theorem getElem?_findIdx {test : LeafCell ρ → Bool} (found : cells.find? test = some cell) :
    cells[cells.findIdx test]? = some cell := by
  induction cells with
  | nil => cases found
  | cons first rest ih =>
    rw [findIdx_cons]
    cases holds : test first with
    | true =>
      rw [find?_cons_of_pos holds] at found
      exact found
    | false =>
      rw [find?_cons_of_neg (by rw [holds]; exact Bool.false_ne_true)] at found
      exact ih found

theorem HoldsTable.deleteRow (table : pages.HoldsTable root used cells)
    (done : deleteRow geom root rowid pages = .ok next) :
    (∃ whole ⊆ used, next.HoldsTable root whole (withoutRow rowid cells) ∧
      pages.Exchange used next whole) ∧ ∀ page ∉ used, next.content page = pages.content page := by
  unfold Pages.deleteRow at done
  split at done
  · cases done
  rename_i ancestors leaf found
  obtain ⟨hole, pathUsed, front, back, layout, rfl, admitted, path, content, held, perm, rfl⟩ :=
    table.locate found
  obtain ⟨before, after⟩ := path.ordered admitted
  have nodup := perm.nodup_iff.mpr table.distinct
  obtain ⟨pathDistinct, leafDistinct, disjoint⟩ := nodup_append.mp nodup
  obtain ⟨leafApart, chainDistinct⟩ := nodup_cons.mp leafDistinct
  have leafAscending := (pairwise_append.mp (pairwise_append.mp table.ascending).1).2.1
  have remaining := table.ascending.sublist (withoutRow_sublist rowid _)
  rw [withoutRow_between before after] at remaining ⊢
  simp only [content] at done
  split at done
  · cases done
  rename_i cell sought
  have pos := getElem?_findIdx sought
  have erased := @eraseIdx_row ρ layout.cells rowid leafAscending
  have chains := chainPages_perm pos
  rw [erased] at chains
  have chainApart : ∀ page ∈ cell.overflow, page ∉ chainPages (withoutRow rowid layout.cells) :=
    fun page mem inside => (nodup_append.mp (chains.nodup_iff.mp chainDistinct)).2.2
      page mem page inside rfl
  have pathApart : ∀ page ∈ pathUsed, page ≠ hole.page ∧ page ∉ cell.overflow := by
    intro page mem
    refine ⟨disjoint page mem _ (.head _), fun inside => ?_⟩
    exact disjoint page mem page (.tail _ (chains.mem_iff.mpr (mem_append_left _ inside))) rfl
  have leafOwn : hole.page ∉ cell.overflow := fun inside =>
    leafApart (chains.mem_iff.mpr (mem_append_left _ inside))
  split at done
  -- The leaf keeps a row or is the root: the cell is cut out of it where it is.
  · split at done
    · cases done
    rename_i spliced cut
    cases done
    have kept : spliced.cells = withoutRow rowid layout.cells :=
      (spliceDeleteCell_cells cut).trans erased
    have subset := (withoutRow_sublist rowid layout.cells).subset
    have fewer : (pathUsed ++ hole.page :: chainPages (withoutRow rowid layout.cells)).Sublist
        (pathUsed ++ hole.page :: (cell.overflow ++ chainPages (withoutRow rowid layout.cells))) :=
      (List.Sublist.refl _).append ((sublist_append_right _ _).cons_cons _)
    have regrouped : (pathUsed ++ hole.page :: (cell.overflow ++
        chainPages (withoutRow rowid layout.cells))).Perm used :=
      (((chains.symm.cons hole.page).append_left pathUsed)).trans perm
    obtain ⟨whole, uses, rebuilt, exchange⟩ := path.put (fun stored same here => .of_leaf here kept
      (fun mem inside => (held mem (subset inside)).1.congr fun page chained =>
        same page (mem_flatMap.mpr ⟨mem, inside, chained⟩))
      fun mem inside => (held mem (subset inside)).2) (fun _ => trivial) remaining
      (fewer.nodup (regrouped.nodup_iff.mpr table.distinct))
    have spared : ∀ page ∈ whole, page ∉ cell.overflow := by
      intro page mem
      rcases mem_append.mp (uses.mem_iff.mp mem) with above | below
      · exact (pathApart page above).2
      rcases mem_cons.mp below with rfl | left
      · exact leafOwn
      · exact fun chained => chainApart page chained left
    have freed := @balanced_freeOverflowChain ρ κ geom cell.overflow
      (pages.set hole.page (.tableLeaf spliced))
      (pathUsed ++ hole.page :: chainPages (withoutRow rowid layout.cells))
    have chained : (cell.overflow ++ (pathUsed ++ hole.page ::
        chainPages (withoutRow rowid layout.cells))).Perm used := by
      refine .trans ?_ regrouped
      rw [perm_iff_count]
      simp only [count_append, count_cons]
      omega
    refine ⟨⟨whole, fun page mem => ?_, rebuilt.congr fun page mem =>
      freeOverflowChain_other geom (spared page mem), ?_, fun branching page mem => ?_⟩,
      fun page outside => ?_⟩
    · exact regrouped.mem_iff.mp (fewer.subset (uses.mem_iff.mp mem))
    · exact (((refl pages _).set _ _).trans freed).perm uses |>.perm_left chained.symm
    · rw [freeOverflowChain_other geom (spared page mem)]
      exact exchange.branching (fun page inside =>
        branching page (regrouped.mem_iff.mp (fewer.subset inside))) page mem
    · rw [freeOverflowChain_other geom fun inside => outside (regrouped.mem_iff.mp (by simp [inside])),
        set_content, if_neg fun equal => outside (regrouped.mem_iff.mp (by simp [equal]))]
  -- The last row of a leaf under an ancestor: the leaf is freed, the route to it dropped.
  · rename_i alone
    rw [not_or] at alone
    have single : layout.cells = [cell] := by
      have mem := mem_of_find?_eq_some sought
      match layout.cells, alone.1, mem with
      | [only], _, mem => rw [mem_singleton.mp mem]
      | _ :: _ :: _, many, _ => exact absurd (by simp) many
    have emptied : withoutRow rowid layout.cells = [] := by
      have named := find?_some sought
      rw [← erased, single, findIdx_cons, named]
      rfl
    rw [emptied, append_nil] at remaining ⊢
    have freed : ∀ page, page ≠ hole.page → page ∉ cell.overflow →
        (pages.releaseLeaf geom hole.page cell.overflow).content page =
          pages.content page := fun page notLeaf notChain =>
      releaseLeaf_other geom notLeaf notChain
    obtain ⟨whole, uses, rebuilt, exchange, same⟩ := (path.congr fun page mem =>
      freed page (pathApart page mem).1 (pathApart page mem).2).collapse pathDistinct
        (fun inside => (pathApart _ inside).1 rfl) remaining done
    have chained : (hole.page :: (cell.overflow ++ pathUsed)).Perm used := by
      refine .trans ?_ perm
      rw [single, perm_iff_count]
      simp only [count_append, count_cons, chainPages, flatMap_cons, flatMap_nil, append_nil]
      omega
    refine ⟨⟨whole, fun page mem => ?_, rebuilt, ?_⟩, fun page outside => ?_⟩
    · exact perm.mem_iff.mp (mem_append_left _ (uses mem))
    · have released : pages.Balanced used (pages.releaseLeaf geom hole.page cell.overflow)
          pathUsed := by
        refine perm_left (.trans (.trans ((refl pages _).set _ _)
          (balanced_deallocatePage hole.page _ _)) (balanced_freeOverflowChain cell.overflow _ _))
            chained.symm
      refine Exchange.trans (.of_content released fun page mem => .inl ⟨?_, ?_⟩) exchange
      · exact perm.mem_iff.mp (mem_append_left _ mem)
      · exact freed page (pathApart page mem).1 (pathApart page mem).2
    · have apart : page ∉ pathUsed ++ hole.page :: chainPages layout.cells :=
        fun inside => outside (perm.mem_iff.mp inside)
      rw [same page fun inside => apart (mem_append_left _ inside)]
      apply freed page
      · exact fun equal => apart (by simp [equal])
      intro inside
      have listed := chains.mem_iff.mpr (mem_append_left _ inside)
      exact apart (mem_append_right _ (.tail _ listed))

/-- A page keeps its content or becomes a trunk of the free list. -/
def KeptOrFreed (before after : Pages ρ κ) (page : Nat) : Prop :=
  after.content page = before.content page ∨ after.content page = .trunk

theorem KeptOrFreed.trans {first second third : Pages ρ κ} {page : Nat}
    (one : KeptOrFreed first second page) (two : KeptOrFreed second third page) :
    KeptOrFreed first third page := by
  rcases two with same | freed
  · rcases one with kept | trunk
    · exact .inl (same.trans kept)
    · exact .inr (same.trans trunk)
  · exact .inr freed

theorem KeptOrFreed.deallocatePage (geom : Geometry) (freed page : Nat) :
    KeptOrFreed pages (pages.deallocatePage geom freed) page := by
  rcases deallocatePage_content geom freed page pages with same | ⟨_, trunk⟩
  · exact .inl same
  · exact .inr trunk

theorem KeptOrFreed.freeOverflowChain (geom : Geometry) (chain : List Nat) (page : Nat) :
    KeptOrFreed pages (pages.freeOverflowChain geom chain) page := by
  rcases freeOverflowChain_content geom chain page pages with same | ⟨_, trunk⟩
  · exact .inl same
  · exact .inr trunk

theorem findLeafPage_closed (closed : pages.Closed inside held) (budget : Nat) {before : List Nat}
    {page : Nat} (found : pages.findLeafPage rowid budget before page = .ok (ancestors, leaf)) :
    (∀ ancestor ∈ ancestors, ancestor ∈ before ∨ (inside ancestor → inside leaf)) ∧
      (inside page → inside leaf) := by
  induction budget generalizing before page with
  | zero => cases found
  | succ budget ih =>
    unfold findLeafPage at found
    split at found
    · cases found
      exact ⟨fun ancestor mem => .inl mem, fun inside => inside⟩
    · rename_i layout rightmost here
      obtain ⟨path, last⟩ := ih found
      have onward : inside page → inside leaf := by
        intro mem
        obtain ⟨ends, children⟩ := closed.interior page layout rightmost mem here
        apply last
        unfold routeFor
        split
        · rename_i route sought
          exact children route (mem_of_find?_eq_some sought)
        · exact ends
      refine ⟨fun ancestor mem => ?_, onward⟩
      rcases path ancestor mem with old | rest
      · rcases mem_cons.mp old with rfl | old
        · exact .inr onward
        · exact .inl old
      · exact .inr rest
    · cases found

theorem collapseIntoAncestors_keeps {emptied page : Nat} (other : page ∉ ancestors)
    (done : collapseIntoAncestors geom root ancestors emptied pages = .ok next) :
    KeptOrFreed pages next page := by
  unfold collapseIntoAncestors at done
  split at done
  · cases done
  rename_i parent rest
  rw [mem_cons, not_or] at other
  split at done
  swap
  · cases done
  split at done
  · cases done
  rename_i routes last _
  split at done
  · cases done
    exact .inl (writeInteriorPage_other geom _ _ other.1)
  split at done
  · rename_i same
    rw [← same] at done
    unfold collapseRoot at done
    split at done
    · cases done
      exact .trans (.inl (writeLeafPage_other geom _ other.1)) (.deallocatePage ..)
    · cases done
      exact .trans (.inl (writeInteriorPage_other geom _ _ other.1)) (.deallocatePage ..)
    · cases done
  · apply KeptOrFreed.trans (.deallocatePage geom parent page)
    unfold spliceChild at done
    split at done
    · cases done
    rw [mem_cons, not_or] at other
    split at done
    swap
    · cases done
    split at done
    · cases done
      exact .inl (writeInteriorPage_other geom _ _ other.2.1)
    split at done
    · cases done
      exact .inl (writeInteriorPage_other geom _ _ other.2.1)
    · cases done

theorem deleteRow_keeps (closed : pages.Closed inside held)
    (absent : ∀ cell, held cell → cell.rowid ≠ rowid)
    (done : deleteRow geom root rowid pages = .ok next) {page : Nat} (mem : inside page) :
    KeptOrFreed pages next page := by
  unfold deleteRow at done
  split at done
  · cases done
  rename_i ancestors leaf found
  split at done
  swap
  · cases done
  rename_i layout here
  split at done
  · cases done
  rename_i cell sought
  have outside : ¬ inside leaf := by
    intro leafInside
    apply absent cell
    · exact closed.leaf leaf layout leafInside here cell (mem_of_find?_eq_some sought)
    · have named := find?_some sought
      exact beq_iff_eq.mp named
  have leafOther : page ≠ leaf := fun same => outside (same ▸ mem)
  have pathOther : page ∉ ancestors := by
    intro listed
    rcases (findLeafPage_closed closed maxPagesVisited found).1 page listed with none | leads
    · cases none
    · exact outside (leads mem)
  split at done
  · simp only at done
    split at done
    · cases done
    cases done
    apply KeptOrFreed.trans _ (.freeOverflowChain geom cell.overflow page)
    exact .inl (by rw [set_content, if_neg leafOther])
  · apply KeptOrFreed.trans _ (collapseIntoAncestors_keeps pathOther done)
    apply KeptOrFreed.trans _ (.freeOverflowChain geom cell.overflow page)
    apply KeptOrFreed.trans _ (.deallocatePage geom leaf page)
    exact .inl (writeLeafPage_other geom _ leafOther)

end DeleteRow

end Pages

end SqliteRs
