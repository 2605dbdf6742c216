import SqliteRs.TreeDelete

/-!
Inserting a row into a well-formed table gives a well-formed table with the row
in its place. A full leaf is cut in two, the cut goes up as far as the parents
are full, and the root keeps its page; every page that a cut needs is one that
nothing used.
-/

namespace SqliteRs

open List Option Layout Pages Reads Page

variable {ρ κ : Type} {geom : Geometry}

section Cells

variable {front cells back : List (LeafCell ρ)} {cell : LeafCell ρ}

def placeCell (cell : LeafCell ρ) (cells : List (LeafCell ρ)) : List (LeafCell ρ) :=
  cells.insertIdx (cells.findIdx fun held => decide (cell.rowid < held.rowid)) cell

theorem placeCell_cons (cell first : LeafCell ρ) (rest : List (LeafCell ρ)) :
    placeCell cell (first :: rest) =
      if cell.rowid < first.rowid then cell :: first :: rest else first :: placeCell cell rest := by
  unfold placeCell
  rw [findIdx_cons]
  split
  · rename_i less
    rw [decide_eq_true less]
    rfl
  · rename_i more
    rw [decide_eq_false more]
    rfl

theorem placeCell_before (after : ∀ held ∈ cells, cell.rowid < held.rowid) :
    placeCell cell cells = cell :: cells := by
  cases cells with
  | nil => rfl
  | cons first rest => rw [placeCell_cons, if_pos (after first (.head _))]

theorem placeCell_between (before : ∀ held ∈ front, held.rowid < cell.rowid)
    (after : ∀ held ∈ back, cell.rowid < held.rowid) :
    placeCell cell (front ++ cells ++ back) = front ++ placeCell cell cells ++ back := by
  induction front with
  | nil =>
    simp only [nil_append]
    induction cells with
    | nil => exact placeCell_before after
    | cons first rest ih =>
      rw [cons_append, placeCell_cons, placeCell_cons, ih]
      split <;> rfl
  | cons first rest ih =>
    rw [cons_append, cons_append, placeCell_cons,
      if_neg (before first (.head _)).not_gt, ih fun held mem => before held (.tail _ mem)]
    rfl

theorem placeCell_perm (cell : LeafCell ρ) (cells : List (LeafCell ρ)) :
    (placeCell cell cells).Perm (cell :: cells) :=
  perm_insertIdx cell cells findIdx_le_length

theorem placeCell_ascending (asc : cells.Pairwise fun first second => first.rowid < second.rowid)
    (fresh : ∀ held ∈ cells, held.rowid ≠ cell.rowid) :
    (placeCell cell cells).Pairwise fun first second => first.rowid < second.rowid := by
  induction cells with
  | nil => exact pairwise_singleton ..
  | cons first rest ih =>
    obtain ⟨least, later⟩ := pairwise_cons.mp asc
    rw [placeCell_cons]
    split
    · rename_i less
      apply pairwise_cons.mpr
      refine ⟨fun held mem => ?_, asc⟩
      rcases mem_cons.mp mem with rfl | inside
      · exact less
      · exact less.trans (least held inside)
    · rename_i more
      have greater : first.rowid < cell.rowid :=
        lt_of_le_of_ne (not_lt.mp more) (fresh first (.head _))
      constructor
      · intro held mem
        rcases mem_cons.mp ((placeCell_perm cell rest).mem_iff.mp mem) with rfl | inside
        · exact greater
        · exact least held inside
      · exact ih later fun held mem => fresh held (.tail _ mem)

end Cells

section Routes

variable {span child : Span} {routes : List Route} {rightmost : Nat} {left right : List Span}

theorem Span.Divides.nil (span : Span) : span.Divides [] :=
  ⟨fun _ mem => (nomatch mem), Pairwise.nil⟩

theorem Span.Divides.cons {route : Route} (admitted : span.Admits route.key)
    (rest : (⟨span.page, some route.key, span.high⟩ : Span).Divides routes) :
    span.Divides (route :: routes) := by
  have above : ∀ other ∈ routes, route.key < other.key :=
    fun other mem => (rest.inside other mem).1 _ rfl
  constructor
  · intro other mem
    rcases mem_cons.mp mem with rfl | later
    · exact admitted
    · refine ⟨fun low same => ?_, (rest.inside other later).2⟩
      exact (admitted.1 low same).trans (above other later)
  · exact pairwise_cons.mpr ⟨above, rest.ascending⟩

variable {new last pos : Nat} {divider : Int} {split : List Route} {median : Route}

section

variable (keys : span.Divides routes)
  (whole : span.children routes rightmost = left ++ child :: right)
  (others : ∀ sibling ∈ left, sibling.page ≠ child.page) (admitted : child.Admits divider)
  (below : ∀ high ∈ child.high, divider < high)

include keys whole others admitted below

theorem splitRoute_children : (∀ split, Pages.splitRoute child.page new divider routes = some split →
      span.Divides split ∧ span.children split rightmost = left ++
        ⟨child.page, child.low, some divider⟩ :: ⟨new, some divider, child.high⟩ :: right) ∧
    (Pages.splitRoute child.page new divider routes = none → rightmost = child.page →
      span.Divides (routes ++ [⟨child.page, divider⟩]) ∧
        span.children (routes ++ [⟨child.page, divider⟩]) new = left ++
          ⟨child.page, child.low, some divider⟩ :: ⟨new, some divider, child.high⟩ :: right) := by
  induction routes generalizing span left with
  | nil =>
    constructor
    · intro split done
      cases done
    intro _ same
    cases left with
    | nil =>
      obtain ⟨rfl, rfl⟩ := cons.inj whole
      exact ⟨.cons admitted (.nil _), rfl⟩
    | cons first left =>
      obtain ⟨_, rest⟩ := cons.inj whole
      exact absurd rest.symm (append_ne_nil_of_right_ne_nil _ (cons_ne_nil _ _))
  | cons route tail ih =>
    have key := keys.inside route (.head _)
    unfold splitRoute
    cases left with
    | nil =>
      obtain ⟨rfl, rfl⟩ := cons.inj whole
      rw [if_pos rfl]
      constructor
      · intro split done
        cases done
        refine ⟨.cons ⟨admitted.1, fun high same => ?_⟩ (.cons ⟨fun low same => ?_, key.2⟩ ?_), rfl⟩
        · exact (admitted.2 _ rfl).trans (key.2 high same)
        · cases same
          exact below _ rfl
        · exact keys.tail
      · intro missing
        cases missing
    | cons first left =>
      obtain ⟨rfl, rest⟩ := cons.inj whole
      rw [if_neg (others _ (.head _))]
      have inner := @ih ⟨span.page, some route.key, span.high⟩ _ keys.tail rest
        fun sibling mem => others sibling (.tail _ mem)
      constructor
      · intro split done
        obtain ⟨later, found, rfl⟩ := map_eq_some_iff.mp done
        obtain ⟨divided, children⟩ := inner.1 later found
        refine ⟨.cons key divided, ?_⟩
        exact congrArg (cons ⟨route.child, span.low, some route.key⟩) children
      · intro missing same
        obtain ⟨divided, children⟩ := inner.2 (map_eq_none_iff.mp missing) same
        refine ⟨.cons key divided, ?_⟩
        exact congrArg (cons ⟨route.child, span.low, some route.key⟩) children

theorem splitRoutes_children
    (done : Pages.splitRoutes routes rightmost child.page new divider = some (split, last)) :
    span.Divides split ∧ span.children split last = left ++
      ⟨child.page, child.low, some divider⟩ :: ⟨new, some divider, child.high⟩ :: right := by
  obtain ⟨inside, atEnd⟩ := @splitRoute_children span child routes rightmost left right new divider
    keys whole others admitted below
  unfold splitRoutes at done
  split at done
  · rename_i found
    cases done
    exact inside _ found
  rename_i missing
  split at done
  · rename_i same
    cases done
    exact atEnd missing same
  · cases done

end

theorem splitRoutes_ne_nil {old : Nat}
    (done : Pages.splitRoutes routes rightmost old new divider = some (split, last)) : split ≠ [] := by
  obtain ⟨⟨pos, bound, sizes⟩, _⟩ := splitRoutes_sizes done
  rintro rfl
  have length := congrArg length sizes
  rw [length_insertIdx_of_le_length (by rwa [length_map])] at length
  cases length

theorem children_cut (parent other : Nat) (held : routes[pos]? = some median) :
    span.children routes rightmost =
      (⟨parent, span.low, some median.key⟩ : Span).children (routes.take pos) median.child ++
        (⟨other, some median.key, span.high⟩ : Span).children (routes.drop (pos + 1)) rightmost := by
  induction pos generalizing span routes with
  | zero =>
    cases routes with
    | nil => cases held
    | cons route rest =>
      cases held
      rfl
  | succ pos ih =>
    cases routes with
    | nil => cases held
    | cons route rest =>
      have below := @ih ⟨span.page, some route.key, span.high⟩ rest held
      exact congrArg (⟨route.child, span.low, some route.key⟩ :: ·) below

theorem cut_at (held : routes[pos]? = some median) :
    routes = routes.take pos ++ median :: routes.drop (pos + 1) := by
  obtain ⟨bound, rfl⟩ := List.getElem?_eq_some_iff.mp held
  rw [← drop_eq_getElem_cons bound, take_append_drop]

theorem Span.Divides.cut (parent other : Nat) (keys : span.Divides routes)
    (held : routes[pos]? = some median) :
    (⟨parent, span.low, some median.key⟩ : Span).Divides (routes.take pos) ∧
      (⟨other, some median.key, span.high⟩ : Span).Divides (routes.drop (pos + 1)) := by
  have asc := keys.ascending
  rw [cut_at held] at asc
  obtain ⟨lower, upper, across⟩ := pairwise_append.mp asc
  obtain ⟨above, higher⟩ := pairwise_cons.mp upper
  constructor
  · refine ⟨fun route mem => ⟨?_, fun high same => ?_⟩, lower⟩
    · exact (keys.inside route (mem_of_mem_take mem)).1
    · cases same
      exact (across route mem median (.head _)).le
  · refine ⟨fun route mem => ⟨fun low same => ?_, ?_⟩, higher⟩
    · cases same
      exact above route mem
    · exact (keys.inside route (mem_of_mem_drop mem)).2

theorem Span.Divides.below (keys : span.Divides routes) (held : routes[pos]? = some median)
    (more : pos + 1 < routes.length) : ∀ high ∈ span.high, median.key < high := by
  intro high same
  have next : routes[pos + 1] ∈ routes.drop (pos + 1) := by
    rw [drop_eq_getElem_cons more]
    exact .head _
  have above := ((keys.cut span.page span.page held).2.inside _ next).1 _ rfl
  exact above.trans_le ((keys.inside _ (mem_of_mem_drop next)).2 high same)

end Routes

namespace Pages

/-- A table beside other pages in use: neither shares a page with the other or the free list. -/
structure HoldsTableBeside (others : Nat → Prop) (pages : Pages ρ κ) (root : Nat) (used : List Nat)
    (cells : List (LeafCell ρ)) : Prop extends pages.HoldsTable root used cells where
  spares : pages.Spares fun page => others page ∨ page ∈ used
  apart : ∀ page ∈ used, ¬ others page

/-- What a change leaves: a table with these cells, in pages that balance with the
free list, and the pages of others as they were. -/
abbrev Leaves (others : Nat → Prop) (pages : Pages ρ κ) (used : List Nat) (next : Pages ρ κ)
    (root : Nat) (cells : List (LeafCell ρ)) : Prop :=
  ∃ whole, next.HoldsTableBeside others root whole cells ∧ pages.Exchange used next whole ∧
    ∀ page, others page → next.content page = pages.content page

section Split

variable {pages next : Pages ρ κ} {root : Nat} {others : Nat → Prop} {cells : List (LeafCell ρ)}

theorem rootSplit_content {right : Nat} {divider : Int} (apart : root ≠ pages.allocatePage.1)
    (done : rootSplit geom root right divider pages = .ok next) :
    (next.content pages.allocatePage.1).Copies (pages.content root) ∧
      (∃ layout, next.content root = .tableInterior layout right ∧
        layout.cells = [⟨pages.allocatePage.1, divider⟩]) ∧
      (∀ page, page ≠ root → page ≠ pages.allocatePage.1 → next.content page = pages.content page) ∧
      (∀ used, pages.Balanced used next (pages.allocatePage.1 :: used)) ∧
      ∀ used, Room others pages.allocatePage.2 used → Room others next used := by
  have moved : ∃ content : Page ρ κ, content.Copies (pages.content root) ∧
      next = (pages.allocatePage.2.set pages.allocatePage.1 content).writeInteriorPage geom root
        [⟨pages.allocatePage.1, divider⟩] right := by
    unfold rootSplit at done
    split at done
    on_goal 3 => cases done
    all_goals
      rename_i here
      rw [here]
      exact ⟨_, ⟨_, rfl, writePageCommon_cells ..⟩, (Except.ok.inj done).symm⟩
  obtain ⟨content, copies, rfl⟩ := moved
  refine ⟨?_, writeInteriorPage_here .., fun page notRoot notNew => ?_,
    fun used => ((balanced_allocatePage pages used).set _ _).set _ _,
    fun used room => (room.set _ _).set _ _⟩
  · rw [writeInteriorPage_other geom _ _ apart.symm]
    simpa using copies
  · rw [writeInteriorPage_other geom _ _ notRoot]
    simp [notNew, allocatePage_other notNew]

theorem Reads.rootSplit {new : Nat} {divider : Int} {used : List Nat}
    (reads : pages.Reads [⟨root, none, some divider⟩, ⟨new, some divider, none⟩] used cells)
    (asc : cells.Pairwise fun first second => first.rowid < second.rowid)
    (room : Room others pages used) (done : rootSplit geom root new divider pages = .ok next) :
    Leaves others pages used next root cells := by
  obtain ⟨unused, notOther, alloc⟩ := room.allocatePage
  obtain ⟨leftUsed, rightUsed, leftCells, rightCells, rfl, rfl, left, right⟩ :=
    (show pages.Reads ([⟨root, none, some divider⟩] ++ [⟨new, some divider, none⟩]) _ _ from
      reads).split
  obtain ⟨rest, rfl, moved⟩ := @Reads.relocate ρ κ pages _ _ _
    (⟨pages.allocatePage.1, none, some divider⟩ : Span) left fun _ admitted => admitted
  have rootFresh : root ≠ pages.allocatePage.1 := fun same => unused (same ▸ .head _)
  obtain ⟨copied, ⟨layout, here, routes⟩, same, balanced, kept⟩ := rootSplit_content rootFresh done
  have rootApart := (nodup_cons.mp room.distinct).1
  have untouched : ∀ page ∈ rest ++ rightUsed, next.content page = pages.content page := by
    intro page mem
    apply same page
    · exact fun equal => rootApart (equal ▸ mem)
    · exact fun equal => unused (equal ▸ .tail _ mem)
  have first := moved next (fun page mem => untouched page (mem_append_left _ mem)) copied
  have second := right.congr fun page mem => untouched page (mem_append_right _ mem)
  have divides : (⟨root, none, none⟩ : Span).Divides layout.cells := by
    rw [routes]
    exact .cons ⟨fun _ none => (nomatch none), fun _ none => nomatch none⟩ (.nil _)
  have children : next.Reads ((⟨root, none, none⟩ : Span).children layout.cells new ++ [])
      (pages.allocatePage.1 :: rest ++ rightUsed) (leftCells ++ rightCells) := by
    rw [routes]
    exact first.append second
  have perm : (root :: (pages.allocatePage.1 :: rest ++ rightUsed)).Perm
      (pages.allocatePage.1 :: (root :: rest ++ rightUsed)) := Perm.swap ..
  have roomy := (kept _ alloc).perm perm
  refine ⟨_, ⟨⟨.node here divides children, roomy.distinct, asc⟩, roomy.spares, roomy.apart⟩,
    ⟨(balanced _).perm perm, fun branching page mem => ?_⟩, fun page other => ?_⟩
  · rcases mem_cons.mp mem with rfl | below
    · rw [here, Branches, routes]
      exact cons_ne_nil _ _
    rcases mem_cons.mp below with rfl | old
    · exact copied.branches (branching root (.head _))
    · rw [untouched page old]
      exact branching page (.tail _ old)
  · apply same page
    · exact fun equal => room.apart root (.head _) (equal ▸ other)
    · exact fun equal => notOther (equal ▸ other)

theorem Reads.cut {stored : Pages ρ κ} {span : Span} {routes : List Route} {last fresh : Nat}
    {pos : Nat} {median : Route} {used : List Nat}
    (reads : pages.Reads (span.children routes last) used cells) (divided : span.Divides routes)
    (held : routes[pos]? = some median)
    (low : ∃ layout, stored.content span.page = .tableInterior layout median.child ∧
      layout.cells = routes.take pos)
    (high : ∃ layout, stored.content fresh = .tableInterior layout last ∧
      layout.cells = routes.drop (pos + 1))
    (same : ∀ page ∈ used, stored.content page = pages.content page) :
    ∃ grown, grown.Perm (fresh :: span.page :: used) ∧
      stored.Reads [⟨span.page, span.low, some median.key⟩, ⟨fresh, some median.key, span.high⟩]
        grown cells := by
  obtain ⟨lowDivided, highDivided⟩ := divided.cut span.page fresh held
  rw [children_cut span.page fresh held] at reads
  obtain ⟨lowUsed, highUsed, lowCells, highCells, rfl, rfl, lows, highs⟩ :=
    (reads.congr same).split
  obtain ⟨lower, lowHere, lowRoutes⟩ := low
  obtain ⟨higher, highHere, highRoutes⟩ := high
  rw [← lowRoutes] at lows lowDivided
  rw [← highRoutes] at highs highDivided
  have second : stored.Reads [⟨fresh, some median.key, span.high⟩] (fresh :: highUsed) highCells := by
    apply node highHere highDivided
    rw [append_nil]
    exact highs
  refine ⟨span.page :: (lowUsed ++ fresh :: highUsed), ?_, ?_⟩
  · rw [perm_iff_count]
    simp only [count_append, count_cons]
    omega
  · exact .node (show stored.content (⟨span.page, span.low, some median.key⟩ : Span).page = _ from
      lowHere) lowDivided (lows.append second)

section Rewriting

variable {used ancestors : List Nat} {cells : List (LeafCell ρ)}

theorem Room.leaves {page : Nat} {content : Page ρ κ} (room : Room others pages used)
    (put : ∃ whole, whole.Perm used ∧ (pages.set page content).HoldsTable root whole cells ∧
      pages.Exchange used (pages.set page content) whole) (mem : page ∈ used) :
    Leaves others pages used (pages.set page content) root cells := by
  obtain ⟨whole, uses, table, exchange⟩ := put
  have roomy := (room.set page content).perm uses
  refine ⟨whole, ⟨table, roomy.spares, roomy.apart⟩, exchange, fun num other => ?_⟩
  exact (set_content ..).trans (if_neg fun equal : num = page =>
    room.apart page mem (equal ▸ other))

theorem Leaves.perm_left {more : List Nat} (res : Leaves others pages used next root cells)
    (same : more.Perm used) : Leaves others pages more next root cells := by
  obtain ⟨whole, table, exchange, kept⟩ := res
  exact ⟨whole, table, exchange.perm_left same, kept⟩

/-- What the parents make of a cut is a change from the pages before it. -/
theorem Cut.leaves {stored : Pages ρ κ} {page : Nat} {low high : Page ρ κ} {more : List Nat}
    (cut : Cut others pages used page low high stored) (lowBranches : low.Branches)
    (highBranches : high.Branches) (perm : more.Perm (pages.allocatePage.1 :: used))
    (res : Leaves others stored more next root cells) : Leaves others pages used next root cells := by
  obtain ⟨whole, table, exchange, kept⟩ := res
  refine ⟨whole, table, Exchange.trans (.of_content (cut.balanced.perm perm) fun num mem => ?_)
    exchange, fun num other => (kept num other).trans (cut.kept num other)⟩
  by_cases old : num = page
  · right
    rw [old, cut.low]
    exact lowBranches
  by_cases new : num = pages.allocatePage.1
  · right
    rw [new, cut.high]
    exact highBranches
  · exact .inl ⟨(mem_cons.mp (perm.mem_iff.mp mem)).resolve_left new, cut.same num old new⟩

end Rewriting

theorem Path.insertIntoParent (ancestors : List Nat) {pages : Pages ρ κ} {hole : Span} {new : Nat}
    {divider : Int} {used holeUsed : List Nat} {front cells back : List (LeafCell ρ)}
    (path : pages.Path ⟨root, none, none⟩ ancestors hole used front back)
    (reads : pages.Reads [⟨hole.page, hole.low, some divider⟩, ⟨new, some divider, hole.high⟩]
      holeUsed cells)
    (asc : (front ++ cells ++ back).Pairwise fun first second => first.rowid < second.rowid)
    (admitted : hole.Admits divider) (below : ∀ high ∈ hole.high, divider < high)
    (room : Room others pages (used ++ holeUsed))
    (done : insertIntoParent geom root ancestors hole.page new divider pages = .ok next) :
    Leaves others pages (used ++ holeUsed) next root (front ++ cells ++ back) := by
  induction ancestors generalizing pages hole new divider used holeUsed front cells back with
  | nil =>
    cases path
    simp only [append_nil] at asc room ⊢
    exact reads.rootSplit asc room done
  | cons parent rest ih =>
    cases path with
    | @step _ span _ upperUsed leftUsed rightUsed upperFront upperBack leftCells rightCells layout
        rightmost left right upper content keys split before after =>
      have siblings : ∀ sibling ∈ left, sibling.page ≠ hole.page := by
        intro sibling mem same
        have inLeft := before.uses sibling mem
        have inHole := reads.uses _ (.head _)
        exact (nodup_append.mp room.distinct).2.2 sibling.page
          (mem_append_left _ (.tail _ (mem_append_left _ inLeft))) _ inHole same
      unfold Pages.insertIntoParent at done
      simp only [content] at done
      split at done
      · cases done
      rename_i routes last found
      obtain ⟨divided, children⟩ :=
        splitRoutes_children keys split siblings admitted below found
      have below := before.append (reads.append after)
      change pages.Reads (left ++ _ :: _ :: right) _ _ at below
      rw [← children] at below
      have perm : (upperUsed ++ span.page :: (leftUsed ++ (holeUsed ++ rightUsed))).Perm
          (span.page :: (leftUsed ++ rightUsed) ++ upperUsed ++ holeUsed) := by
        rw [perm_iff_count]
        simp only [count_append, count_cons]
        omega
      have regroup : upperFront ++ leftCells ++ cells ++ (rightCells ++ upperBack) =
          upperFront ++ (leftCells ++ (cells ++ rightCells)) ++ upperBack := by
        simp [append_assoc]
      rw [regroup] at asc ⊢
      have roomy := room.perm perm
      obtain ⟨_, ownDistinct, disjoint⟩ := nodup_append.mp roomy.distinct
      have pageApart := (nodup_cons.mp ownDistinct).1
      apply Leaves.perm_left _ perm.symm
      split at done
      · cases done
        refine roomy.leaves (upper.put (fun stored same here => ?_) ?_ asc roomy.distinct) (by simp)
        · rw [← writePageCommon_cells routeSize geom.pageLen routes] at divided below
          apply node here divided
          rw [append_nil]
          exact below.congr same
        · intro _
          rw [Branches, writePageCommon_cells]
          exact splitRoutes_ne_nil found
      -- The parent overflows too: it is cut at its median and the rest is the ancestors' case.
      · rename_i overfull
        split at done
        · cases done
        rename_i promoted median
        have many := overfull_routes overfull
        have cut := roomy.cut (mem_append_right _ (.head _)) (.tableInterior (writePageCommon
          routeSize geom.pageLen (routes.take (routes.length / 2))) promoted.child)
          (.tableInterior (writePageCommon routeSize geom.pageLen
            (routes.drop (routes.length / 2 + 1))) last)
        obtain ⟨grown, uses, read⟩ := below.cut divided median
          ⟨_, cut.low, writePageCommon_cells ..⟩ ⟨_, cut.high, writePageCommon_cells ..⟩
          fun page mem => cut.same page (fun equal => pageApart (equal ▸ mem))
            fun equal => cut.unused (equal ▸ mem_append_right _ (.tail _ mem))
        have upperSame := upper.congr fun page mem => cut.same page
          (disjoint page mem _ (.head _)) fun equal => cut.unused (equal ▸ mem_append_left _ mem)
        have regrown := (uses.append_left upperUsed).trans perm_middle
        refine cut.leaves ?_ ?_ regrown (ih upperSame read asc
          (divided.inside promoted (mem_of_getElem? median)) (divided.below median (by omega))
          (cut.room.perm regrown) done)
        · rw [Branches, writePageCommon_cells]
          exact ne_nil_of_length_pos (by rw [length_take]; omega)
        · rw [Branches, writePageCommon_cells]
          exact ne_nil_of_length_pos (by rw [length_drop]; omega)

end Split

section Leaf

variable {pages next : Pages ρ κ} {root leaf : Nat} {others : Nat → Prop} {cell : LeafCell ρ}
  {used ancestors : List Nat} {cells : List (LeafCell ρ)}

structure Filling (others : Nat → Prop) (pages : Pages ρ κ) (hole : Span) (used : List Nat)
    (front placed back : List (LeafCell ρ)) : Prop where
  held : ∀ member ∈ placed, pages.Intact member ∧ hole.Admits member.rowid
  distinct : (used ++ hole.page :: chainPages placed).Nodup
  ascending : (front ++ placed ++ back).Pairwise fun first second => first.rowid < second.rowid
  spares : pages.Spares fun page => others page ∨ page ∈ used ++ hole.page :: chainPages placed
  apart : ∀ page ∈ used ++ hole.page :: chainPages placed, ¬ others page

section Fill

variable {hole : Span} {placed front back : List (LeafCell ρ)}

theorem Path.putCell {layout : Layout (LeafCell ρ)}
    (path : pages.Path ⟨root, none, none⟩ ancestors hole used front back)
    (filling : Filling others pages hole used front placed back) (cells : layout.cells = placed) :
    Leaves others pages (used ++ hole.page :: chainPages placed)
      (pages.set hole.page (.tableLeaf layout)) root (front ++ placed ++ back) := by
  obtain ⟨held, nodup, asc, spares, apart⟩ := filling
  refine Room.leaves ⟨nodup, spares, apart⟩ (path.put (fun stored same here => of_leaf here cells
    (fun mem inside => ?_) fun mem inside => (held mem inside).2) (fun _ => trivial) asc nodup)
      (by simp)
  exact (held mem inside).1.congr fun page chained =>
    same page (mem_flatMap.mpr ⟨mem, inside, chained⟩)

theorem le_getLast {last : LeafCell ρ}
    (asc : cells.Pairwise fun first second => first.rowid < second.rowid)
    (final : cells.getLast? = some last) : ∀ mem ∈ cells, mem.rowid ≤ last.rowid := by
  obtain ⟨earlier, rfl⟩ := getLast?_eq_some_iff.mp final
  intro mem inside
  rcases mem_append.mp inside with before | same
  · exact ((pairwise_append.mp asc).2.2 mem before last (.head _)).le
  · rw [mem_singleton.mp same]

theorem Path.splitLeaf {count : Nat} {last : LeafCell ρ}
    (path : pages.Path ⟨root, none, none⟩ ancestors hole used front back)
    (filling : Filling others pages hole used front placed back)
    (final : (placed.take count).getLast? = some last) (more : count < placed.length)
    (done : Pages.insertIntoParent geom root ancestors hole.page pages.allocatePage.1 last.rowid
      ((pages.allocatePage.2.writeLeafPage geom hole.page (placed.take count)).writeLeafPage
        geom pages.allocatePage.1 (placed.drop count)) = .ok next) :
    Leaves others pages (used ++ hole.page :: chainPages placed) next root
      (front ++ placed ++ back) := by
  obtain ⟨held, nodup, asc, spares, apart⟩ := filling
  have cut := Room.cut ⟨nodup, spares, apart⟩ (mem_append_right _ (.head _))
    (.tableLeaf (writePageCommon (leafCellSize geom) geom.pageLen (placed.take count)))
    (.tableLeaf (writePageCommon (leafCellSize geom) geom.pageLen (placed.drop count)))
  generalize written : (pages.allocatePage.2.set hole.page _).set _ _ = stored at cut
  obtain ⟨_, leafDistinct, disjoint⟩ := nodup_append.mp nodup
  have leafApart := (nodup_cons.mp leafDistinct).1
  have intact : ∀ mem ∈ placed, stored.Intact mem := by
    intro mem inside
    apply (held mem inside).1.congr
    intro page chained
    have listed : page ∈ chainPages placed := mem_flatMap.mpr ⟨mem, inside, chained⟩
    apply cut.same page
    · exact fun equal => leafApart (equal ▸ listed)
    · exact fun equal => cut.unused (equal ▸ mem_append_right _ (.tail _ listed))
  -- The last cell of the left half divides the leaf's span.
  have own := (pairwise_append.mp (pairwise_append.mp asc).1).2.1
  rw [← take_append_drop count placed] at own
  obtain ⟨lowAscending, _, across⟩ := pairwise_append.mp own
  have lastLow : last ∈ placed.take count := mem_of_getLast? final
  have lastHeld := mem_of_mem_take lastLow
  have first : stored.Reads [⟨hole.page, hole.low, some last.rowid⟩] _ _ := of_leaf cut.low
    (writePageCommon_cells ..) (fun mem inside => intact mem (mem_of_mem_take inside))
    (fun mem inside => by
      refine ⟨(held mem (mem_of_mem_take inside)).2.1, fun high equal => ?_⟩
      cases equal
      exact le_getLast lowAscending final mem inside)
  have second : stored.Reads [⟨pages.allocatePage.1, some last.rowid, hole.high⟩] _ _ :=
    of_leaf cut.high (writePageCommon_cells ..)
    (fun mem inside => intact mem (mem_of_mem_drop inside))
    (fun mem inside => by
      refine ⟨fun low equal => ?_, (held mem (mem_of_mem_drop inside)).2.2⟩
      cases equal
      exact across last lastLow mem inside)
  have reads := first.append second
  rw [take_append_drop] at reads
  have chains : chainPages placed = chainPages (placed.take count) ++
      chainPages (placed.drop count) := by
    rw [chainPages, chainPages, chainPages, ← flatMap_append, take_append_drop]
  have regrown : (used ++ (hole.page :: chainPages (placed.take count) ++ pages.allocatePage.1 ::
      chainPages (placed.drop count))).Perm
        (pages.allocatePage.1 :: (used ++ hole.page :: chainPages placed)) := by
    rw [chains, perm_iff_count]
    simp only [count_append, count_cons]
    omega
  have below : ∀ high ∈ hole.high, last.rowid < high := by
    intro high equal
    have right : placed[count] ∈ placed.drop count := by
      rw [drop_eq_getElem_cons more]
      exact .head _
    exact (across last lastLow _ right).trans_le ((held _ (mem_of_mem_drop right)).2.2 high equal)
  subst written
  exact cut.leaves trivial trivial regrown ((path.congr fun page mem => cut.same page
    (disjoint page mem _ (.head _)) fun equal =>
      cut.unused (equal ▸ mem_append_left _ mem)).insertIntoParent ancestors reads asc
    (held last lastHeld).2 below (cut.room.perm regrown) done)

end Fill

theorem chainPages_placeCell (cell : LeafCell ρ) (cells : List (LeafCell ρ)) :
    (chainPages (placeCell cell cells)).Perm (cell.overflow ++ chainPages cells) :=
  (placeCell_perm cell cells).flatMap_right LeafCell.overflow

def LoneFits (geom : Geometry) (pages : Pages ρ κ) (leaf : Nat) (cell : LeafCell ρ) : Prop :=
  ∀ layout, pages.content leaf = .tableLeaf layout → layout.cells = [] →
    leafBase leaf + 2 + leafCellSize geom cell ≤ geom.pageLen

theorem HoldsTable.insertIntoLeaf (table : pages.HoldsTable root used cells)
    (roomy : Room others pages (used ++ cell.overflow)) (intact : pages.Intact cell)
    (room : pages.LoneFits geom leaf cell)
    (found : pages.findLeafPage cell.rowid maxPagesVisited [] root = .ok (ancestors, leaf))
    (done : insertIntoLeaf geom root ancestors leaf cell pages = .ok next) :
    (∀ held ∈ cells, held.rowid ≠ cell.rowid) ∧
      Leaves others pages (used ++ cell.overflow) next root (placeCell cell cells) := by
  obtain ⟨hole, pathUsed, front, back, layout, rfl, admitted, path, content, held, perm, rfl⟩ :=
    table.locate found
  obtain ⟨before, after⟩ := path.ordered admitted
  unfold insertIntoLeaf at done
  simp only [content] at done
  split at done
  · cases done
  rename_i absent
  have fresh : ∀ mem ∈ front ++ layout.cells ++ back, mem.rowid ≠ cell.rowid := by
    intro mem inside
    rcases mem_append.mp inside with inFront | inBack
    · rcases mem_append.mp inFront with inFront | here
      · exact (before mem inFront).ne
      · exact fun same => absent (any_eq_true.mpr ⟨mem, here, beq_iff_eq.mpr same⟩)
    · exact (after mem inBack).ne'
  refine ⟨fresh, ?_⟩
  have asc := placeCell_ascending table.ascending fresh
  rw [placeCell_between before after] at asc ⊢
  have uses : (pathUsed ++ hole.page :: chainPages (placeCell cell layout.cells)).Perm
      (used ++ cell.overflow) := by
    have chains := ((chainPages_placeCell cell layout.cells).cons hole.page).append_left pathUsed
    refine chains.trans (.trans ?_ (perm.append_right cell.overflow))
    rw [perm_iff_count]
    simp only [count_append, count_cons]
    omega
  have filling : Filling others pages hole pathUsed front (placeCell cell layout.cells) back := by
    obtain ⟨distinct, spares, apart⟩ := roomy.perm uses
    refine ⟨fun mem inside => ?_, distinct, asc, spares, apart⟩
    rcases mem_cons.mp ((placeCell_perm cell layout.cells).mem_iff.mp inside) with rfl | old
    · exact ⟨intact, admitted⟩
    · exact held mem old
  apply Leaves.perm_left _ uses.symm
  split at done
  · split at done
    · rename_i spliced put
      cases done
      exact path.putCell filling (spliceInsertCell_cells put)
    · cases done
      exact path.putCell filling (writePageCommon_cells ..)
  rename_i overfull
  -- One cell alone would fit, so the leaf held others and both halves have cells.
  have length : (placeCell cell layout.cells).length = layout.cells.length + 1 :=
    (placeCell_perm cell layout.cells).length_eq
  have some : layout.cells ≠ [] := by
    intro none
    have alone := room layout content none
    rw [none] at overfull
    simp only [length_nil, cellBytes, map_nil, sum_nil] at overfull
    omega
  have many := length_pos_iff.mpr some
  split at done
  · cases done
  rename_i last final
  exact path.splitLeaf filling final (by
    change ((placeCell cell layout.cells).length + 1) / 2 < (placeCell cell layout.cells).length
    omega) done

variable {chain : List Nat} {page length : Nat} {rowid : Int} {payload : ρ}

/-- What framing a payload leaves: the table as it was, and a cell whose overflow
pages nothing else uses. -/
structure Framed (geom : Geometry) (others : Nat → Prop) (pages : Pages ρ κ) (root : Nat)
    (used : List Nat) (cells : List (LeafCell ρ)) (cell : LeafCell ρ) (stored : Pages ρ κ) :
    Prop where
  table : stored.HoldsTable root used cells
  spares : stored.Spares fun page => others page ∨ page ∈ used ++ cell.overflow
  apart : ∀ page ∈ used ++ cell.overflow, ¬ others page
  distinct : (used ++ cell.overflow).Nodup
  intact : stored.Intact cell
  exchange : pages.Exchange used stored (used ++ cell.overflow)
  same : ∀ page ∉ cell.overflow, stored.content page = pages.content page

section

variable (table : pages.HoldsTableBeside others root used cells)

include table

theorem HoldsTableBeside.encodeLeafCell
    (rowid : Int) (payload : ρ) (length : Nat) : Framed geom others pages root used cells
      (pages.encodeLeafCell geom rowid payload length).1
      (pages.encodeLeafCell geom rowid payload length).2 := by
  obtain ⟨nodup, apart, spares, same⟩ :=
    table.spares.allocatePages (geom.chainLength length false)
  have balanced := balanced_allocatePages (geom.chainLength length false) pages used
  unfold Pages.encodeLeafCell
  generalize pages.allocatePages (geom.chainLength length false) = res
    at nodup apart spares same balanced
  obtain ⟨chain, stored⟩ := res
  simp only [not_or] at apart
  have untouched : ∀ page ∉ chain,
      (stored.fillChain payload 0 chain).content page = pages.content page :=
    fun page other => ((fills_chain payload).other 0 other).trans (same page other)
  have intact : (stored.fillChain payload 0 chain).Intact
      { rowid, length, payload, overflow := chain } := fun part page held => by
    rw [(fills_chain payload).here 0 nodup held, Nat.zero_add]
  constructor
  · exact table.toHoldsTable.congr fun page mem => untouched page fun inside =>
      (apart page inside).2 mem
  · apply ((fills_chain payload).keeps (Spares · _) (fun _ _ _ spares => spares.set) 0 _ spares).mono
    intro page mem
    rw [mem_append] at mem
    tauto
  · intro page mem other
    rcases mem_append.mp mem with old | inside
    · exact table.apart page old other
    · exact (apart page inside).1 other
  · exact nodup_append.mpr ⟨table.distinct, nodup, fun page old other inside equal =>
      (apart other inside).2 (equal ▸ old)⟩
  · exact intact
  · have filled := (fills_chain payload).keeps (pages.Balanced used · _)
      (fun _ page _ kept => kept.set page _) 0 chain balanced
    refine .of_content (filled.perm perm_append_comm)
      fun page mem => ?_
    by_cases inside : page ∈ chain
    · right
      obtain ⟨part, bound, rfl⟩ := getElem_of_mem inside
      rw [intact part _ (getElem?_eq_getElem bound)]
      trivial
    · exact .inl ⟨(mem_append.mp mem).resolve_right inside, untouched page inside⟩
  · exact untouched

theorem HoldsTableBeside.insertRow_of_room
    (room : ∀ ancestors leaf, (pages.encodeLeafCell geom rowid payload length).2.findLeafPage
        rowid maxPagesVisited [] root = .ok (ancestors, leaf) →
      (pages.encodeLeafCell geom rowid payload length).2.LoneFits geom leaf
        (pages.encodeLeafCell geom rowid payload length).1)
    (done : insertRow geom root rowid payload length pages = .ok next) :
    (∀ held ∈ cells, held.rowid ≠ rowid) ∧ ∃ overflow, Leaves others pages used next root
      (placeCell { rowid, length, payload, overflow } cells) := by
  have framed := @HoldsTableBeside.encodeLeafCell ρ κ geom _ _ _ _ _ table rowid payload length
  unfold insertRow at done
  have named : ∃ overflow, (pages.encodeLeafCell geom rowid payload length).1 =
      { rowid, length, payload, overflow } := ⟨_, rfl⟩
  generalize pages.encodeLeafCell geom rowid payload length = encoded at done framed room named
  obtain ⟨cell, stored⟩ := encoded
  obtain ⟨overflow, rfl⟩ := named
  simp only at done
  split at done
  · cases done
  rename_i ancestors leaf found
  obtain ⟨fresh, whole, res, exchange, unchanged⟩ := framed.table.insertIntoLeaf
    ⟨framed.distinct, framed.spares, framed.apart⟩ framed.intact (room ancestors leaf found) found done
  refine ⟨fresh, overflow, whole, res, framed.exchange.trans exchange, fun page other => ?_⟩
  exact (unchanged page other).trans (framed.same page fun inside =>
    framed.apart page (mem_append_right _ inside) other)

end

end Leaf

end Pages

end SqliteRs
