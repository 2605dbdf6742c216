import SqliteRs.TableBtree
import Mathlib.Data.List.Nodup

/-!
What a table b-tree holds. Reading a list of pages in depth-first order visits
each page once and gives the cells of the leaves in order; every page has a span
of rowids that its cells lie in, and the keys of an interior page divide its span
among its children. A path leads from one page down to another and keeps what
lies beside it, so that a change below is a change of the whole.
-/

namespace SqliteRs

open List

variable {ρ κ : Type}

/-- A page with the rowids it may hold: above `low` and up to `high`. -/
structure Span where
  page : Nat
  low : Option Int
  high : Option Int

def Span.Admits (span : Span) (rowid : Int) : Prop :=
  (∀ low ∈ span.low, low < rowid) ∧ ∀ high ∈ span.high, rowid ≤ high

def childSpans (high : Option Int) (rightmost : Nat) : Option Int → List Route → List Span
  | low, [] => [⟨rightmost, low, high⟩]
  | low, route :: rest =>
    ⟨route.child, low, some route.key⟩ :: childSpans high rightmost (some route.key) rest

def Span.children (span : Span) (routes : List Route) (rightmost : Nat) : List Span :=
  childSpans span.high rightmost span.low routes

structure Span.Divides (span : Span) (routes : List Route) : Prop where
  inside : ∀ route ∈ routes, span.Admits route.key
  ascending : routes.Pairwise fun first second => first.key < second.key

def Span.Before (first second : Span) : Prop :=
  ∀ low high, first.Admits low → second.Admits high → low < high

def Span.Widens (wide narrow : Span) : Prop :=
  wide.page = narrow.page ∧ ∀ rowid, narrow.Admits rowid → wide.Admits rowid

def chainPages (cells : List (LeafCell ρ)) : List Nat := cells.flatMap LeafCell.overflow

section Spans

variable {span : Span} {routes : List Route} {rightmost : Nat}

theorem Span.children_pages (span : Span) (routes : List Route) (rightmost : Nat) :
    (span.children routes rightmost).map Span.page = routes.map Route.child ++ [rightmost] := by
  unfold Span.children
  generalize span.low = low
  induction routes generalizing low with
  | nil => rfl
  | cons route rest ih =>
    rw [childSpans, map_cons, ih]
    rfl

theorem Span.Divides.tail {route : Route} (keys : span.Divides (route :: routes)) :
    (⟨span.page, some route.key, span.high⟩ : Span).Divides routes := by
  obtain ⟨first, rest⟩ := pairwise_cons.mp keys.ascending
  constructor
  · intro other mem
    refine ⟨fun low same => ?_, (keys.inside other (.tail _ mem)).2⟩
    cases same
    exact first other mem
  · exact rest

variable {rowid : Int} {wide : Span}

theorem Span.Divides.narrows (keys : span.Divides routes) {child : Span}
    (mem : child ∈ span.children routes rightmost) (admitted : child.Admits rowid) :
    span.Admits rowid := by
  induction routes generalizing span with
  | nil =>
    cases mem_singleton.mp mem
    exact admitted
  | cons route rest ih =>
    have key := keys.inside route (.head _)
    rcases mem_cons.mp mem with rfl | later
    · exact ⟨admitted.1, fun high same => (admitted.2 _ rfl).trans (key.2 high same)⟩
    · have inner := ih keys.tail later
      exact ⟨fun low same => (key.1 low same).trans (inner.1 _ rfl), inner.2⟩

theorem Span.Divides.ordered (keys : span.Divides routes) :
    (span.children routes rightmost).Pairwise Span.Before := by
  induction routes generalizing span with
  | nil => exact pairwise_singleton ..
  | cons route rest ih =>
    constructor
    · intro child mem low high first second
      exact (first.2 _ rfl).trans_lt ((keys.tail.narrows mem second).1 _ rfl)
    · exact ih keys.tail

theorem Span.Divides.widen (keys : span.Divides routes) (widens : wide.Widens span) :
    wide.Divides routes :=
  ⟨fun route mem => widens.2 _ (keys.inside route mem), keys.ascending⟩

theorem Span.Widens.refl (span : Span) : span.Widens span := ⟨rfl, fun _ admitted => admitted⟩

theorem Span.Widens.children (widens : wide.Widens span) (keys : span.Divides routes) :
    Forall₂ Span.Widens (wide.children routes rightmost) (span.children routes rightmost) := by
  induction routes generalizing span wide with
  | nil => exact .cons ⟨rfl, widens.2⟩ .nil
  | cons route rest ih =>
    have key := keys.inside route (.head _)
    apply Forall₂.cons
    · refine ⟨rfl, fun rowid admitted => ?_⟩
      have inside : span.Admits rowid :=
        ⟨admitted.1, fun high same => (admitted.2 _ rfl).trans (key.2 high same)⟩
      exact ⟨(widens.2 rowid inside).1, admitted.2⟩
    · have wider : (⟨wide.page, some route.key, wide.high⟩ : Span).Widens
          ⟨span.page, some route.key, span.high⟩ := by
        refine ⟨widens.1, fun rowid admitted => ⟨admitted.1, ?_⟩⟩
        have inside : span.Admits rowid :=
          ⟨fun low same => (key.1 low same).trans (admitted.1 _ rfl), admitted.2⟩
        exact (widens.2 rowid inside).2
      exact ih wider keys.tail

theorem routeFor_span (admitted : span.Admits rowid) :
    ∃ left child right, span.children routes rightmost = left ++ child :: right ∧
      child.page = Pages.routeFor routes rightmost rowid ∧ child.Admits rowid := by
  induction routes generalizing span with
  | nil => exact ⟨[], _, [], rfl, rfl, admitted⟩
  | cons route rest ih =>
    unfold Pages.routeFor
    by_cases upTo : rowid ≤ route.key
    · rw [List.find?_cons_of_pos (by simpa using upTo)]
      refine ⟨[], _, _, rfl, rfl, admitted.1, fun high same => ?_⟩
      cases same
      exact upTo
    rw [List.find?_cons_of_neg (by simpa using upTo)]
    have above : (⟨span.page, some route.key, span.high⟩ : Span).Admits rowid := by
      refine ⟨fun low same => ?_, admitted.2⟩
      cases same
      exact Int.not_le.mp upTo
    obtain ⟨left, child, right, whole, same, inside⟩ := ih above
    refine ⟨⟨route.child, span.low, some route.key⟩ :: left, child, right, ?_, same, inside⟩
    rw [cons_append, ← whole]
    rfl

end Spans

/-- The same kind of table page with the same cells, laid out anew. -/
def Page.Copies (copy : Page ρ κ) : Page ρ κ → Prop
  | .tableLeaf layout => ∃ moved, copy = .tableLeaf moved ∧ moved.cells = layout.cells
  | .tableInterior layout rightmost =>
    ∃ moved, copy = .tableInterior moved rightmost ∧ moved.cells = layout.cells
  | _ => False

namespace Pages

def Intact (pages : Pages ρ κ) (cell : LeafCell ρ) : Prop :=
  ∀ part page, cell.overflow[part]? = some page → pages.content page = .chain cell.payload part

/-- Pages that lead only to one another, and whose leaves hold only certain cells. -/
structure Closed (pages : Pages ρ κ) (inside : Nat → Prop) (held : LeafCell ρ → Prop) : Prop where
  interior : ∀ page layout rightmost, inside page →
    pages.content page = .tableInterior layout rightmost →
    inside rightmost ∧ ∀ route ∈ layout.cells, inside route.child
  leaf : ∀ page layout, inside page → pages.content page = .tableLeaf layout →
    ∀ cell ∈ layout.cells, held cell

/-- Reading pages in depth-first order: the pages used, overflow pages included, and the cells. -/
inductive Reads (pages : Pages ρ κ) : List Span → List Nat → List (LeafCell ρ) → Prop where
  | nil : Reads pages [] [] []
  | leaf {span : Span} {rest : List Span} {used : List Nat} {cells : List (LeafCell ρ)}
      {layout : Layout (LeafCell ρ)} (here : pages.content span.page = .tableLeaf layout)
      (intact : ∀ cell ∈ layout.cells, pages.Intact cell)
      (admitted : ∀ cell ∈ layout.cells, span.Admits cell.rowid)
      (later : Reads pages rest used cells) :
      Reads pages (span :: rest) (span.page :: chainPages layout.cells ++ used)
        (layout.cells ++ cells)
  | node {span : Span} {rest : List Span} {used : List Nat} {cells : List (LeafCell ρ)}
      {layout : Layout Route} {rightmost : Nat}
      (here : pages.content span.page = .tableInterior layout rightmost)
      (keys : span.Divides layout.cells)
      (later : Reads pages (span.children layout.cells rightmost ++ rest) used cells) :
      Reads pages (span :: rest) (span.page :: used) cells

/-- A well-formed table: one tree of distinct pages whose rowids ascend. -/
structure HoldsTable (pages : Pages ρ κ) (root : Nat) (used : List Nat)
    (cells : List (LeafCell ρ)) : Prop where
  reads : pages.Reads [⟨root, none, none⟩] used cells
  distinct : used.Nodup
  ascending : cells.Pairwise fun first second => first.rowid < second.rowid

section Reading

variable {pages other : Pages ρ κ} {spans more : List Span} {used : List Nat}
  {cells : List (LeafCell ρ)}

variable {cell : LeafCell ρ}

theorem Intact.congr (intact : pages.Intact cell)
    (same : ∀ page ∈ cell.overflow, other.content page = pages.content page) : other.Intact cell := by
  intro part page held
  rw [same page (mem_of_getElem? held)]
  exact intact part page held

theorem Reads.congr (reads : pages.Reads spans used cells)
    (same : ∀ page ∈ used, other.content page = pages.content page) : other.Reads spans used cells := by
  induction reads with
  | nil => exact .nil
  | @leaf span rest used cells layout here intact admitted _ ih =>
    have inside : ∀ page ∈ chainPages layout.cells, other.content page = pages.content page :=
      fun page mem => same page (mem_append_left _ (.tail _ mem))
    apply Reads.leaf
    · rw [same _ (.head _), here]
    · intro cell mem
      exact (intact cell mem).congr fun page chained =>
        inside page (mem_flatMap.mpr ⟨cell, mem, chained⟩)
    · exact admitted
    · exact ih fun page mem => same page (mem_append_right _ mem)
  | node here keys _ ih =>
    apply Reads.node _ keys
    · exact ih fun page mem => same page (.tail _ mem)
    · rw [same _ (.head _), here]

theorem HoldsTable.congr {root : Nat} (table : pages.HoldsTable root used cells)
    (same : ∀ page ∈ used, other.content page = pages.content page) :
    other.HoldsTable root used cells :=
  ⟨table.reads.congr same, table.distinct, table.ascending⟩

theorem Reads.append {otherUsed : List Nat} {otherCells : List (LeafCell ρ)}
    (reads : pages.Reads spans used cells) (later : pages.Reads more otherUsed otherCells) :
    pages.Reads (spans ++ more) (used ++ otherUsed) (cells ++ otherCells) := by
  induction reads with
  | nil => exact later
  | leaf here intact admitted _ ih =>
    rw [append_assoc, append_assoc]
    exact .leaf here intact admitted ih
  | node here keys _ ih =>
    rw [append_assoc] at ih
    exact .node here keys ih

theorem Reads.split (reads : pages.Reads (spans ++ more) used cells) :
    ∃ leftUsed rightUsed leftCells rightCells, used = leftUsed ++ rightUsed ∧
      cells = leftCells ++ rightCells ∧ pages.Reads spans leftUsed leftCells ∧
      pages.Reads more rightUsed rightCells := by
  generalize whole : spans ++ more = all at reads
  induction reads generalizing spans with
  | nil =>
    obtain ⟨rfl, rfl⟩ := append_eq_nil_iff.mp whole
    exact ⟨[], [], [], [], rfl, rfl, .nil, .nil⟩
  | @leaf span rest used cells layout here intact admitted later ih =>
    cases spans with
    | nil =>
      cases whole
      exact ⟨[], _, [], _, rfl, rfl, .nil, .leaf here intact admitted later⟩
    | cons front spans =>
      cases whole
      obtain ⟨leftUsed, rightUsed, leftCells, rightCells, rfl, rfl, left, right⟩ := ih rfl
      refine ⟨_, rightUsed, _, rightCells, ?_, ?_, .leaf here intact admitted left, right⟩
      all_goals exact (append_assoc ..).symm
  | node here keys later ih =>
    cases spans with
    | nil =>
      cases whole
      exact ⟨[], _, [], _, rfl, rfl, .nil, .node here keys later⟩
    | cons front spans =>
      cases whole
      obtain ⟨leftUsed, rightUsed, leftCells, rightCells, rfl, rfl, left, right⟩ :=
        ih (append_assoc ..)
      exact ⟨_, rightUsed, _, rightCells, rfl, rfl, .node here keys left, right⟩

theorem Reads.widen {wide : List Span} (reads : pages.Reads spans used cells)
    (widens : Forall₂ Span.Widens wide spans) : pages.Reads wide used cells := by
  induction reads generalizing wide with
  | nil =>
    cases widens
    exact .nil
  | leaf here intact admitted _ ih =>
    cases widens with
    | cons first rest =>
      rw [← first.1] at here ⊢
      exact .leaf here intact (fun cell mem => first.2 _ (admitted cell mem)) (ih rest)
  | node here keys _ ih =>
    cases widens with
    | cons first rest =>
      rw [← first.1] at here ⊢
      exact .node here (keys.widen first) (ih (rel_append (first.children keys) rest))

theorem Reads.relocate {old new : Span} (reads : pages.Reads [old] used cells)
    (wider : ∀ rowid, old.Admits rowid → new.Admits rowid) :
    ∃ rest, used = old.page :: rest ∧ ∀ other : Pages ρ κ,
      (∀ page ∈ rest, other.content page = pages.content page) →
      (other.content new.page).Copies (pages.content old.page) →
      other.Reads [new] (new.page :: rest) cells := by
  cases reads with
  | @leaf _ _ _ _ layout here intact admitted later =>
    cases later
    refine ⟨_, rfl, fun other same copied => ?_⟩
    rw [here] at copied
    obtain ⟨moved, content, cells⟩ := copied
    rw [← cells] at same intact admitted ⊢
    apply Reads.leaf content _ (fun cell mem => wider _ (admitted cell mem)) .nil
    intro cell mem
    exact (intact cell mem).congr fun page chained => same page
      (mem_append_left _ (mem_flatMap.mpr ⟨cell, mem, chained⟩))
  | @node _ _ _ _ layout rightmost here keys later =>
    refine ⟨_, rfl, fun other same copied => ?_⟩
    rw [here] at copied
    obtain ⟨moved, content, cells⟩ := copied
    rw [← cells] at keys later
    have widens : new.Widens ⟨new.page, old.low, old.high⟩ := ⟨rfl, wider⟩
    have divided : (⟨new.page, old.low, old.high⟩ : Span).Divides moved.cells :=
      ⟨keys.inside, keys.ascending⟩
    apply Reads.node content (divided.widen widens)
    exact (later.congr same).widen (rel_append (widens.children divided) .nil)

theorem Reads.admitted (reads : pages.Reads spans used cells) :
    ∀ cell ∈ cells, ∃ span ∈ spans, span.Admits cell.rowid := by
  induction reads with
  | nil => exact fun cell mem => nomatch mem
  | leaf _ _ admitted _ ih =>
    intro cell mem
    rcases mem_append.mp mem with here | later
    · exact ⟨_, .head _, admitted cell here⟩
    · obtain ⟨span, inside, admits⟩ := ih cell later
      exact ⟨span, .tail _ inside, admits⟩
  | node _ keys _ ih =>
    intro cell mem
    obtain ⟨span, inside, admits⟩ := ih cell mem
    rcases mem_append.mp inside with child | later
    · exact ⟨_, .head _, keys.narrows child admits⟩
    · exact ⟨span, .tail _ later, admits⟩

theorem Intact.chain (intact : pages.Intact cell) {page : Nat}
    (mem : page ∈ cell.overflow) : ∃ part, pages.content page = .chain cell.payload part := by
  obtain ⟨part, held⟩ := mem_iff_getElem?.mp mem
  exact ⟨part, intact part page held⟩

theorem Reads.uses (reads : pages.Reads spans used cells) : ∀ span ∈ spans, span.page ∈ used := by
  induction reads with
  | nil => exact fun span mem => nomatch mem
  | leaf _ _ _ _ ih =>
    intro span mem
    rcases mem_cons.mp mem with rfl | later
    · exact .head _
    · exact mem_append_right _ (ih span later)
  | node _ _ _ ih =>
    intro span mem
    rcases mem_cons.mp mem with rfl | later
    · exact .head _
    · exact .tail _ (ih span (mem_append_right _ later))

theorem Reads.closed (reads : pages.Reads spans used cells) : pages.Closed (· ∈ used) (· ∈ cells) := by
  induction reads with
  | nil => exact ⟨fun _ _ _ mem => (nomatch mem), fun _ _ mem => nomatch mem⟩
  | @leaf span rest used cells layout here intact _ _ ih =>
    -- An overflow page is neither a leaf nor an interior page.
    have chained : ∀ page ∈ chainPages layout.cells, ∃ payload part,
        pages.content page = .chain payload part := by
      intro page mem
      obtain ⟨cell, inside, held⟩ := mem_flatMap.mp mem
      exact ⟨_, (intact cell inside).chain held⟩
    constructor
    · intro page routes rightmost mem content
      rcases mem_append.mp mem with own | later
      · rcases mem_cons.mp own with rfl | chain
        · rw [here] at content
          cases content
        obtain ⟨_, _, held⟩ := chained page chain
        rw [held] at content
        cases content
      · obtain ⟨last, children⟩ := ih.interior page routes rightmost later content
        exact ⟨mem_append_right _ last, fun route inside => mem_append_right _ (children route inside)⟩
    · intro page held mem content cell inside
      rcases mem_append.mp mem with own | later
      · rcases mem_cons.mp own with rfl | chain
        · rw [here] at content
          cases content
          exact mem_append_left _ inside
        · obtain ⟨_, _, held⟩ := chained page chain
          rw [held] at content
          cases content
      · exact mem_append_right _ (ih.leaf page held later content cell inside)
  | @node span rest used cells layout rightmost here _ later ih =>
    constructor
    · intro page routes last mem content
      rcases mem_cons.mp mem with rfl | later'
      · rw [here] at content
        cases content
        have within : ∀ child ∈ layout.cells.map (·.child) ++ [rightmost],
            child ∈ span.page :: used := by
          intro child mem
          rw [← span.children_pages] at mem
          obtain ⟨part, inside, rfl⟩ := mem_map.mp mem
          exact .tail _ (later.uses part (mem_append_left _ inside))
        exact ⟨within _ (mem_append_right _ (.head _)),
          fun route held => within _ (mem_append_left _ (mem_map_of_mem held))⟩
      · obtain ⟨ends, children⟩ := ih.interior page routes last later' content
        exact ⟨.tail _ ends, fun route inside => .tail _ (children route inside)⟩
    · intro page held mem content cell inside
      rcases mem_cons.mp mem with rfl | later'
      · rw [here] at content
        cases content
      · exact ih.leaf page held later' content cell inside

end Reading

/-- A way down from one page to another: the pages passed, nearest first, and
what the siblings beside them hold before and after. -/
inductive Path (pages : Pages ρ κ) (top : Span) :
    List Nat → Span → List Nat → List (LeafCell ρ) → List (LeafCell ρ) → Prop where
  | here : Path pages top [] top [] [] []
  | step {ancestors : List Nat} {span child : Span} {used leftUsed rightUsed : List Nat}
      {front back leftCells rightCells : List (LeafCell ρ)} {layout : Layout Route}
      {rightmost : Nat} {left right : List Span} (upper : Path pages top ancestors span used front back)
      (content : pages.content span.page = .tableInterior layout rightmost)
      (keys : span.Divides layout.cells)
      (split : span.children layout.cells rightmost = left ++ child :: right)
      (before : pages.Reads left leftUsed leftCells)
      (after : pages.Reads right rightUsed rightCells) :
      Path pages top (span.page :: ancestors) child (span.page :: (leftUsed ++ rightUsed) ++ used)
        (front ++ leftCells) (rightCells ++ back)

section Paths

variable {pages other : Pages ρ κ} {top hole : Span} {ancestors used holeUsed : List Nat}
  {front back cells : List (LeafCell ρ)}

section

variable (path : pages.Path top ancestors hole used front back)

include path

theorem Path.congr (same : ∀ page ∈ used, other.content page = pages.content page) :
    other.Path top ancestors hole used front back := by
  induction path with
  | here => exact .here
  | step _ content keys split before after ih =>
    apply Path.step _ _ keys split
    · exact before.congr fun page mem =>
        same page (mem_append_left _ (.tail _ (mem_append_left _ mem)))
    · exact after.congr fun page mem =>
        same page (mem_append_left _ (.tail _ (mem_append_right _ mem)))
    · exact ih fun page mem => same page (mem_append_right _ mem)
    · rw [same _ (.head _), content]

theorem Path.plug (reads : pages.Reads [hole] holeUsed cells) :
    ∃ whole, whole.Perm (used ++ holeUsed) ∧ pages.Reads [top] whole (front ++ cells ++ back) := by
  induction path generalizing holeUsed cells with
  | here =>
    refine ⟨holeUsed, Perm.refl _, ?_⟩
    rw [append_nil]
    exact reads
  | @step ancestors span child used leftUsed rightUsed front back leftCells rightCells layout
      rightmost left right upper content keys split before after ih =>
    have children : pages.Reads (span.children layout.cells rightmost ++ [])
        (leftUsed ++ (holeUsed ++ rightUsed)) (leftCells ++ (cells ++ rightCells)) := by
      rw [append_nil, split]
      exact before.append (reads.append after)
    obtain ⟨whole, perm, read⟩ := ih (.node content keys children)
    refine ⟨whole, perm.trans ?_, ?_⟩
    · rw [perm_iff_count]
      simp only [count_append, count_cons]
      omega
    · simpa only [append_assoc] using read

theorem Path.ordered {rowid : Int} (admitted : hole.Admits rowid) :
    (∀ cell ∈ front, cell.rowid < rowid) ∧ ∀ cell ∈ back, rowid < cell.rowid := by
  induction path with
  | here => exact ⟨fun cell mem => (nomatch mem), fun cell mem => nomatch mem⟩
  | @step _ span child _ _ _ _ _ _ _ layout rightmost left right _ _ keys split before after ih =>
    have inside : child ∈ span.children layout.cells rightmost := by
      rw [split]
      exact mem_append_right _ (.head _)
    obtain ⟨above, below⟩ := ih (keys.narrows inside admitted)
    have ordered := @Span.Divides.ordered span layout.cells rightmost keys
    rw [split] at ordered
    obtain ⟨_, later, across⟩ := pairwise_append.mp ordered
    constructor
    · intro cell mem
      rcases mem_append.mp mem with outer | sibling
      · exact above cell outer
      · obtain ⟨held, listed, admits⟩ := before.admitted cell sibling
        exact across held listed child (.head _) _ _ admits admitted
    · intro cell mem
      rcases mem_append.mp mem with sibling | outer
      · obtain ⟨held, listed, admits⟩ := after.admitted cell sibling
        exact (pairwise_cons.mp later).1 held listed _ _ admitted admits
      · exact below cell outer

end

theorem Path.descend {rowid : Int} (budget : Nat) {span : Span} {before : List Nat} {leaf : Nat}
    (path : pages.Path top before span used front back) (admitted : span.Admits rowid)
    (reads : pages.Reads [span] holeUsed cells)
    (found : pages.findLeafPage rowid budget before span.page = .ok (ancestors, leaf)) :
    ∃ hole pathUsed pathFront pathBack layout, hole.page = leaf ∧ hole.Admits rowid ∧
      pages.Path top ancestors hole pathUsed pathFront pathBack ∧
      pages.content leaf = .tableLeaf layout ∧
      (∀ cell ∈ layout.cells, pages.Intact cell ∧ hole.Admits cell.rowid) ∧
      (pathUsed ++ leaf :: chainPages layout.cells).Perm (used ++ holeUsed) ∧
      pathFront ++ layout.cells ++ pathBack = front ++ cells ++ back := by
  induction budget generalizing span before used front back holeUsed cells with
  | zero => cases found
  | succ budget ih =>
    unfold findLeafPage at found
    cases reads with
    | leaf here intact admits later =>
      rw [here] at found
      cases found
      cases later
      refine ⟨span, used, front, back, _, rfl, admitted, path, here, ?_, ?_, ?_⟩
      · exact fun cell mem => ⟨intact cell mem, admits cell mem⟩
      all_goals rw [append_nil]
    | @node _ _ childUsed _ layout rightmost here keys later =>
      rw [here] at found
      obtain ⟨left, child, right, split, same, inside⟩ :=
        @routeFor_span span layout.cells rightmost rowid admitted
      rw [append_nil, split] at later
      obtain ⟨leftUsed, restUsed, leftCells, restCells, rfl, rfl, lefts, rest⟩ := later.split
      obtain ⟨ownUsed, rightUsed, ownCells, rightCells, rfl, rfl, own, rights⟩ :=
        (show pages.Reads ([child] ++ right) _ _ from rest).split
      simp only [← same] at found
      obtain ⟨hole, pathUsed, pathFront, pathBack, final, at_, admits, down, content, read, perm,
        whole⟩ := ih (path.step here keys split lefts rights) inside own found
      refine ⟨hole, pathUsed, pathFront, pathBack, final, at_, admits, down, content, read,
        perm.trans ?_, whole.trans ?_⟩
      · rw [perm_iff_count]
        simp only [count_append, count_cons]
        omega
      · simp [append_assoc]

end Paths

end Pages

end SqliteRs
