import SqliteRs.IndexBtree
import SqliteRs.PageLedger
import Mathlib.Order.Compare

/-!
What an index b-tree holds, and where a search of it ends. A page stands for the items
it lists in order: entries, and on an interior page also children, which reading replaces
by their own items. Keys compare as their places in a linear order, and the entries of the
whole tree ascend. A search then ends in the only leaf that may hold the key, with every
entry beside the way down on its own side of the key, or at the entry of an interior page
that has the key.
-/

namespace SqliteRs

open List

variable {ρ κ : Type}

inductive IndexItem (κ : Type) where
  | page (page : Nat)
  | entry (entry : IndexEntry κ)

def routeItems (routes : List (IndexRoute κ)) : List (IndexItem κ) :=
  routes.flatMap fun route => [.page route.child, .entry route.entry]

def childItems (routes : List (IndexRoute κ)) (rightmost : Nat) : List (IndexItem κ) :=
  routeItems routes ++ [.page rightmost]

def Page.items : Page ρ κ → Option (List (IndexItem κ))
  | .indexLeaf layout => some (layout.cells.map .entry)
  | .indexInterior layout rightmost => some (childItems layout.cells rightmost)
  | _ => none

def keyPages (entries : List (IndexEntry κ)) : List Nat := entries.flatMap IndexEntry.overflow

namespace Pages

def KeyIntact (pages : Pages ρ κ) (entry : IndexEntry κ) : Prop :=
  ∀ part page, entry.overflow[part]? = some page → pages.content page = .keyChain entry.key part

/-- Reading items in order: the pages used, overflow pages included, and the entries. -/
inductive IndexReads (pages : Pages ρ κ) :
    List (IndexItem κ) → List Nat → List (IndexEntry κ) → Prop where
  | nil : IndexReads pages [] [] []
  | entry {entry : IndexEntry κ} {rest : List (IndexItem κ)} {used : List Nat}
      {entries : List (IndexEntry κ)} (intact : pages.KeyIntact entry)
      (later : IndexReads pages rest used entries) :
      IndexReads pages (.entry entry :: rest) (entry.overflow ++ used) (entry :: entries)
  | page {page : Nat} {items rest : List (IndexItem κ)} {used : List Nat}
      {entries : List (IndexEntry κ)} (here : (pages.content page).items = some items)
      (later : IndexReads pages (items ++ rest) used entries) :
      IndexReads pages (.page page :: rest) (page :: used) entries

section Reading

variable {pages other : Pages ρ κ} {items more : List (IndexItem κ)} {used : List Nat}
  {entries : List (IndexEntry κ)}

theorem KeyIntact.congr {entry : IndexEntry κ} (intact : pages.KeyIntact entry)
    (same : ∀ page ∈ entry.overflow, other.content page = pages.content page) :
    other.KeyIntact entry := by
  intro part page held
  rw [same page (mem_of_getElem? held)]
  exact intact part page held

theorem IndexReads.congr (reads : pages.IndexReads items used entries)
    (same : ∀ page ∈ used, other.content page = pages.content page) :
    other.IndexReads items used entries := by
  induction reads with
  | nil => exact .nil
  | entry intact _ ih =>
    apply IndexReads.entry
    · exact intact.congr fun page mem => same page (mem_append_left _ mem)
    · exact ih fun page mem => same page (mem_append_right _ mem)
  | page here _ ih =>
    apply IndexReads.page
    · rw [same _ (.head _)]
      exact here
    · exact ih fun page mem => same page (.tail _ mem)

theorem IndexReads.append {otherUsed : List Nat} {otherEntries : List (IndexEntry κ)}
    (reads : pages.IndexReads items used entries)
    (later : pages.IndexReads more otherUsed otherEntries) :
    pages.IndexReads (items ++ more) (used ++ otherUsed) (entries ++ otherEntries) := by
  induction reads with
  | nil => exact later
  | entry intact _ ih =>
    rw [append_assoc]
    exact .entry intact ih
  | page here _ ih =>
    rw [append_assoc] at ih
    exact .page here ih

theorem IndexReads.split (reads : pages.IndexReads (items ++ more) used entries) :
    ∃ leftUsed rightUsed leftEntries rightEntries, used = leftUsed ++ rightUsed ∧
      entries = leftEntries ++ rightEntries ∧ pages.IndexReads items leftUsed leftEntries ∧
      pages.IndexReads more rightUsed rightEntries := by
  generalize whole : items ++ more = all at reads
  induction reads generalizing items with
  | nil =>
    obtain ⟨rfl, rfl⟩ := append_eq_nil_iff.mp whole
    exact ⟨[], [], [], [], rfl, rfl, .nil, .nil⟩
  | @entry entry rest used entries intact later ih =>
    cases items with
    | nil =>
      cases whole
      exact ⟨[], _, [], _, rfl, rfl, .nil, .entry intact later⟩
    | cons first items =>
      cases whole
      obtain ⟨leftUsed, rightUsed, leftEntries, rightEntries, rfl, rfl, left, right⟩ := ih rfl
      exact ⟨_, _, _, _, (append_assoc ..).symm, rfl, .entry intact left, right⟩
  | @page page held rest used entries here later ih =>
    cases items with
    | nil =>
      cases whole
      exact ⟨[], _, [], _, rfl, rfl, .nil, .page here later⟩
    | cons first items =>
      cases whole
      obtain ⟨leftUsed, rightUsed, leftEntries, rightEntries, rfl, rfl, left, right⟩ :=
        ih (append_assoc ..)
      exact ⟨_, _, _, _, rfl, rfl, .page here left, right⟩

theorem IndexReads.uses (reads : pages.IndexReads items used entries) :
    ∀ page, .page page ∈ items → page ∈ used := by
  induction reads with
  | nil => exact fun page mem => nomatch mem
  | entry _ _ ih =>
    intro page mem
    rcases mem_cons.mp mem with same | later
    · cases same
    · exact mem_append_right _ (ih page later)
  | page _ _ ih =>
    intro page mem
    rcases mem_cons.mp mem with same | later
    · cases same
      exact .head _
    · exact .tail _ (ih page (mem_append_right _ later))

theorem IndexReads.holds (reads : pages.IndexReads items used entries) :
    ∀ entry, .entry entry ∈ items → entry ∈ entries := by
  induction reads with
  | nil => exact fun entry mem => nomatch mem
  | entry _ _ ih =>
    intro entry mem
    rcases mem_cons.mp mem with same | later
    · cases same
      exact .head _
    · exact .tail _ (ih entry later)
  | page _ _ ih =>
    intro entry mem
    rcases mem_cons.mp mem with same | later
    · cases same
    · exact ih entry (mem_append_right _ later)

theorem IndexReads.intact (reads : pages.IndexReads items used entries) :
    ∀ entry ∈ entries, pages.KeyIntact entry := by
  induction reads with
  | nil => exact fun entry mem => nomatch mem
  | entry intact _ ih =>
    intro entry mem
    rcases mem_cons.mp mem with rfl | later
    · exact intact
    · exact ih entry later
  | page _ _ ih => exact ih

variable {held : List (IndexEntry κ)}

theorem IndexReads.of_entries (intact : ∀ entry ∈ held, pages.KeyIntact entry) :
    pages.IndexReads (held.map .entry) (keyPages held) held := by
  induction held with
  | nil => exact .nil
  | cons first rest ih =>
    exact .entry (intact first (.head _)) (ih fun entry mem => intact entry (.tail _ mem))

theorem IndexReads.entries_eq (reads : pages.IndexReads (held.map .entry) used entries) :
    used = keyPages held ∧ entries = held := by
  induction held generalizing used entries with
  | nil =>
    cases reads
    exact ⟨rfl, rfl⟩
  | cons first rest ih =>
    cases reads with
    | entry _ later =>
      obtain ⟨rfl, rfl⟩ := ih later
      exact ⟨rfl, rfl⟩

theorem IndexReads.single {page : Nat} : pages.IndexReads [.page page] used entries ↔ ∃ items below,
      (pages.content page).items = some items ∧ used = page :: below ∧
        pages.IndexReads items below entries := by
  constructor
  · intro reads
    cases reads with
    | page here later =>
      rw [append_nil] at later
      exact ⟨_, _, here, rfl, later⟩
  · rintro ⟨items, below, here, rfl, later⟩
    refine .page here ?_
    rw [append_nil]
    exact later

end Reading

/-- A way down from one page to another: the pages passed, nearest first, and what
lies beside them before and after. -/
inductive IndexPath (pages : Pages ρ κ) (top : Nat) :
    List Nat → Nat → List Nat → List (IndexEntry κ) → List (IndexEntry κ) → Prop where
  | here : IndexPath pages top [] top [] [] []
  | step {ancestors : List Nat} {parent child : Nat} {used leftUsed rightUsed : List Nat}
      {front back leftEntries rightEntries : List (IndexEntry κ)} {layout : Layout (IndexRoute κ)}
      {rightmost : Nat} {left right : List (IndexItem κ)}
      (upper : IndexPath pages top ancestors parent used front back)
      (content : pages.content parent = .indexInterior layout rightmost)
      (split : childItems layout.cells rightmost = left ++ .page child :: right)
      (before : pages.IndexReads left leftUsed leftEntries)
      (after : pages.IndexReads right rightUsed rightEntries) :
      IndexPath pages top (parent :: ancestors) child (parent :: (leftUsed ++ rightUsed) ++ used)
        (front ++ leftEntries) (rightEntries ++ back)

section Paths

variable {pages other : Pages ρ κ} {top hole : Nat} {ancestors used holeUsed : List Nat}
  {front back entries : List (IndexEntry κ)}

theorem IndexPath.congr (path : pages.IndexPath top ancestors hole used front back)
    (same : ∀ page ∈ used, other.content page = pages.content page) :
    other.IndexPath top ancestors hole used front back := by
  induction path with
  | here => exact .here
  | step _ content split before after ih =>
    apply IndexPath.step _ _ split
    · exact before.congr fun page mem =>
        same page (mem_append_left _ (.tail _ (mem_append_left _ mem)))
    · exact after.congr fun page mem =>
        same page (mem_append_left _ (.tail _ (mem_append_right _ mem)))
    · exact ih fun page mem => same page (mem_append_right _ mem)
    · rw [same _ (.head _), content]

theorem IndexPath.plug (path : pages.IndexPath top ancestors hole used front back)
    (reads : pages.IndexReads [.page hole] holeUsed entries) : ∃ whole, whole.Perm (used ++ holeUsed) ∧
      pages.IndexReads [.page top] whole (front ++ entries ++ back) := by
  induction path generalizing holeUsed entries with
  | here =>
    refine ⟨holeUsed, List.Perm.refl _, ?_⟩
    rw [append_nil]
    exact reads
  | @step ancestors parent child used leftUsed rightUsed front back leftEntries rightEntries layout
      rightmost left right upper content split before after ih =>
    have children : pages.IndexReads (childItems layout.cells rightmost)
        (leftUsed ++ (holeUsed ++ rightUsed)) (leftEntries ++ (entries ++ rightEntries)) := by
      rw [split]
      exact before.append (reads.append after)
    have items : (pages.content parent).items = some (childItems layout.cells rightmost) := by
      rw [content]
      rfl
    obtain ⟨whole, perm, read⟩ := ih (IndexReads.single.mpr ⟨_, _, items, rfl, children⟩)
    refine ⟨whole, perm.trans ?_, ?_⟩
    · rw [perm_iff_count]
      simp only [count_append, count_cons]
      omega
    · simpa only [append_assoc] using read

end Paths

end Pages


variable {ρ κ P : Type} [LinearOrder P]

structure KeyOrder (compareKeys : κ → κ → Ordering) (place : κ → P) (allowed : κ → Prop) : Prop where
  compared : ∀ first second, allowed first → allowed second →
    compareKeys first second = compare (place first) (place second)
  faithful : ∀ first second, allowed first → allowed second → place first = place second →
    first = second

section Order

variable {compareKeys : κ → κ → Ordering} {place : κ → P} {allowed : κ → Prop} {first second : κ}

theorem KeyOrder.lt_iff (order : KeyOrder compareKeys place allowed) (one : allowed first)
    (two : allowed second) : (compareKeys first second == .lt) = true ↔ place first < place second := by
  rw [beq_iff_eq, order.compared first second one two, compare_lt_iff_lt]

theorem KeyOrder.eq_iff (order : KeyOrder compareKeys place allowed) (one : allowed first)
    (two : allowed second) : (compareKeys first second == .eq) = true ↔ place first = place second := by
  rw [beq_iff_eq, order.compared first second one two, compare_eq_iff_eq]

end Order

def Ascends (place : κ → P) (entries : List (IndexEntry κ)) : Prop :=
  entries.Pairwise fun first second => place first.key < place second.key

structure Parts (place : κ → P) (key : κ) (front back : List (IndexEntry κ)) : Prop where
  before : ∀ entry ∈ front, place entry.key < place key
  after : ∀ entry ∈ back, place key < place entry.key

theorem Parts.append {place : κ → P} {key : κ} {front back more less : List (IndexEntry κ)}
    (outer : Parts place key front back) (inner : Parts place key more less) :
    Parts place key (front ++ more) (less ++ back) := by
  constructor
  · intro entry mem
    rcases mem_append.mp mem with first | second
    · exact outer.before entry first
    · exact inner.before entry second
  · intro entry mem
    rcases mem_append.mp mem with first | second
    · exact inner.after entry first
    · exact outer.after entry second

variable {before after : List (IndexEntry κ)}

theorem Parts.absent {place : κ → P} {key : κ} (parts : Parts place key before after) :
    ∀ entry ∈ before ++ after, entry.key ≠ key := by
  rintro entry mem rfl
  rcases mem_append.mp mem with first | last
  · exact lt_irrefl _ (parts.before entry first)
  · exact lt_irrefl _ (parts.after entry last)

theorem Ascends.insert {place : κ → P} (cell : IndexEntry κ)
    (ascends : Ascends place (before ++ after)) (parts : Parts place cell.key before after) :
    Ascends place (before ++ cell :: after) := by
  obtain ⟨first, last, across⟩ := pairwise_append.mp ascends
  refine pairwise_append.mpr ⟨first, pairwise_cons.mpr ⟨parts.after, last⟩, ?_⟩
  intro entry mem held listed
  rcases mem_cons.mp listed with rfl | later
  · exact parts.before entry mem
  · exact across entry mem held later

theorem Ascends.without {place : κ → P} {entry : IndexEntry κ}
    (ascends : Ascends place (before ++ entry :: after)) : Ascends place (before ++ after) :=
  List.Pairwise.sublist ((sublist_cons_self entry after).append_left before) ascends

theorem routeItems_append (front back : List (IndexRoute κ)) :
    routeItems (front ++ back) = routeItems front ++ routeItems back := flatMap_append

namespace Pages

variable {pages : Pages ρ κ} {place : κ → P} {key : κ} {compareKeys : κ → κ → Ordering}
  {allowed : κ → Prop} {entries : List (IndexEntry κ)}

theorem IndexReads.below_routes {routes : List (IndexRoute κ)} {used : List Nat}
    (reads : pages.IndexReads (routeItems routes) used entries)
    (ascends : Ascends place entries) (less : ∀ route ∈ routes, place route.entry.key < place key) :
    ∀ entry ∈ entries, place entry.key < place key := by
  rcases eq_nil_or_concat routes with rfl | ⟨earlier, last, rfl⟩
  · cases reads
    exact fun entry mem => nomatch mem
  rw [concat_eq_append] at reads less
  rw [routeItems_append] at reads
  have whole : pages.IndexReads ((routeItems earlier ++ [.page last.child]) ++
      [.entry last.entry]) used entries := by
    rw [append_assoc]
    exact reads
  obtain ⟨_, _, front, final, _, rfl, _, own⟩ := whole.split
  have only := (@IndexReads.entries_eq ρ κ pages _ _ [last.entry] own).2
  subst only
  have greatest := less last (mem_append_right _ (.head _))
  intro entry mem
  rcases mem_append.mp mem with inside | same
  · exact ((pairwise_append.mp ascends).2.2 entry inside last.entry (.head _)).trans greatest
  · cases mem_singleton.mp same
    exact greatest

theorem above_entry {entry : IndexEntry κ}
    (ascends : Ascends place (entry :: entries)) (greater : place key < place entry.key) :
    ∀ held ∈ entry :: entries, place key < place held.key := by
  intro held mem
  rcases mem_cons.mp mem with rfl | later
  · exact greater
  · exact greater.trans ((pairwise_cons.mp ascends).1 held later)

structure ReadsIndex (place : κ → P) (allowed : κ → Prop) (pages : Pages ρ κ) (root : Nat)
    (used : List Nat) (entries : List (IndexEntry κ)) : Prop where
  reads : pages.IndexReads [.page root] used entries
  ascends : Ascends place entries
  allows : ∀ entry ∈ entries, allowed entry.key

structure AtLeaf (place : κ → P) (pages : Pages ρ κ) (root : Nat) (key : κ) (used : List Nat)
    (entries : List (IndexEntry κ)) (ancestors : List Nat) (leaf : Nat) (pathUsed : List Nat)
    (front back : List (IndexEntry κ)) (layout : Layout (IndexEntry κ)) : Prop where
  path : pages.IndexPath root ancestors leaf pathUsed front back
  content : pages.content leaf = .indexLeaf layout
  intact : ∀ entry ∈ layout.cells, pages.KeyIntact entry
  uses : (pathUsed ++ leaf :: keyPages layout.cells).Perm used
  whole : front ++ layout.cells ++ back = entries
  parts : Parts place key front back

/-- A search ended at an entry of an interior page, which follows a child. -/
structure AtEntry (place : κ → P) (pages : Pages ρ κ) (root : Nat) (key : κ) (used : List Nat)
    (entries : List (IndexEntry κ)) (page child : Nat) (ancestors pathUsed : List Nat)
    (front back : List (IndexEntry κ)) (earlier later : List (IndexRoute κ)) (entry : IndexEntry κ)
    (rightmost : Nat) : Prop where
  path : pages.IndexPath root ancestors page pathUsed front back
  content : ∃ layout, pages.content page = .indexInterior layout rightmost ∧
    layout.cells = earlier ++ ⟨child, entry⟩ :: later
  reads : ∃ below held,
    pages.IndexReads (childItems (earlier ++ ⟨child, entry⟩ :: later) rightmost) below held ∧
      (pathUsed ++ page :: below).Perm used ∧ front ++ held ++ back = entries
  same : place entry.key = place key

def Landed (place : κ → P) (pages : Pages ρ κ) (root : Nat) (key : κ) (used : List Nat)
    (entries : List (IndexEntry κ)) : IndexDescent → Prop
  | .leaf ancestors leaf => ∃ pathUsed front back layout,
      AtLeaf place pages root key used entries ancestors leaf pathUsed front back layout
  | .interiorMatch page child => ∃ ancestors pathUsed front back earlier later entry rightmost,
      AtEntry place pages root key used entries page child ancestors pathUsed front back earlier
        later entry rightmost

variable {root page rightmost : Nat} {res : IndexDescent} {front back : List (IndexEntry κ)}
  {layout : Layout (IndexRoute κ)}

theorem Landed.perm {used other : List Nat}
    (landed : Landed place pages root key used entries res) (same : used.Perm other) :
    Landed place pages root key other entries res := by
  cases res with
  | leaf ancestors leaf =>
    obtain ⟨pathUsed, front, back, layout, path, content, intact, uses, whole, parts⟩ := landed
    exact ⟨pathUsed, front, back, layout, path, content, intact, uses.trans same, whole, parts⟩
  | interiorMatch page child =>
    obtain ⟨ancestors, pathUsed, front, back, earlier, later, entry, rightmost, path, content,
      ⟨below, held, reads, uses, whole⟩, equal⟩ := landed
    exact ⟨ancestors, pathUsed, front, back, earlier, later, entry, rightmost, path, content,
      ⟨below, held, reads, uses.trans same, whole⟩, equal⟩

theorem IndexPath.enter {child : Nat} {ancestors used below : List Nat} {held : List (IndexEntry κ)}
    {left right : List (IndexItem κ)} (path : pages.IndexPath root ancestors page used front back)
    (content : pages.content page = .indexInterior layout rightmost)
    (reads : pages.IndexReads (childItems layout.cells rightmost) below held)
    (split : childItems layout.cells rightmost = left ++ .page child :: right)
    (parts : Parts place key front back) (inner : ∀ leftUsed leftEntries rightUsed rightEntries,
      pages.IndexReads left leftUsed leftEntries → pages.IndexReads right rightUsed rightEntries →
      (∃ own, held = leftEntries ++ own ++ rightEntries) →
      Parts place key leftEntries rightEntries) : ∃ pathUsed holeUsed pathFront pathBack own,
      pages.IndexPath root (page :: ancestors) child pathUsed pathFront pathBack ∧
        pages.IndexReads [.page child] holeUsed own ∧ Parts place key pathFront pathBack ∧
        (pathUsed ++ holeUsed).Perm (used ++ page :: below) ∧
        pathFront ++ own ++ pathBack = front ++ held ++ back := by
  rw [split] at reads
  obtain ⟨leftUsed, restUsed, leftEntries, restEntries, rfl, rfl, before, rest⟩ := reads.split
  obtain ⟨ownUsed, rightUsed, own, rightEntries, rfl, rfl, hole, after⟩ :=
    (show pages.IndexReads ([.page child] ++ right) _ _ from rest).split
  have sides := inner _ _ _ _ before after ⟨own, (append_assoc ..).symm⟩
  refine ⟨_, ownUsed, _, _, own, .step path content split before after, hole, parts.append sides, ?_,
    ?_⟩
  · rw [perm_iff_count]
    simp only [count_append, count_cons]
    omega
  · simp [append_assoc]

theorem items_elsewhere {content : Page ρ κ} {items : List (IndexItem κ)}
    (held : content.items = some items) (leaf : ∀ layout, content = .indexLeaf layout → False)
    (interior : ∀ layout rightmost, content = .indexInterior layout rightmost → False) : False := by
  cases content with
  | indexLeaf layout => exact leaf layout rfl
  | indexInterior layout rightmost => exact interior layout rightmost rfl
  | _ => cases held

theorem items_interior {content : Page ρ κ} (here : content = .indexInterior layout rightmost) :
    content.items = some (childItems layout.cells rightmost) := by
  rw [here]
  rfl

theorem routeItems_cons (route : IndexRoute κ) (rest : List (IndexRoute κ)) :
    routeItems (route :: rest) = .page route.child :: .entry route.entry :: routeItems rest := rfl

theorem IndexPath.descend (order : KeyOrder compareKeys place allowed) (keyOk : allowed key)
    (budget : Nat) {before used holeUsed : List Nat}
    (path : pages.IndexPath root before page used front back)
    (reads : pages.IndexReads [.page page] holeUsed entries)
    (ascends : Ascends place (front ++ entries ++ back))
    (allows : ∀ entry ∈ front ++ entries ++ back, allowed entry.key)
    (parts : Parts place key front back)
    (found : pages.descendIndexTree compareKeys key budget before page = .ok res) :
    Landed place pages root key (used ++ holeUsed) (front ++ entries ++ back) res := by
  induction budget generalizing page before used holeUsed front back entries with
  | zero => cases found
  | succ budget ih =>
    obtain ⟨items, below, here, rfl, later⟩ := IndexReads.single.mp reads
    unfold descendIndexTree at found
    split at found
    · rename_i layout content
      cases found
      rw [content] at here
      cases here
      obtain ⟨rfl, rfl⟩ := later.entries_eq
      exact ⟨used, front, back, layout, path, content, later.intact, .refl _, rfl, parts⟩
    · rename_i layout rightmost content
      rw [items_interior content] at here
      cases here
      have own := (pairwise_append.mp (pairwise_append.mp ascends).1).2.1
      have held : ∀ route ∈ layout.cells, allowed route.entry.key := by
        intro route mem
        apply allows
        refine mem_append_left _ (mem_append_right _ (later.holds _ ?_))
        refine mem_append_left _ (mem_flatMap.mpr ⟨route, mem, ?_⟩)
        exact .tail _ (.head _)
      split at found
      · rename_i route matched
        cases found
        obtain ⟨equal, earlier, following, cells, _⟩ := List.find?_eq_some_iff_append.mp matched
        have mem := mem_of_find?_eq_some matched
        have same := (order.eq_iff keyOk (held route mem)).mp equal
        refine ⟨before, used, front, back, earlier, following, route.entry, rightmost, path,
          ⟨layout, content, cells⟩, ⟨below, entries, ?_, .refl _, rfl⟩, same.symm⟩
        rw [cells] at later
        exact later
      rename_i unmatched
      have other : ∀ route ∈ layout.cells, place key ≠ place route.entry.key := by
        intro route mem equal
        exact List.find?_eq_none.mp unmatched route mem
          ((order.eq_iff keyOk (held route mem)).mpr equal)
      -- The routes passed by are smaller: they are neither greater nor equal.
      have smaller : ∀ route ∈ layout.cells, (compareKeys key route.entry.key == .lt) ≠ true →
          place route.entry.key < place key := by
        intro route mem notLess
        rw [ne_eq, order.lt_iff keyOk (held route mem), not_lt] at notLess
        exact notLess.lt_of_ne (other route mem).symm
      split at found
      on_goal 1 =>
        rename_i route less
        obtain ⟨greater, earlier, following, cells, passed⟩ := List.find?_eq_some_iff_append.mp less
        have mem := mem_of_find?_eq_some less
        have above := (order.lt_iff keyOk (held route mem)).mp greater
        have split : childItems layout.cells rightmost = routeItems earlier ++
            .page route.child :: (.entry route.entry :: childItems following rightmost) := by
          rw [cells, childItems, routeItems_append, append_assoc]
          rfl
        obtain ⟨pathUsed, holeUsed, pathFront, pathBack, entries', lower, hole, sides, perm,
          whole⟩ := path.enter content later split parts (by
            rintro leftUsed leftEntries rightUsed rightEntries left right ⟨inner, rfl⟩
            obtain ⟨leftAscends, rightAscends, _⟩ := pairwise_append.mp own
            constructor
            · apply left.below_routes (pairwise_append.mp leftAscends).1
              intro passing among
              apply smaller passing (cells ▸ mem_append_left _ among)
              simpa using passed passing among
            · cases right with
              | entry _ rest => exact above_entry rightAscends above)
      on_goal 2 =>
        rename_i none
        have split : childItems layout.cells rightmost = routeItems layout.cells ++
            .page rightmost :: [] := rfl
        obtain ⟨pathUsed, holeUsed, pathFront, pathBack, entries', lower, hole, sides, perm,
          whole⟩ := path.enter content later split parts (by
            rintro leftUsed leftEntries rightUsed rightEntries left right ⟨inner, rfl⟩
            obtain ⟨leftAscends, _, _⟩ := pairwise_append.mp own
            constructor
            · apply left.below_routes (pairwise_append.mp leftAscends).1
              intro passing among
              exact smaller passing among (List.find?_eq_none.mp none passing among)
            · cases right
              exact fun entry mem => nomatch mem)
      all_goals
        rw [← whole] at ascends allows ⊢
        have landed := ih lower hole ascends allows sides found
        exact landed.perm perm
    · cases found

theorem ReadsIndex.descend {used : List Nat}
    (index : ReadsIndex place allowed pages root used entries)
    (order : KeyOrder compareKeys place allowed) (keyOk : allowed key)
    (found : pages.descendIndexTree compareKeys key maxPagesVisited [] root = .ok res) :
    Landed place pages root key used entries res := by
  have whole : [] ++ entries ++ [] = entries := append_nil entries
  have landed := IndexPath.here.descend order keyOk maxPagesVisited index.reads
    (whole.symm ▸ index.ascends) (whole.symm ▸ index.allows)
    ⟨fun entry mem => (nomatch mem), fun entry mem => nomatch mem⟩ found
  rwa [whole] at landed

section Leaf

variable {entries : List (IndexEntry κ)}

def Searched (place : κ → P) (entries : List (IndexEntry κ)) (key : κ) : LeafSearch → Prop
  | .found position => ∃ entry, entries[position]? = some entry ∧ place entry.key = place key
  | .notFound position => position ≤ entries.length ∧
      Parts place key (entries.take position) (entries.drop position)

section

variable (order : KeyOrder compareKeys place allowed) (keyOk : allowed key)
  (ascends : Ascends place entries) (allows : ∀ entry ∈ entries, allowed entry.key)

include order keyOk ascends allows

theorem searchIndexLeaf_spec (rounds : Nat)
    {low high : Nat} (ordered : low ≤ high) (bound : high ≤ entries.length)
    (enough : high < low + rounds) (parts : Parts place key (entries.take low) (entries.drop high)) :
    Searched place entries key (searchIndexLeaf compareKeys entries key rounds low high) := by
  induction rounds generalizing low high with
  | zero => omega
  | succ rounds ih =>
    unfold searchIndexLeaf
    split
    · have inside : low + (high - low) / 2 < entries.length := by omega
      simp only
      rw [List.getElem?_eq_getElem inside]
      have mem := getElem_mem inside
      have compared := order.compared key _ keyOk (allows _ mem)
      obtain ⟨before, after, across⟩ := pairwise_append.mp
        (take_append_drop (low + (high - low) / 2) entries ▸ ascends)
      rw [drop_eq_getElem_cons inside] at after across
      simp only
      split
      · rename_i equal
        rw [compared, compare_eq_iff_eq] at equal
        exact ⟨_, List.getElem?_eq_getElem inside, equal.symm⟩
      · rename_i less
        rw [compared, compare_lt_iff_lt] at less
        refine ih (by omega) (by omega) (by omega) ⟨parts.before, ?_⟩
        rw [drop_eq_getElem_cons inside]
        exact above_entry after less
      · rename_i greater
        rw [compared, compare_gt_iff_gt] at greater
        refine ih (by omega) bound (by omega) ⟨?_, parts.after⟩
        rw [take_succ_eq_append_getElem inside]
        intro entry among
        rcases mem_append.mp among with earlier | same
        · exact (across entry earlier _ (.head _)).trans greater
        · cases mem_singleton.mp same
          exact greater
    · rename_i empty
      have equal : low = high := by omega
      subst equal
      exact ⟨bound, parts⟩

theorem searchIndexLeaf_whole : Searched place entries key
      (searchIndexLeaf compareKeys entries key (entries.length + 1) 0 entries.length) := by
  apply searchIndexLeaf_spec order keyOk ascends allows
  · omega
  · exact Nat.le_refl _
  · omega
  · rw [drop_length]
    exact ⟨fun entry mem => (nomatch mem), fun entry mem => nomatch mem⟩

end

end Leaf

section Levels

variable {other : Pages ρ κ} {items : List (IndexItem κ)} {used : List Nat}
  {entries : List (IndexEntry κ)}

def IndexLevels (pages : Pages ρ κ) : Nat → Nat → Prop
  | 0, _ => False
  | levels + 1, page =>
    match pages.content page with
    | .indexInterior layout rightmost => pages.IndexLevels levels rightmost ∧
        ∀ route ∈ layout.cells, pages.IndexLevels levels route.child
    | _ => True

theorem mem_childItems {routes : List (IndexRoute κ)} {rightmost page : Nat} :
    .page page ∈ childItems routes rightmost ↔
      page = rightmost ∨ ∃ route ∈ routes, route.child = page := by
  unfold childItems routeItems
  rw [mem_append, mem_flatMap]
  constructor
  · rintro (⟨route, mem, listed⟩ | last)
    · right
      refine ⟨route, mem, ?_⟩
      rcases mem_cons.mp listed with same | listed
      · injection same with same
        exact same.symm
      · cases mem_singleton.mp listed
    · left
      injection mem_singleton.mp last
  · rintro (rfl | ⟨route, mem, rfl⟩)
    · exact .inr (.head _)
    · exact .inl ⟨route, mem, .head _⟩

theorem IndexReads.child (reads : pages.IndexReads items used entries) {page : Nat}
    (mem : .page page ∈ items) : ∃ own held, pages.IndexReads [.page page] own held := by
  obtain ⟨left, right, rfl⟩ := append_of_mem mem
  obtain ⟨_, _, _, _, _, _, _, rest⟩ := reads.split
  obtain ⟨_, _, _, _, _, _, own, _⟩ :=
    (show pages.IndexReads ([.page page] ++ right) _ _ from rest).split
  exact ⟨_, _, own⟩

theorem IndexReads.descend_ok (compareKeys : κ → κ → Ordering) (key : κ) (levels : Nat) {page : Nat}
    {used : List Nat} {entries : List (IndexEntry κ)} (before : List Nat)
    (reads : pages.IndexReads [.page page] used entries) (within : pages.IndexLevels levels page) :
    ∃ res, pages.descendIndexTree compareKeys key levels before page = .ok res := by
  induction levels generalizing page used entries before with
  | zero => cases within
  | succ levels ih =>
    obtain ⟨items, below, here, rfl, later⟩ := IndexReads.single.mp reads
    unfold descendIndexTree
    unfold IndexLevels at within
    split
    · exact ⟨_, rfl⟩
    · rename_i layout rightmost content
      rw [content] at within
      rw [items_interior content] at here
      cases here
      split
      · exact ⟨_, rfl⟩
      split
      · rename_i route less
        have mem := mem_of_find?_eq_some less
        obtain ⟨own, held, inner⟩ := later.child (mem_childItems.mpr (.inr ⟨route, mem, rfl⟩))
        exact ih _ inner (within.2 route mem)
      · obtain ⟨own, held, inner⟩ := later.child (mem_childItems.mpr (.inl rfl))
        exact ih _ inner within.1
    · rename_i leaf interior
      exact (items_elsewhere here leaf interior).elim

end Levels

end Pages

end SqliteRs
