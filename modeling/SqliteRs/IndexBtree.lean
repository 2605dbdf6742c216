import SqliteRs.BtreePages

/-!
Insertion into and deletion from index b-trees. An interior page carries whole
entries, so both leaf and interior splits promote their median entry into the
parent. Deleting an entry of an interior page puts the entry before it, the
greatest of its child's subtree, in its place; an emptied page stays where it
is unless such a search finds its whole subtree drained.
-/

namespace SqliteRs

inductive IndexDescent where
  | leaf (ancestors : List Nat) (page : Nat)
  | interiorMatch (page child : Nat)

inductive LeafSearch where
  | found (position : Nat)
  | notFound (position : Nat)

namespace Pages

variable {ρ κ : Type} (geom : Geometry) (compareKeys : κ → κ → Ordering)

def descendIndexTree (pages : Pages ρ κ) (key : κ) :
    Nat → List Nat → Nat → Except BtreeError IndexDescent
  | 0, _, _ => .error .traversalTooLong
  | budget + 1, ancestors, page =>
    match pages.content page with
    | .indexLeaf _ => .ok (.leaf ancestors page)
    | .indexInterior layout rightmost =>
      match layout.cells.find? fun route => compareKeys key route.entry.key == .eq with
      | some route => .ok (.interiorMatch page route.child)
      | none =>
        match layout.cells.find? fun route => compareKeys key route.entry.key == .lt with
        | some route => descendIndexTree pages key budget (page :: ancestors) route.child
        | none => descendIndexTree pages key budget (page :: ancestors) rightmost
    | _ => .error (.unexpectedPageType page)

/-- Binary search between two positions of a leaf; every round halves their distance. -/
def searchIndexLeaf (entries : List (IndexEntry κ)) (key : κ) : Nat → Nat → Nat → LeafSearch
  | 0, low, _ => .notFound low
  | rounds + 1, low, high =>
    if low < high then
      let middle := low + (high - low) / 2
      match entries[middle]? with
      | none => .notFound low
      | some entry =>
        match compareKeys key entry.key with
        | .eq => .found middle
        | .lt => searchIndexLeaf entries key rounds low middle
        | .gt => searchIndexLeaf entries key rounds (middle + 1) high
    else .notFound low

section Insert

def fillKeyChain (key : κ) : Nat → List Nat → Pages ρ κ → Pages ρ κ
  | _, [], pages => pages
  | part, page :: rest, pages =>
    fillKeyChain key (part + 1) rest (pages.set page (.keyChain key part))

theorem fills_keyChain (key : κ) : Fills (fillKeyChain (ρ := ρ) key) (.keyChain key) :=
  ⟨fun _ _ => rfl, fun _ _ _ _ => rfl⟩

def encodeIndexCell (key : κ) (length : Nat) (pages : Pages ρ κ) : IndexEntry κ × Pages ρ κ :=
  let (chain, pages) := pages.allocatePages (geom.chainLength length true)
  ({ key, length, overflow := chain }, pages.fillKeyChain key 0 chain)

def indexRootSplit (root right : Nat) (promoted : IndexEntry κ) (pages : Pages ρ κ) :
    Except BtreeError (Pages ρ κ) :=
  match pages.content root with
  | .indexLeaf layout =>
    let (relocated, pages) := pages.allocatePage
    .ok ((pages.writeIndexLeafPage geom relocated layout.cells).writeIndexInteriorPage
      geom root [⟨relocated, promoted⟩] right)
  | .indexInterior layout rightmost =>
    let (relocated, pages) := pages.allocatePage
    .ok ((pages.writeIndexInteriorPage geom relocated layout.cells
      rightmost).writeIndexInteriorPage geom root [⟨relocated, promoted⟩] right)
  | _ => .error (.unexpectedPageType root)

/-- The promoted entry goes before the entry of the split child, which keeps its
own entry and gets the new page as its child. -/
def splitIndexRoute (old new : Nat) (promoted : IndexEntry κ) :
    List (IndexRoute κ) → Option (List (IndexRoute κ))
  | [] => none
  | route :: rest =>
    if route.child = old then some (⟨old, promoted⟩ :: ⟨new, route.entry⟩ :: rest)
    else (splitIndexRoute old new promoted rest).map (route :: ·)

theorem splitIndexRoute_edits (old new : Nat) (promoted : IndexEntry κ) :
    EditsFirst (·.child = old) (fun route => [⟨old, promoted⟩, ⟨new, route.entry⟩])
      (splitIndexRoute old new promoted) :=
  ⟨rfl, fun _ met => if_pos met, fun _ other => if_neg other⟩

def splitIndexRoutes (routes : List (IndexRoute κ)) (rightmost old new : Nat)
    (promoted : IndexEntry κ) : Option (List (IndexRoute κ) × Nat) :=
  match splitIndexRoute old new promoted routes with
  | some routes => some (routes, rightmost)
  | none => if rightmost = old then some (routes ++ [⟨old, promoted⟩], new) else none

/-- Cuts an interior page at its median: entries before it stay, entries after
it go to a new page, and the median's child ends the left half. -/
def splitIndexInterior (parent : Nat) (routes : List (IndexRoute κ)) (median : IndexRoute κ)
    (rightmost : Nat) (pages : Pages ρ κ) : Nat × Pages ρ κ :=
  let (right, pages) := pages.allocatePage
  (right, (pages.writeIndexInteriorPage geom parent (routes.take (routes.length / 2))
    median.child).writeIndexInteriorPage geom right (routes.drop (routes.length / 2 + 1))
      rightmost)

def splitIndexLeaf (leaf : Nat) (cells : List (IndexEntry κ)) (pages : Pages ρ κ) :
    Nat × Pages ρ κ :=
  let (right, pages) := pages.allocatePage
  (right, (pages.writeIndexLeafPage geom leaf (cells.take (cells.length / 2))).writeIndexLeafPage
    geom right (cells.drop (cells.length / 2 + 1)))

def insertIntoIndexParent (root : Nat) :
    List Nat → Nat → Nat → IndexEntry κ → Pages ρ κ → Except BtreeError (Pages ρ κ)
  | [], _, new, promoted, pages => indexRootSplit geom root new promoted pages
  | parent :: rest, old, new, promoted, pages =>
    match pages.content parent with
    | .indexInterior layout rightmost =>
      match splitIndexRoutes layout.cells rightmost old new promoted with
      | none => .error (.missingChildRoute parent old)
      | some (routes, rightmost) =>
        if interiorBase parent + 2 * routes.length +
            cellBytes (indexRouteSize geom) routes ≤ geom.pageLen then
          .ok (pages.writeIndexInteriorPage geom parent routes rightmost)
        else
          match routes[routes.length / 2]? with
          | none => .error .internal
          | some median =>
            let (right, pages) :=
              splitIndexInterior geom parent routes median rightmost pages
            insertIntoIndexParent root rest parent right median.entry pages
    | _ => .error (.unexpectedPageType parent)

def insertIntoIndexLeaf (root : Nat) (ancestors : List Nat) (leaf : Nat) (key : κ) (length : Nat)
    (pages : Pages ρ κ) : Except BtreeError (Pages ρ κ) :=
  match pages.content leaf with
  | .indexLeaf layout =>
    match searchIndexLeaf compareKeys layout.cells key (layout.cells.length + 1) 0
        layout.cells.length with
    | .found _ => .error .duplicateKey
    | .notFound position =>
      let (cell, pages) := pages.encodeIndexCell geom key length
      let cells := layout.cells.insertIdx position cell
      if leafBase leaf + 2 * (layout.cells.length + 1) + (entrySize geom cell +
          cellBytes (entrySize geom) layout.cells) ≤ geom.pageLen then
        match layout.spliceInsertCell (entrySize geom) (leafBase leaf) position cell with
        | some spliced => .ok (pages.set leaf (.indexLeaf spliced))
        | none => .ok (pages.writeIndexLeafPage geom leaf cells)
      else
        match cells[cells.length / 2]? with
        | none => .error .internal
        | some median =>
          let (right, pages) := splitIndexLeaf geom leaf cells pages
          insertIntoIndexParent geom root ancestors leaf right median pages
  | _ => .error (.unexpectedPageType leaf)

def insertEntry (root : Nat) (key : κ) (length : Nat) (pages : Pages ρ κ) :
    Except BtreeError (Pages ρ κ) :=
  match pages.descendIndexTree compareKeys key maxPagesVisited [] root with
  | .error error => .error error
  | .ok (.interiorMatch _ _) => .error .duplicateKey
  | .ok (.leaf ancestors leaf) =>
    insertIntoIndexLeaf geom compareKeys root ancestors leaf key length pages

end Insert

section Delete

def deleteFromLeaf (leaf : Nat) (key : κ) (pages : Pages ρ κ) : Except BtreeError (Pages ρ κ) :=
  match pages.content leaf with
  | .indexLeaf layout =>
    match searchIndexLeaf compareKeys layout.cells key (layout.cells.length + 1) 0
        layout.cells.length with
    | .notFound _ => .error .keyNotFound
    | .found position =>
      match layout.spliceDeleteCell (entrySize geom) position with
      | none => .error .internal
      | some spliced =>
        .ok ((pages.set leaf (.indexLeaf spliced)).freeOverflowChain geom
          ((layout.cells[position]?.map IndexEntry.overflow).getD []))
  | _ => .error (.unexpectedPageType leaf)

/-- Takes the greatest entry out of a subtree; a drained subtree gives none and
has freed every page below its root. -/
def extractMaxEntry : Nat → Nat → Pages ρ κ → Except BtreeError (Option (IndexEntry κ) × Pages ρ κ)
  | 0, _, _ => .error .traversalTooLong
  | budget + 1, page, pages =>
    match pages.content page with
    | .indexLeaf layout =>
      match layout.cells.getLast? with
      | none => .ok (none, pages)
      | some greatest =>
        match layout.spliceDeleteCell (entrySize geom) (layout.cells.length - 1) with
        | none => .error .internal
        | some spliced => .ok (some greatest, pages.set page (.indexLeaf spliced))
    | .indexInterior layout rightmost =>
      match extractMaxEntry budget rightmost pages with
      | .error error => .error error
      | .ok (some greatest, pages) => .ok (some greatest, pages)
      | .ok (none, pages) =>
        match layout.cells.getLast? with
        | none => .ok (none, pages.deallocatePage geom rightmost)
        | some last =>
          .ok (some last.entry, (pages.deallocatePage geom
            rightmost).writeIndexInteriorPage geom page layout.cells.dropLast last.child)
    | _ => .error (.unexpectedPageType page)

def replaceEntry (child : Nat) (entry : IndexEntry κ) :
    List (IndexRoute κ) → Option (List (IndexRoute κ))
  | [] => none
  | route :: rest =>
    if route.child = child then some (⟨child, entry⟩ :: rest)
    else (replaceEntry child entry rest).map (route :: ·)

theorem replaceEntry_edits (child : Nat) (entry : IndexEntry κ) :
    EditsFirst (·.child = child) (fun _ => [⟨child, entry⟩]) (replaceEntry child entry) :=
  ⟨rfl, fun _ met => if_pos met, fun _ other => if_neg other⟩

def removeEntryByChild (page child : Nat) (pages : Pages ρ κ) : Except BtreeError (Pages ρ κ) :=
  match pages.content page with
  | .indexInterior layout rightmost =>
    match layout.cells.find? fun route => route.child == child with
    | none => .error (.missingChildRoute page child)
    | some removed =>
      .ok ((pages.writeIndexInteriorPage geom page
        (layout.cells.eraseP fun route => route.child == child) rightmost).freeOverflowChain
          geom removed.entry.overflow)
  | _ => .error (.unexpectedPageType page)

def deleteViaPredecessorSwap (page child : Nat) (pages : Pages ρ κ) :
    Except BtreeError (Pages ρ κ) :=
  match extractMaxEntry geom (maxPagesVisited + 1) child pages with
  | .error error => .error error
  | .ok (none, pages) => removeEntryByChild geom page child (pages.deallocatePage geom child)
  | .ok (some predecessor, pages) =>
    match pages.content page with
    | .indexInterior layout rightmost =>
      match replaceEntry child predecessor layout.cells with
      | none => .error .internal
      | some routes => .ok (pages.writeIndexInteriorPage geom page routes rightmost)
    | _ => .error (.unexpectedPageType page)

def deleteEntry (root : Nat) (key : κ) (pages : Pages ρ κ) : Except BtreeError (Pages ρ κ) :=
  match pages.descendIndexTree compareKeys key maxPagesVisited [] root with
  | .error error => .error error
  | .ok (.leaf _ leaf) => deleteFromLeaf geom compareKeys leaf key pages
  | .ok (.interiorMatch page child) => deleteViaPredecessorSwap geom page child pages

end Delete

end Pages

end SqliteRs
