import SqliteRs.BtreePages

/-!
Insertion into and deletion from table b-trees. A leaf that overflows is split
by the number of its cells, and the split goes up through the ancestors; the
root keeps its page number, so its content moves when the root is split. A leaf
that empties is taken out of its parent, and a parent left with one child is
replaced by it. Ancestors are listed from the parent of the leaf to the root.
A cursor keeps pages as they were when it came to them, and reads children when it gets there.
-/

namespace SqliteRs

namespace Pages

variable {ρ κ : Type} (geom : Geometry)

def routeFor (routes : List Route) (rightmost : Nat) (rowid : Int) : Nat :=
  match routes.find? fun route => decide (rowid ≤ route.key) with
  | some route => route.child
  | none => rightmost

def findLeafPage (pages : Pages ρ κ) (rowid : Int) :
    Nat → List Nat → Nat → Except BtreeError (List Nat × Nat)
  | 0, _, _ => .error .traversalTooLong
  | budget + 1, ancestors, page =>
    match pages.content page with
    | .tableLeaf _ => .ok (ancestors, page)
    | .tableInterior layout rightmost =>
      findLeafPage pages rowid budget (page :: ancestors)
        (routeFor layout.cells rightmost rowid)
    | _ => .error (.unexpectedPageType page)

section Insert

def fillChain (payload : ρ) : Nat → List Nat → Pages ρ κ → Pages ρ κ
  | _, [], pages => pages
  | part, page :: rest, pages =>
    fillChain payload (part + 1) rest (pages.set page (.chain payload part))

theorem fills_chain (payload : ρ) : Fills (fillChain (κ := κ) payload) (.chain payload) :=
  ⟨fun _ _ => rfl, fun _ _ _ _ => rfl⟩

/-- Frames a payload into a cell; what does not stay on the page goes to new overflow pages. -/
def encodeLeafCell (rowid : Int) (payload : ρ) (length : Nat) (pages : Pages ρ κ) :
    LeafCell ρ × Pages ρ κ :=
  let (chain, pages) := pages.allocatePages (geom.chainLength length false)
  ({ rowid, length, payload, overflow := chain }, pages.fillChain payload 0 chain)

def rootSplit (root right : Nat) (divider : Int) (pages : Pages ρ κ) :
    Except BtreeError (Pages ρ κ) :=
  match pages.content root with
  | .tableLeaf layout =>
    let (relocated, pages) := pages.allocatePage
    .ok ((pages.writeLeafPage geom relocated layout.cells).writeInteriorPage geom root
      [⟨relocated, divider⟩] right)
  | .tableInterior layout rightmost =>
    let (relocated, pages) := pages.allocatePage
    .ok ((pages.writeInteriorPage geom relocated layout.cells rightmost).writeInteriorPage
      geom root [⟨relocated, divider⟩] right)
  | _ => .error (.unexpectedPageType root)

/-- The routes of a parent after its child was split: the old page up to the
divider, the new page up to the old key. -/
def splitRoute (old new : Nat) (divider : Int) : List Route → Option (List Route)
  | [] => none
  | route :: rest =>
    if route.child = old then some (⟨old, divider⟩ :: ⟨new, route.key⟩ :: rest)
    else (splitRoute old new divider rest).map (route :: ·)

theorem splitRoute_edits (old new : Nat) (divider : Int) :
    EditsFirst (·.child = old) (fun route => [⟨old, divider⟩, ⟨new, route.key⟩])
      (splitRoute old new divider) :=
  ⟨rfl, fun _ met => if_pos met, fun _ other => if_neg other⟩

def splitRoutes (routes : List Route) (rightmost old new : Nat) (divider : Int) :
    Option (List Route × Nat) :=
  match splitRoute old new divider routes with
  | some routes => some (routes, rightmost)
  | none => if rightmost = old then some (routes ++ [⟨old, divider⟩], new) else none

def insertIntoParent (root : Nat) :
    List Nat → Nat → Nat → Int → Pages ρ κ → Except BtreeError (Pages ρ κ)
  | [], _, new, divider, pages => rootSplit geom root new divider pages
  | parent :: rest, old, new, divider, pages =>
    match pages.content parent with
    | .tableInterior layout rightmost =>
      match splitRoutes layout.cells rightmost old new divider with
      | none => .error (.missingChildRoute parent old)
      | some (routes, rightmost) =>
        if interiorBase parent + 2 * routes.length + cellBytes routeSize routes ≤
            geom.pageLen then
          .ok (pages.writeInteriorPage geom parent routes rightmost)
        else
          -- The median route goes up: its child ends the left half.
          match routes[routes.length / 2]? with
          | none => .error .internal
          | some promoted =>
            let (right, pages) := pages.allocatePage
            insertIntoParent root rest parent right promoted.key
              ((pages.writeInteriorPage geom parent (routes.take (routes.length / 2))
                promoted.child).writeInteriorPage geom right
                  (routes.drop (routes.length / 2 + 1)) rightmost)
    | _ => .error (.unexpectedPageType parent)

def insertIntoLeaf (root : Nat) (ancestors : List Nat) (leaf : Nat) (cell : LeafCell ρ)
    (pages : Pages ρ κ) : Except BtreeError (Pages ρ κ) :=
  match pages.content leaf with
  | .tableLeaf layout =>
    if layout.cells.any fun held => held.rowid == cell.rowid then
      .error (.duplicateRowid cell.rowid)
    else
      let position := layout.cells.findIdx fun held => decide (cell.rowid < held.rowid)
      let cells := layout.cells.insertIdx position cell
      if leafBase leaf + 2 * (layout.cells.length + 1) +
          cellBytes (leafCellSize geom) layout.cells + leafCellSize geom cell ≤
          geom.pageLen then
        match layout.spliceInsertCell (leafCellSize geom) (leafBase leaf) position cell with
        | some spliced => .ok (pages.set leaf (.tableLeaf spliced))
        | none => .ok (pages.writeLeafPage geom leaf cells)
      else
        let (right, pages) := pages.allocatePage
        let leftCount := (cells.length + 1) / 2
        match (cells.take leftCount).getLast? with
        | none => .error .internal
        | some last =>
          insertIntoParent geom root ancestors leaf right last.rowid
            ((pages.writeLeafPage geom leaf (cells.take leftCount)).writeLeafPage geom
              right (cells.drop leftCount))
  | _ => .error (.unexpectedPageType leaf)

def insertRow (root : Nat) (rowid : Int) (payload : ρ) (length : Nat) (pages : Pages ρ κ) :
    Except BtreeError (Pages ρ κ) :=
  let (cell, pages) := pages.encodeLeafCell geom rowid payload length
  match pages.findLeafPage rowid maxPagesVisited [] root with
  | .error error => .error error
  | .ok (ancestors, leaf) => insertIntoLeaf geom root ancestors leaf cell pages

end Insert

section Delete

def collapseRoot (root child : Nat) (pages : Pages ρ κ) : Except BtreeError (Pages ρ κ) :=
  match pages.content child with
  | .tableLeaf layout =>
    .ok ((pages.writeLeafPage geom root layout.cells).deallocatePage geom child)
  | .tableInterior layout rightmost =>
    .ok ((pages.writeInteriorPage geom root layout.cells rightmost).deallocatePage geom
      child)
  | _ => .error (.unexpectedPageType child)

def replaceRoute (old new : Nat) : List Route → Option (List Route)
  | [] => none
  | route :: rest =>
    if route.child = old then some (⟨new, route.key⟩ :: rest)
    else (replaceRoute old new rest).map (route :: ·)

theorem replaceRoute_edits (old new : Nat) :
    EditsFirst (·.child = old) (fun route => [⟨new, route.key⟩]) (replaceRoute old new) :=
  ⟨rfl, fun _ met => if_pos met, fun _ other => if_neg other⟩

def spliceChild (ancestors : List Nat) (old new : Nat) (pages : Pages ρ κ) :
    Except BtreeError (Pages ρ κ) :=
  match ancestors with
  | [] => .error .internal
  | parent :: _ =>
    match pages.content parent with
    | .tableInterior layout rightmost =>
      match replaceRoute old new layout.cells with
      | some routes => .ok (pages.writeInteriorPage geom parent routes rightmost)
      | none =>
        if rightmost = old then
          .ok (pages.writeInteriorPage geom parent layout.cells new)
        else .error (.missingChildRoute parent old)
    | _ => .error (.unexpectedPageType parent)

/-- The routes of a parent without an emptied child. When the rightmost child
empties, the last route's child takes its place. -/
def dropRoute (parent : Nat) (routes : List Route) (rightmost emptied : Nat) :
    Except BtreeError (List Route × Nat) :=
  if routes.any fun route => route.child == emptied then
    .ok (routes.eraseP fun route => route.child == emptied, rightmost)
  else if rightmost = emptied then
    match routes.getLast? with
    | none => .error .internal
    | some last => .ok (routes.dropLast, last.child)
  else .error (.missingChildRoute parent emptied)

def collapseIntoAncestors (root : Nat) (ancestors : List Nat) (emptied : Nat) (pages : Pages ρ κ) :
    Except BtreeError (Pages ρ κ) :=
  match ancestors with
  | [] => .error .internal
  | parent :: rest =>
    match pages.content parent with
    | .tableInterior layout rightmost =>
      match dropRoute parent layout.cells rightmost emptied with
      | .error error => .error error
      | .ok (routes, rightmost) =>
        if routes ≠ [] then .ok (pages.writeInteriorPage geom parent routes rightmost)
        else if parent = root then collapseRoot geom root rightmost pages
        else spliceChild geom rest parent rightmost (pages.deallocatePage geom parent)
    | _ => .error (.unexpectedPageType parent)

def releaseLeaf (leaf : Nat) (overflow : List Nat) (pages : Pages ρ κ) : Pages ρ κ :=
  ((pages.writeLeafPage geom leaf []).deallocatePage geom leaf).freeOverflowChain geom
    overflow

def deleteRow (root : Nat) (rowid : Int) (pages : Pages ρ κ) : Except BtreeError (Pages ρ κ) :=
  match pages.findLeafPage rowid maxPagesVisited [] root with
  | .error error => .error error
  | .ok (ancestors, leaf) =>
    match pages.content leaf with
    | .tableLeaf layout =>
      match layout.cells.find? fun held => held.rowid == rowid with
      | none => .error (.rowidNotFound rowid)
      | some cell =>
        if 1 < layout.cells.length ∨ ancestors = [] then
          let position := layout.cells.findIdx fun held => held.rowid == rowid
          match layout.spliceDeleteCell (leafCellSize geom) position with
          | none => .error .internal
          | some spliced =>
            .ok ((pages.set leaf (.tableLeaf spliced)).freeOverflowChain geom
              cell.overflow)
        else
          -- The leaf is freed before its parent forgets it.
          collapseIntoAncestors geom root ancestors leaf
            (pages.releaseLeaf geom leaf cell.overflow)
    | _ => .error (.unexpectedPageType leaf)

end Delete

end Pages

inductive Frame (ρ : Type) where
  | leaf (rest : List (LeafCell ρ))
  | interior (rest : List Nat)

structure TableCursor (ρ : Type) where
  stack : List (Frame ρ)
  budget : Nat

/-- What the top of a stack has to offer once its exhausted frames are gone. -/
inductive Upcoming (ρ : Type) where
  | done
  | row (cell : LeafCell ρ) (stack : List (Frame ρ))
  | child (page : Nat) (stack : List (Frame ρ))

def upcoming {ρ : Type} : List (Frame ρ) → Upcoming ρ
  | [] => .done
  | .leaf [] :: stack => upcoming stack
  | .leaf (cell :: rest) :: stack => .row cell (.leaf rest :: stack)
  | .interior [] :: stack => upcoming stack
  | .interior (page :: rest) :: stack => .child page (.interior rest :: stack)

namespace Pages

variable {ρ κ : Type} (pages : Pages ρ κ)

def pushPage (page : Nat) : Except BtreeError (Frame ρ) :=
  match pages.content page with
  | .tableLeaf layout => .ok (.leaf layout.cells)
  | .tableInterior layout rightmost =>
    .ok (.interior (layout.cells.map Route.child ++ [rightmost]))
  | _ => .error (.unexpectedPageType page)

def advance : Nat → List (Frame ρ) → Except BtreeError (Option (LeafCell ρ × TableCursor ρ))
  | budget, stack =>
    match upcoming stack with
    | .done => .ok none
    | .row cell stack => .ok (some (cell, { stack, budget }))
    | .child page stack =>
      match budget with
      | 0 => .error .traversalTooLong
      | budget + 1 =>
        match pages.pushPage page with
        | .error error => .error error
        | .ok frame => advance budget (frame :: stack)

def first (root : Nat) : Except BtreeError (Option (LeafCell ρ × TableCursor ρ)) :=
  match pages.pushPage root with
  | .error error => .error error
  | .ok frame => pages.advance (maxPagesVisited - 1) [frame]

def next (cursor : TableCursor ρ) : Except BtreeError (Option (LeafCell ρ × TableCursor ρ)) :=
  pages.advance cursor.budget cursor.stack

def seek (root : Nat) (rowid : Int) : Except BtreeError (Option (LeafCell ρ)) :=
  match pages.findLeafPage rowid maxPagesVisited [] root with
  | .error error => .error error
  | .ok (_, leaf) =>
    match pages.content leaf with
    | .tableLeaf layout => .ok (layout.cells.find? fun cell => cell.rowid == rowid)
    | _ => .error (.unexpectedPageType leaf)

section Payload

variable [DecidableEq ρ]

def holdsPart (payload : ρ) (page part : Nat) : Bool :=
  match pages.content page with
  | .chain held index => held == payload && index == part
  | _ => false

/-- The payload of a row: its overflow pages are read when it is asked for, and
give some other bytes when they have been written over. -/
def currentPayload (torn : ρ) (cell : LeafCell ρ) : ρ :=
  if cell.overflow.zipIdx.all fun (page, part) => pages.holdsPart cell.payload page part then
    cell.payload
  else torn

def currentRow (torn : ρ) (cell : LeafCell ρ) : Int × ρ :=
  (cell.rowid, pages.currentPayload torn cell)

end Payload

end Pages

end SqliteRs
