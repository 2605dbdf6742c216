import SqliteRs.TreeDelete

/-!
A cursor whose table changes while it scans. The stack of the cursor is read
against the pages as they were at the start; as long as the pages it still has
to visit keep their content or are freed, it goes on to give the cells that a
scan of the original table would give. In the last leaf it has no page left to read,
so nothing that is written from then on reaches it.
-/

namespace SqliteRs

open List

namespace Pages

variable {ρ κ : Type} {start current : Pages ρ κ} {stack : List (Frame ρ)} {used : List Nat}
  {cells : List (LeafCell ρ)}

/-- What the frames of a stack still lead to: the pages they have to visit and the cells. -/
inductive StackReads (start : Pages ρ κ) : List (Frame ρ) → List Nat → List (LeafCell ρ) → Prop where
  | nil : StackReads start [] [] []
  | leaf {stack : List (Frame ρ)} {used : List Nat} {cells : List (LeafCell ρ)}
      (rest : List (LeafCell ρ)) (later : StackReads start stack used cells) :
      StackReads start (.leaf rest :: stack) used (rest ++ cells)
  | interior {stack : List (Frame ρ)} {spans : List Span} {used laterUsed : List Nat}
      {cells laterCells : List (LeafCell ρ)} (reads : start.Reads spans used cells)
      (later : StackReads start stack laterUsed laterCells) :
      StackReads start (.interior (spans.map Span.page) :: stack) (used ++ laterUsed)
        (cells ++ laterCells)

theorem StackReads.closed (reads : start.StackReads stack used cells) :
    start.Closed (· ∈ used) (· ∈ cells) := by
  induction reads with
  | nil => exact Reads.nil.closed
  | leaf _ _ ih =>
    exact ⟨ih.interior, fun page layout mem content cell inside =>
      mem_append_right _ (ih.leaf page layout mem content cell inside)⟩
  | interior reads _ ih =>
    have own := reads.closed
    constructor
    · intro page layout rightmost mem content
      rcases mem_append.mp mem with first | later
      · obtain ⟨last, children⟩ := own.interior page layout rightmost first content
        exact ⟨mem_append_left _ last, fun route inside => mem_append_left _ (children route inside)⟩
      · obtain ⟨last, children⟩ := ih.interior page layout rightmost later content
        exact ⟨mem_append_right _ last, fun route inside => mem_append_right _ (children route inside)⟩
    · intro page layout mem content cell inside
      rcases mem_append.mp mem with first | later
      · exact mem_append_left _ (own.leaf page layout first content cell inside)
      · exact mem_append_right _ (ih.leaf page layout later content cell inside)

theorem StackReads.upcoming (reads : start.StackReads stack used cells) :
    match upcoming stack with
    | .done => cells = []
    | .row cell rest => ∃ later, cells = cell :: later ∧ start.StackReads rest used later
    | .child page rest => ∃ span spans below first firstCells last lastCells, span.page = page ∧
        rest = .interior (spans.map Span.page) :: below ∧
        start.Reads (span :: spans) first firstCells ∧ start.StackReads below last lastCells ∧
        used = first ++ last ∧ cells = firstCells ++ lastCells := by
  induction reads with
  | nil => rfl
  | leaf rest later ih =>
    cases rest with
    | nil => exact ih
    | cons cell rest => exact ⟨_, rfl, .leaf rest later⟩
  | @interior stack spans used laterUsed cells laterCells reads later ih =>
    cases spans with
    | nil =>
      cases reads
      exact ih
    | cons span spans => exact ⟨span, spans, stack, _, _, _, _, rfl, rfl, reads, later, rfl, rfl⟩

theorem Reads.push {span : Span} {spans : List Span} {frame : Frame ρ}
    (reads : start.Reads (span :: spans) used cells)
    (kept : ∀ page ∈ used, KeptOrFreed start current page)
    (pushed : current.pushPage span.page = .ok frame) :
    ∃ own ownCells rest restCells, start.Reads spans rest restCells ∧ own ++ rest ⊆ used ∧
      cells = ownCells ++ restCells ∧ ∀ stack below belowCells,
        start.StackReads stack below belowCells →
        start.StackReads (frame :: stack) (own ++ below) (ownCells ++ belowCells) := by
  have content : ∀ {page : Page ρ κ}, start.content span.page = page →
      current.content span.page = page ∨ current.content span.page = .trunk := by
    intro page same
    rw [← same]
    exact kept span.page (reads.uses span (.head _))
  unfold pushPage at pushed
  cases reads with
  | @leaf _ _ rest _ layout here intact admitted later =>
    rcases content here with same | trunk
    · rw [same] at pushed
      cases pushed
      refine ⟨[], layout.cells, rest, _, later, ?_, rfl, fun stack below belowCells reads => ?_⟩
      · exact subset_append_right ..
      · exact .leaf layout.cells reads
    · rw [trunk] at pushed
      cases pushed
  | @node _ _ below _ layout rightmost here keys later =>
    rcases content here with same | trunk
    · rw [same] at pushed
      cases pushed
      obtain ⟨own, rest, ownCells, restCells, rfl, rfl, children, others⟩ := later.split
      refine ⟨own, ownCells, rest, restCells, others, ?_, rfl, fun stack below belowCells reads => ?_⟩
      · exact subset_cons_self ..
      · rw [← span.children_pages]
        exact .interior children reads
    · rw [trunk] at pushed
      cases pushed

/-- Where a cursor is: at the first of the cells, with a stack that leads to the rest. -/
def CursorAt (start : Pages ρ κ) (used : List Nat) (cells : List (LeafCell ρ)) :
    Option (LeafCell ρ × TableCursor ρ) → Prop
  | none => cells = []
  | some (cell, cursor) => ∃ later rest, cells = cell :: later ∧ rest ⊆ used ∧
      start.StackReads cursor.stack rest later

variable {res : Option (LeafCell ρ × TableCursor ρ)}

theorem CursorAt.mono {more : List Nat} (pos : start.CursorAt used cells res)
    (fewer : used ⊆ more) : start.CursorAt more cells res := by
  cases res with
  | none => exact pos
  | some found =>
    obtain ⟨later, rest, same, inside, below⟩ := pos
    exact ⟨later, rest, same, Subset.trans inside fewer, below⟩

theorem StackReads.advance (budget : Nat) {stack : List (Frame ρ)} {used : List Nat}
    {cells : List (LeafCell ρ)} (reads : start.StackReads stack used cells)
    (kept : ∀ page ∈ used, KeptOrFreed start current page)
    (done : current.advance budget stack = .ok res) : start.CursorAt used cells res := by
  induction budget generalizing stack used cells
  all_goals
    have offered := reads.upcoming
    unfold Pages.advance at done
    split at done
    · rename_i none
      rw [none] at offered
      cases done
      exact offered
    · rename_i cell rest row
      rw [row] at offered
      cases done
      obtain ⟨later, same, below⟩ := offered
      exact ⟨later, used, same, Subset.refl _, below⟩
  · cases done
  · rename_i ih _ page rest child
    rw [child] at offered
    obtain ⟨span, spans, below, first, firstCells, last, lastCells, rfl, rfl, read, under, rfl,
      rfl⟩ := offered
    simp only at done
    split at done
    · cases done
    rename_i frame pushed
    obtain ⟨own, ownCells, rest, restCells, others, fewer, rfl, put⟩ := read.push
      (fun page mem => kept page (mem_append_left _ mem)) pushed
    have stacked := put _ _ _ (.interior others under)
    have inside : own ++ (rest ++ last) ⊆ first ++ last := by
      rw [← append_assoc]
      exact append_subset.mpr ⟨Subset.trans fewer (subset_append_left ..), subset_append_right ..⟩
    rw [append_assoc]
    exact (ih stacked (fun page mem => kept page (inside mem)) done).mono inside

theorem HoldsTable.first {root : Nat} (table : start.HoldsTable root used cells)
    (done : start.first root = .ok res) : start.CursorAt used cells res := by
  have kept : ∀ page ∈ used, KeptOrFreed start start page := fun page _ => .inl rfl
  unfold Pages.first at done
  split at done
  · cases done
  rename_i frame pushed
  obtain ⟨own, ownCells, rest, restCells, others, fewer, rfl, put⟩ := table.reads.push kept pushed
  cases others
  exact ((put [] [] [] .nil).advance _ (fun page mem => kept page (fewer mem)) done).mono fewer

end Pages

open Option

end SqliteRs
