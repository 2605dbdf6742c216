import Mathlib.Logic.Function.Iterate

/-!
`Execution::next_row` runs a compiled program up to its next result row. An
error of the loop itself marks the execution as done; one that `dispatch` or the
flush at `Halt` raises leaves before that, and the next call runs the same
instruction once more.
-/

namespace SqliteRs

inductive Step where
  | next
  | jump (target : Nat)
  | halt (code : Int) (message : String)

inductive ExecError (Fault : Type) where
  | stepLimitExceeded
  | programCounterOutOfRange (pc : Nat)
  | halted (code : Int) (message : String)
  | raised (fault : Fault)

def maxSteps : Nat := 50000000

/-- `dispatch` of one instruction, the flush of a successful `Halt`, and the rows
emitted since the last look. -/
structure Engine (Vm Instr Row Fault : Type) where
  dispatch : Vm → Nat → Instr → Except Fault Step × Vm
  flush : Vm → Except Fault Unit × Vm
  drain : Vm → List Row × Vm

structure Execution (Vm Row : Type) where
  vm : Vm
  pc : Nat := 0
  steps : Nat := 0
  done : Bool := false
  pending : List Row := []

/-- What a call returns and leaves, and how many instructions and flushes it performed. -/
structure Called (Vm Row Fault : Type) where
  result : Except (ExecError Fault) (Option Row)
  left : Execution Vm Row
  performed : Nat

namespace Execution

variable {Vm Instr Row Fault : Type} (engine : Engine Vm Instr Row Fault) (program : List Instr)

def run (self : Execution Vm Row) : Called Vm Row Fault :=
  let counted := { self with steps := self.steps + 1 }
  if maxSteps < counted.steps then ⟨.error .stepLimitExceeded, { counted with done := true }, 0⟩
  else
    match program[self.pc]? with
    | none => ⟨.error (.programCounterOutOfRange self.pc), { counted with done := true }, 0⟩
    | some instr =>
      match engine.dispatch self.vm self.pc instr with
      | (.error fault, vm) => ⟨.error (.raised fault), { counted with vm }, 1⟩
      | (.ok (.halt code message), vm) =>
        if code = 0 then
          match engine.flush vm with
          | (.error fault, vm) => ⟨.error (.raised fault), { counted with vm }, 2⟩
          | (.ok (), vm) => ⟨.ok none, { counted with vm, done := true }, 2⟩
        else ⟨.error (.halted code message), { counted with vm, done := true }, 1⟩
      | (.ok step, vm) =>
        let pc := match step with
          | .jump target => target
          | _ => self.pc + 1
        match engine.drain vm with
        | ([], vm) =>
          let called := run { counted with vm, pc }
          { called with performed := called.performed + 1 }
        | (row :: pending, vm) => ⟨.ok (some row), { counted with vm, pc, pending }, 1⟩
termination_by maxSteps - self.steps
decreasing_by simp only [counted] at *; omega

def nextRow (self : Execution Vm Row) : Called Vm Row Fault :=
  match self.pending with
  | row :: pending => ⟨.ok (some row), { self with pending }, 0⟩
  | [] => if self.done then ⟨.ok none, self, 0⟩ else run engine program self

/-- Every call from here on returns no row and performs nothing. -/
def Silent (self : Execution Vm Row) : Prop :=
  ∀ count, ∃ called, nextRow engine program
      ((fun earlier => (nextRow engine program earlier).left)^[count] self) = called ∧
    (∀ row, called.result ≠ .ok (some row)) ∧ called.performed = 0

/-- How a call leaves the loop: with a row, done, or at an instruction that raised. -/
def Ends (called : Called Vm Row Fault) : Prop :=
  (∃ row, called.result = .ok (some row)) ∨ called.left.pending = [] ∧
    (called.left.done = true ∧ (∀ fault, called.result ≠ .error (.raised fault)) ∨
      called.left.done = false ∧ (∃ fault, called.result = .error (.raised fault)) ∧
        ∃ instr, program[called.left.pc]? = some instr)

variable {engine program} {self : Execution Vm Row}

theorem silent_of_done (done : self.done = true) (none : self.pending = []) :
    Silent engine program self := by
  have stays : nextRow engine program self = ⟨.ok .none, self, 0⟩ := by
    rw [nextRow, none]
    exact if_pos done
  intro count
  rw [Function.iterate_fixed (by rw [stays]), stays]
  exact ⟨_, rfl, by simp, rfl⟩

theorem run_ends (fresh : self.done = false) (none : self.pending = []) :
    Ends program (run engine program self) := by
  fun_induction run engine program self
  case case1 | case2 | case5 | case6 => exact .inr ⟨none, .inl ⟨rfl, by simp⟩⟩
  case case3 | case4 => exact .inr ⟨none, .inr ⟨fresh, ⟨_, rfl⟩, _, ‹_›⟩⟩
  case case7 ih => exact ih fresh none
  case case8 => exact .inl ⟨_, rfl⟩

theorem run_performs {instr : Instr} (below : self.steps < maxSteps)
    (here : program[self.pc]? = some instr) : 0 < (run engine program self).performed := by
  rw [run, if_neg (Nat.not_lt.mpr below), here]
  dsimp only
  repeat' split
  all_goals simp

/-- After a call that returned an error or the end of the rows, later calls
return no row and perform nothing exactly if the error was not one that
`dispatch` or the flush raised, or no step is left. -/
theorem later_calls_silent_iff (engine : Engine Vm Instr Row Fault) (program : List Instr)
    (self : Execution Vm Row) (called : Called Vm Row Fault)
    (call : nextRow engine program self = called)
    (ended : ∀ row, called.result ≠ .ok (some row)) :
    Silent engine program called.left ↔
      (∀ fault, called.result ≠ .error (.raised fault)) ∨ maxSteps ≤ called.left.steps := by
  have ends : Ends program called := by
    rw [← call, nextRow]
    split
    · exact .inl ⟨_, rfl⟩
    · rename_i none
      split
      · exact .inr ⟨none, .inl ⟨‹_›, by simp⟩⟩
      · exact run_ends (Bool.eq_false_iff.mpr ‹_›) none
  rcases ends with ⟨row, given⟩ | ⟨none, ⟨done, quiet⟩ | ⟨fresh, ⟨fault, raised⟩, instr, here⟩⟩
  · exact absurd given (ended row)
  · exact iff_of_true (silent_of_done done none) (.inl quiet)
  have again : nextRow engine program called.left = run engine program called.left := by
    simp [nextRow, none, fresh]
  constructor
  · intro silent
    refine .inr (Nat.le_of_not_lt fun below => ?_)
    obtain ⟨_, rfl, _, idle⟩ := silent 0
    rw [Function.iterate_zero_apply, again] at idle
    exact absurd idle (Nat.ne_of_gt (run_performs below here))
  · intro spent
    -- One more call meets the step limit, which marks the execution as done.
    have past := Nat.lt_succ_of_le (spent.resolve_left fun quiet => quiet fault raised)
    rw [run, if_pos past] at again
    intro count
    cases count with
    | zero => exact ⟨_, again, by simp, rfl⟩
    | succ count =>
      rw [Function.iterate_succ_apply, again]
      exact (silent_of_done rfl none :
        Silent engine program { called.left with steps := _, done := true }) count

/-- An engine whose first flush fails. -/
def busyOnce : Engine Nat Unit Unit Unit where
  dispatch vm _ _ := (.ok (.halt 0 ""), vm)
  flush vm := (if vm = 0 then .error () else .ok (), vm + 1)
  drain vm := ([], vm)

theorem flushed_end_is_silent : Silent busyOnce [()] ⟨2, 0, 1, true, []⟩ :=
  (later_calls_silent_iff busyOnce [()] { vm := 1 } ⟨.ok none, ⟨2, 0, 1, true, []⟩, 2⟩
    (by simp [nextRow, run, maxSteps, busyOnce]) (by simp)).mpr (.inl (by simp))

/-- A flush that fails at `Halt` is made again by the next call. -/
theorem failed_flush_is_repeated :
    nextRow busyOnce [()] { vm := 0 } = ⟨.error (.raised ()), ⟨1, 0, 1, false, []⟩, 2⟩ ∧
      nextRow busyOnce [()] ⟨1, 0, 1, false, []⟩ = ⟨.ok none, ⟨2, 0, 2, true, []⟩, 2⟩ := by
  simp [nextRow, run, maxSteps, busyOnce]

end Execution

end SqliteRs
