import Mathlib.Order.Basic

/-!
Programs that talk to an operating system. A program is a tree of calls; each
call is answered with a reply or a fault and the program resumes from the
answer. The same tree is run to completion by a server, cut at any call, or
run by a server that fails calls. Actions add the mutable receiver of a method:
the receiver keeps its changes when the method returns an error.

A system says what may happen at a call: it may also fail calls or let others act
in between. `Always` says that every call is made in a world where it is allowed and
that a postcondition holds at the end. It is a weakest precondition, so it is computed
along the program's structure, and it carries over to any system that is simulated.
`Only` bounds the calls of a program for all possible answers.
-/

namespace SqliteRs

structure Interface where
  Call : Type
  Reply : Call → Type
  Fault : Type

inductive Program (I : Interface) (Result : Type) where
  | done (result : Result)
  | call (request : I.Call) (resume : Except I.Fault (I.Reply request) → Program I Result)

structure Server (I : Interface) (World : Type) where
  answer : World → (request : I.Call) → World × Except I.Fault (I.Reply request)

namespace Program

variable {I : Interface} {World Result Next : Type}

def bind : Program I Result → (Result → Program I Next) → Program I Next
  | .done result, next => next result
  | .call request resume, next => .call request (fun reply => bind (resume reply) next)

def run (server : Server I World) : Program I Result → World → World × Result
  | .done result, world => (world, result)
  | .call request resume, world =>
    run server (resume (server.answer world request).2) (server.answer world request).1

theorem run_bind (server : Server I World) (program : Program I Result)
    (next : Result → Program I Next) (world : World) : (program.bind next).run server world =
      (next (program.run server world).2).run server (program.run server world).1 := by
  induction program generalizing world with
  | done res => rfl
  | call request resume ih => exact ih _ _

theorem run_map {Other : Type} (server : Server I World) (seen : Server I Other)
    (project : World → Other) (alike : ∀ world request, (project (server.answer world request).1,
      (server.answer world request).2) = seen.answer (project world) request)
    (program : Program I Result) (world : World) :
    (project (program.run server world).1, (program.run server world).2) =
      program.run seen (project world) := by
  induction program generalizing world with
  | done res => rfl
  | call request resume ih =>
    have answered := alike world request
    have first := congrArg Prod.fst answered
    have second := congrArg Prod.snd answered
    simp only [run]
    rw [ih, ← first, ← second]

end Program

/-- A fallible method of a receiver of type `State`. -/
def Action (I : Interface) (State Error Result : Type) : Type :=
  State → Program I (State × Except Error Result)

namespace Action

variable {I : Interface} {World State Part Error Inner Result Next : Type}

def pure (result : Result) : Action I State Error Result :=
  fun state => .done (state, .ok result)

def bind (action : Action I State Error Result) (next : Result → Action I State Error Next) :
    Action I State Error Next :=
  fun state => (action state).bind fun
    | (after, .ok result) => next result after
    | (after, .error error) => .done (after, .error error)

instance : Monad (Action I State Error) where
  pure := pure
  bind := bind

def throw (error : Error) : Action I State Error Result :=
  fun state => .done (state, .error error)

def check (value : Except Error Result) : Action I State Error Result :=
  fun state => .done (state, value)

def get : Action I State Error State := fun state => .done (state, .ok state)

def modify (update : State → State) : Action I State Error Unit :=
  fun state => .done (update state, .ok ())

def attempt (action : Action I State Error Result) :
    Action I State Inner (Except Error Result) :=
  fun state => (action state).bind fun (after, result) => .done (after, .ok result)

def request (wrap : I.Fault → Error) (call : I.Call) : Action I State Error (I.Reply call) :=
  fun state => .call call fun
    | .ok reply => .done (state, .ok reply)
    | .error fault => .done (state, .error (wrap fault))

/-- Runs a method of a part of the receiver, converting its error. -/
def zoom (view : State → Part) (update : State → Part → State) (wrap : Inner → Error)
    (action : Action I Part Inner Result) : Action I State Error Result :=
  fun state => (action (view state)).bind fun
    | (part, .ok result) => .done (update state part, .ok result)
    | (part, .error error) => .done (update state part, .error (wrap error))

/-- Runs a method of a value the caller owns and hands the value back. -/
def owning (part : Part) (action : Action I Part Error Result) :
    Action I State Error (Part × Result) :=
  fun state => (action part).bind fun
    | (after, .ok result) => .done (state, .ok (after, result))
    | (_, .error error) => .done (state, .error error)

def when (condition : Bool) (action : Action I State Error Unit) : Action I State Error Unit :=
  if condition then action else pure ()

def free (wrap : Inner → Error) (action : Action I Unit Inner Result) :
    Action I State Error Result :=
  zoom (fun _ => ()) (fun state _ => state) wrap action

structure Outcome (World State Error Result : Type) where
  world : World
  state : State
  result : Except Error Result

def exec (server : Server I World) (action : Action I State Error Result) (state : State)
    (world : World) : Outcome World State Error Result :=
  let (world, state, result) := (action state).run server world
  ⟨world, state, result⟩

variable (server : Server I World) (state : State) (world : World)

variable (res : Result)

@[simp] theorem exec_monad_pure :
    exec server (Pure.pure res : Action I State Error Result) state world =
      ⟨world, state, .ok res⟩ := rfl

@[simp] theorem exec_throw (error : Error) :
    exec server (throw error : Action I State Error Result) state world =
      ⟨world, state, .error error⟩ := rfl

@[simp] theorem exec_check (value : Except Error Result) :
    exec server (check value : Action I State Error Result) state world = ⟨world, state, value⟩ := rfl

@[simp] theorem exec_get :
    exec server (get : Action I State Error State) state world = ⟨world, state, .ok state⟩ := rfl

@[simp] theorem exec_modify (update : State → State) :
    exec server (modify update : Action I State Error Unit) state world =
      ⟨world, update state, .ok ()⟩ := rfl

theorem exec_when (cond : Bool) (act : Action I State Error Unit) :
    exec server (when cond act) state world =
      if cond then exec server act state world else ⟨world, state, .ok ()⟩ := by
  cases cond <;> rfl

theorem exec_bind (act : Action I State Error Result)
    (next : Result → Action I State Error Next) :
    exec server (act >>= next) state world = match (exec server act state world) with
      | ⟨after, part, .ok res⟩ => exec server (next res) part after
      | ⟨after, part, .error error⟩ => ⟨after, part, .error error⟩ := by
  change exec server (bind act next) state world = _
  simp only [exec, bind, Program.run_bind]
  rcases (act state).run server world with ⟨after, part, res | res⟩ <;> rfl

theorem exec_attempt (act : Action I State Error Result) :
    exec server (attempt act : Action I State Inner _) state world =
      ⟨(exec server act state world).world, (exec server act state world).state,
        .ok (exec server act state world).result⟩ := by
  simp only [exec, attempt, Program.run_bind]
  rfl

theorem exec_request (wrap : I.Fault → Error) (call : I.Call) :
    exec server (request wrap call : Action I State Error _) state world =
      ⟨(server.answer world call).1, state, (server.answer world call).2.mapError wrap⟩ := by
  simp only [exec, request, Program.run]
  rcases server.answer world call with ⟨after, fault | reply⟩ <;> rfl

theorem exec_zoom (view : State → Part) (update : State → Part → State) (wrap : Inner → Error)
    (act : Action I Part Inner Result) : exec server (zoom view update wrap act) state world =
      ⟨(exec server act (view state) world).world,
        update state (exec server act (view state) world).state,
        (exec server act (view state) world).result.mapError wrap⟩ := by
  simp only [exec, zoom, Program.run_bind]
  rcases (act (view state)).run server world with ⟨after, part, error | res⟩ <;> rfl

theorem exec_owning (part : Part) (act : Action I Part Error Result) :
    exec server (owning part act : Action I State Error _) state world =
      ⟨(exec server act part world).world, state, (exec server act part world).result.map
          ((exec server act part world).state, ·)⟩ := by
  simp only [exec, owning, Program.run_bind]
  rcases (act part).run server world with ⟨after, last, error | res⟩ <;> rfl

theorem exec_free (wrap : Inner → Error) (act : Action I Unit Inner Result) :
    exec server (free wrap act) state world = ⟨(exec server act () world).world, state,
        (exec server act () world).result.mapError wrap⟩ := by
  simp [free, exec_zoom]

section

variable (act : Action I State Error Result) (next : Result → Action I State Error Next)

include act next

theorem exec_bind_ok (final : Next) (after : World) (last : State) :
    exec server (act >>= next) state world = ⟨after, last, .ok final⟩ ↔ ∃ middle part res,
        exec server act state world = ⟨middle, part, .ok res⟩ ∧
          exec server (next res) part middle = ⟨after, last, .ok final⟩ := by
  rw [exec_bind]
  rcases exec server act state world with ⟨middle, part, error | res⟩
  · simp
  constructor
  · intro finished
    exact ⟨middle, part, res, rfl, finished⟩
  rintro ⟨middle', part', result', same, finished⟩
  cases same
  exact finished

variable (middle : World) (part : State)

theorem exec_bind_of_ok (res : Result) (first : exec server act state world = ⟨middle, part, .ok res⟩) :
    exec server (act >>= next) state world = exec server (next res) part middle := by
  rw [exec_bind, first]

theorem exec_bind_of_error (error : Error)
    (first : exec server act state world = ⟨middle, part, .error error⟩) :
    exec server (act >>= next) state world = ⟨middle, part, .error error⟩ := by
  rw [exec_bind, first]

end

def KeepsState (action : Action I State Error Result) : Prop :=
  ∀ (World : Type) (server : Server I World) state world,
    (exec server action state world).state = state

namespace KeepsState

variable {act : Action I State Error Result}

theorem pure (res : Result) : KeepsState (Pure.pure res : Action I State Error Result) :=
  fun _ _ _ _ => rfl

theorem free (wrap : Inner → Error) (act : Action I Unit Inner Result) :
    KeepsState (free wrap act : Action I State Error Result) := by
  intro World server state world
  rw [exec_free]

theorem bind {next : Result → Action I State Error Next}
    (first : KeepsState act) (rest : ∀ res, KeepsState (next res)) : KeepsState (act >>= next) := by
  intro World server state world
  have kept := first World server state world
  rw [exec_bind]
  generalize exec server act state world = outcome at kept
  obtain ⟨after, part, error | res⟩ := outcome
  · exact kept
  · exact (rest res World server part after).trans kept

theorem when {act : Action I State Error Unit} (cond : Bool) (kept : KeepsState act) :
    KeepsState (when cond act) := by
  cases cond with
  | false => exact KeepsState.pure ()
  | true => exact kept

theorem after (kept : KeepsState act) {World : Type}
    {server : Server I World} {state last : State} {world after : World}
    {res : Except Error Result} (ran : exec server act state world = ⟨after, last, res⟩) :
    last = state := by
  have same := kept World server state world
  rw [ran] at same
  exact same

end KeepsState

end Action

/-- What may happen at a call: the world before, the call, the world after, the answer. -/
structure System (I : Interface) (World : Type) where
  step : World → (request : I.Call) → World → Except I.Fault (I.Reply request) → Prop

def Server.toSystem {I : Interface} {World : Type} (server : Server I World) : System I World :=
  ⟨fun world request after reply => server.answer world request = (after, reply)⟩

def System.answers {I : Interface}
    (possible : ∀ request, Except I.Fault (I.Reply request) → Prop) : System I Unit :=
  ⟨fun _ request _ reply => possible request reply⟩

namespace Program

variable {I : Interface} {World Other Result Next : Type}

inductive Runs (system : System I World) :
    Program I Result → World → Program I Result → World → Prop
  | here (program : Program I Result) (world : World) : Runs system program world program world
  | step {request : I.Call} {resume : Except I.Fault (I.Reply request) → Program I Result}
      {world middle after : World} {reply : Except I.Fault (I.Reply request)}
      {program : Program I Result} (taken : system.step world request middle reply)
      (rest : Runs system (resume reply) middle program after) :
      Runs system (.call request resume) world program after

def cut (server : Server I World) : Nat → Program I Result → World → Program I Result × World
  | 0, program, world => (program, world)
  | _ + 1, .done result, world => (.done result, world)
  | calls + 1, .call request resume, world =>
    cut server calls (resume (server.answer world request).2) (server.answer world request).1

theorem runs_cut (server : Server I World) (calls : Nat) (program : Program I Result)
    (world : World) : Runs server.toSystem program world (cut server calls program world).1
      (cut server calls program world).2 := by
  induction calls generalizing program world with
  | zero => exact .here program world
  | succ calls ih =>
    cases program with
    | done res => exact .here _ world
    | call request resume => exact .step rfl (ih _ _)

theorem Runs.invariant {system : System I World} {inv : World → Prop}
    (kept : ∀ world request after reply, system.step world request after reply → inv world →
      inv after) {program rest : Program I Result} {world after : World}
    (ran : Runs system program world rest after) (holds : inv world) : inv after := by
  induction ran with
  | here program world => exact holds
  | step taken later ih => exact ih (kept _ _ _ _ taken holds)

section Always

variable {next : Result → Program I Next} {final : World → Next → Prop}

/-- Every call is allowed where it is made, and the postcondition holds at the end. -/
def Always (system : System I World) (guard : World → I.Call → Prop)
    (post : World → Result → Prop) : Program I Result → World → Prop
  | .done result, world => post world result
  | .call request resume, world =>
    guard world request ∧ ∀ after reply, system.step world request after reply →
      Always system guard post (resume reply) after

variable {system : System I World} {guard weaker : World → I.Call → Prop}
  {post other : World → Result → Prop} {program rest : Program I Result} {world after : World}

section

variable (always : Always system guard post program world)

include always

theorem Always.runs
    (ran : Runs system program world rest after) : Always system guard post rest after := by
  induction ran with
  | here program world => exact always
  | step taken later ih => exact ih (always.2 _ _ taken)

theorem Always.mono (ends : ∀ world res, post world res → other world res) :
    Always system guard other program world := by
  induction program generalizing world with
  | done res => exact ends world res always
  | call request resume ih =>
    exact ⟨always.1, fun after reply taken => ih reply (always.2 after reply taken)⟩

theorem Always.weaken (allows : ∀ world request, guard world request → weaker world request) :
    Always system weaker post program world := by
  induction program generalizing world with
  | done res => exact always
  | call request resume ih =>
    exact ⟨allows world request always.1,
      fun after reply taken => ih reply (always.2 after reply taken)⟩

theorem Always.carry {inv : World → Prop}
    (kept : ∀ world request after reply, guard world request → inv world →
      system.step world request after reply → inv after) (holds : inv world) :
    Always system (fun world request => guard world request ∧ inv world)
      (fun world res => post world res ∧ inv world) program world := by
  induction program generalizing world with
  | done res => exact ⟨always, holds⟩
  | call request resume ih =>
    refine ⟨⟨always.1, holds⟩, fun after reply taken => ?_⟩
    exact ih reply (always.2 after reply taken) (kept world request after reply always.1 holds taken)

end

theorem always_bind
    (program : Program I Result) (world : World) : Always system guard final (program.bind next) world ↔
      Always system guard (fun world res => Always system guard final (next res) world)
        program world := by
  induction program generalizing world with
  | done res => exact Iff.rfl
  | call request resume ih =>
    constructor
    · rintro ⟨here, later⟩
      exact ⟨here, fun after reply taken => (ih reply after).mp (later after reply taken)⟩
    · rintro ⟨here, later⟩
      exact ⟨here, fun after reply taken => (ih reply after).mpr (later after reply taken)⟩

theorem always_bind_iff
    (same : ∀ world res, Always system guard final (next res) world = post world res) :
    Always system guard final (program.bind next) world ↔
      Always system guard post program world := by
  rw [always_bind, funext₂ same]

theorem Always.simulate {seen : System I Other} {allowed : Other → I.Call → Prop}
    (related : World → Other → Prop)
    (follow : ∀ world view request, related world view → guard world request →
      allowed view request ∧ ∀ after reply, seen.step view request after reply →
        ∃ next, system.step world request next reply ∧ related next after)
    (always : Always system guard post program world) {view : Other} (start : related world view) :
    Always seen allowed (fun view res => ∃ world, related world view ∧ post world res)
      program view := by
  induction program generalizing world view with
  | done res => exact ⟨world, start, always⟩
  | call request resume ih =>
    obtain ⟨here, later⟩ := always
    obtain ⟨granted, steps⟩ := follow world view request start here
    refine ⟨granted, fun after reply taken => ?_⟩
    obtain ⟨next, followed, still⟩ := steps after reply taken
    exact ih reply (later next reply followed) still

variable {server : Server I World}

theorem Always.run_eq (always : Always server.toSystem guard post program world) :
    Always server.toSystem guard
      (fun after res => post after res ∧ program.run server world = (after, res)) program world := by
  induction program generalizing world with
  | done res => exact ⟨always, rfl⟩
  | call request resume ih =>
    refine ⟨always.1, fun after reply taken => ?_⟩
    have answered : server.answer world request = (after, reply) := taken
    simp only [run, answered]
    exact ih reply (always.2 after reply taken)

theorem Always.finish (always : Always server.toSystem guard post program world) :
    post (program.run server world).1 (program.run server world).2 := by
  induction program generalizing world with
  | done res => exact always
  | call request resume ih => exact ih _ (always.2 _ _ rfl)

theorem Always.of_run (ends : post (program.run server world).1 (program.run server world).2) :
    Always server.toSystem (fun _ _ => True) post program world := by
  induction program generalizing world with
  | done res => exact ends
  | call request resume ih =>
    refine ⟨trivial, fun after reply taken => ?_⟩
    have answered : server.answer world request = (after, reply) := taken
    simp only [run, answered] at ends
    exact ih reply ends

theorem Always.invariant {inv : World → Prop}
    (always : Always system (fun world _ => inv world) (fun world _ => inv world) program world)
    (ran : Runs system program world rest after) : inv after := by
  have still := always.runs ran
  cases rest with
  | done res => exact still
  | call request resume => exact still.1

end Always

end Program

namespace Action

variable {I : Interface} {World State Part Error Inner Result Next : Type}

section Always

/-- Every call of the action is allowed where it is made, and the postcondition holds at its
end. -/
def Always (system : System I World) (guard : World → I.Call → Prop)
    (post : World → State → Except Error Result → Prop)
    (action : Action I State Error Result) (state : State) (world : World) : Prop :=
  Program.Always system guard (fun world final => post world final.1 final.2) (action state) world

/-- What must hold after a first action: the rest if it succeeded, the end if it failed. -/
def Continue (system : System I World) (guard : World → I.Call → Prop)
    (post : World → State → Except Error Next → Prop)
    (next : Result → Action I State Error Next) (world : World) (state : State) :
    Except Error Result → Prop
  | .ok result => Always system guard post (next result) state world
  | .error error => post world state (.error error)

variable {system : System I World} {guard : World → I.Call → Prop} {state : State} {world : World}
  {post other : World → State → Except Error Result → Prop}
  {act : Action I State Error Result}

section

variable (always : Always system guard post act state world)

include always

theorem Always.mono (ends : ∀ world state res, post world state res → other world state res) :
    Always system guard other act state world :=
  Program.Always.mono always fun world final => ends world final.1 final.2

theorem Always.weaken {weaker : World → I.Call → Prop}
    (allows : ∀ world request, guard world request → weaker world request) :
    Always system weaker post act state world :=
  Program.Always.weaken always allows

theorem Always.carry {inv : World → Prop}
    (kept : ∀ world request after reply, guard world request → inv world →
      system.step world request after reply → inv after) (holds : inv world) :
    Always system (fun world request => guard world request ∧ inv world)
      (fun world state res => post world state res ∧ inv world) act state world :=
  Program.Always.carry always kept holds

end

@[simp] theorem always_pure (res : Result) :
    Always system guard post (Pure.pure res : Action I State Error Result) state world ↔
      post world state (.ok res) := Iff.rfl

@[simp] theorem always_check (value : Except Error Result) :
    Always system guard post (check value : Action I State Error Result) state world ↔
      post world state value := Iff.rfl

@[simp] theorem always_get {post : World → State → Except Error State → Prop} :
    Always system guard post (get : Action I State Error State) state world ↔
      post world state (.ok state) := Iff.rfl

theorem always_bind {final : World → State → Except Error Next → Prop}
    {next : Result → Action I State Error Next} : Always system guard final (act >>= next) state world ↔
      Always system guard (Continue system guard final next) act state world := by
  refine Program.always_bind_iff ?_
  rintro after ⟨part, res⟩
  cases res <;> rfl

theorem always_request {wrap : I.Fault → Error} {call : I.Call}
    {post : World → State → Except Error (I.Reply call) → Prop} :
    Always system guard post (request wrap call : Action I State Error _) state world ↔
      guard world call ∧ ∀ after reply, system.step world call after reply →
        post after state (reply.mapError wrap) := by
  constructor
  all_goals
    rintro ⟨here, later⟩
    refine ⟨here, fun after reply taken => ?_⟩
    have ends := later after reply taken
    cases reply with
    | ok | error => exact ends

theorem always_attempt {post : World → State → Except Inner (Except Error Result) → Prop} :
    Always system guard post (attempt act : Action I State Inner _) state world ↔
      Always system guard (fun world state res => post world state (.ok res)) act state world := by
  exact Program.always_bind_iff fun _ _ => rfl

variable {wrap : Inner → Error}

theorem always_zoom {view : State → Part} {update : State → Part → State}
    {act : Action I Part Inner Result} :
    Always system guard post (zoom view update wrap act) state world ↔
      Always system guard (fun world part res => post world (update state part)
        (res.mapError wrap)) act (view state) world := by
  refine Program.always_bind_iff ?_
  rintro after ⟨part, res⟩
  cases res <;> rfl

theorem always_free {act : Action I Unit Inner Result} :
    Always system guard post (free wrap act : Action I State Error Result) state world ↔
      Always system guard (fun world _ res => post world state (res.mapError wrap)) act () world :=
  always_zoom

theorem always_owning {part : Part} {act : Action I Part Error Result}
    {post : World → State → Except Error (Part × Result) → Prop} :
    Always system guard post (owning part act : Action I State Error _) state world ↔
      Always system guard (fun world part res => post world state (res.map (part, ·))) act
        part world := by
  refine Program.always_bind_iff ?_
  rintro after ⟨part, res⟩
  cases res <;> rfl

theorem always_when {act : Action I State Error Unit} {cond : Bool}
    {post : World → State → Except Error Unit → Prop}
    (held : cond = true → Always system guard post act state world)
    (skipped : cond = false → post world state (.ok ())) :
    Always system guard post (when cond act) state world := by
  cases cond with
  | false => exact skipped rfl
  | true => exact held rfl

theorem Always.exec_eq {server : Server I World}
    (always : Always server.toSystem guard post act state world) : Always server.toSystem guard
      (fun after last res => post after last res ∧
        exec server act state world = ⟨after, last, res⟩) act state world := by
  apply Program.Always.mono (Program.Always.run_eq always)
  rintro after ⟨last, res⟩ ⟨ends, ran⟩
  refine ⟨ends, ?_⟩
  simp [exec, ran]

theorem Always.exec {server : Server I World}
    (always : Always server.toSystem guard post act state world) :
    post (Action.exec server act state world).world (Action.exec server act state world).state
      (Action.exec server act state world).result :=
  Program.Always.finish always

end Always

/-- A property of actions that a sequence inherits from its parts. -/
structure Inherited (holds : ∀ {Result : Type}, Action I State Error Result → Prop) : Prop where
  pure : ∀ {Result : Type} (result : Result), holds (Pure.pure result : Action I State Error Result)
  get : holds (get : Action I State Error State)
  modify : ∀ update : State → State, holds (modify update : Action I State Error Unit)
  bind : ∀ {Result Next : Type} {action : Action I State Error Result}
    {next : Result → Action I State Error Next}, holds action → (∀ result, holds (next result)) →
      holds (action >>= next)

section Only

variable {allowed : I.Call → Prop} {possible : ∀ request, Except I.Fault (I.Reply request) → Prop}

/-- Every call of the action is allowed, from any receiver and for all possible answers. -/
def Only (allowed : I.Call → Prop)
    (possible : ∀ request, Except I.Fault (I.Reply request) → Prop)
    (action : Action I State Error Result) : Prop :=
  ∀ state, Always (System.answers possible) (fun _ call => allowed call) (fun _ _ _ => True)
    action state ()

namespace Only

theorem pure (res : Result) : Only allowed possible (Pure.pure res : Action I State Error Result) :=
  fun _ => trivial

theorem throw (error : Error) : Only allowed possible (throw error : Action I State Error Result) :=
  fun _ => trivial

theorem get : Only allowed possible (get : Action I State Error State) := fun _ => trivial

theorem modify (update : State → State) :
    Only allowed possible (modify update : Action I State Error Unit) :=
  fun _ => trivial

theorem request (wrap : I.Fault → Error) (call : I.Call) (here : allowed call) :
    Only allowed possible (request wrap call : Action I State Error _) :=
  fun _ => always_request.mpr ⟨here, fun _ _ _ => trivial⟩

variable {action : Action I State Error Result} {call : I.Call} {wrap : Inner → Error}

theorem request_bind {wrap : I.Fault → Error}
    {next : I.Reply call → Action I State Error Next} (here : allowed call)
    (rest : ∀ value, possible call (.ok value) → Only allowed possible (next value)) :
    Only allowed possible (Action.request wrap call >>= next) := by
  intro state
  refine always_bind.mpr (always_request.mpr ⟨here, ?_⟩)
  intro after reply fits
  cases reply with
  | ok value => exact rest value fits state
  | error fault => trivial

theorem attempt_request_bind {wrap : I.Fault → Inner}
    {next : Except Inner (I.Reply call) → Action I State Error Next} (here : allowed call)
    (onOk : ∀ value, possible call (.ok value) → Only allowed possible (next (.ok value)))
    (onError : ∀ error, Only allowed possible (next (.error error))) :
    Only allowed possible (Action.attempt (Action.request wrap call) >>= next) := by
  intro state
  refine always_bind.mpr (always_attempt.mpr (always_request.mpr ⟨here, ?_⟩))
  intro after reply fits
  cases reply with
  | ok value => exact onOk value fits state
  | error fault => exact onError (wrap fault) state

theorem bind {next : Result → Action I State Error Next}
    (first : Only allowed possible action) (rest : ∀ res, Only allowed possible (next res)) :
    Only allowed possible (action >>= next) := by
  intro state
  refine always_bind.mpr ((first state).mono ?_)
  intro after part res _
  cases res with
  | ok value => exact rest value part
  | error error => trivial

theorem inherited : @Inherited I State Error fun {_} action => Only allowed possible action :=
  { pure, get, modify, bind }

theorem attempt (first : Only allowed possible action) :
    Only allowed possible (attempt action : Action I State Inner _) :=
  fun state => always_attempt.mpr (first state)

theorem zoom {view : State → Part} {update : State → Part → State}
    {action : Action I Part Inner Result} (first : Only allowed possible action) :
    Only allowed possible (zoom view update wrap action) :=
  fun state => always_zoom.mpr (first (view state))

theorem free {action : Action I Unit Inner Result} (first : Only allowed possible action) :
    Only allowed possible (free wrap action : Action I State Error Result) :=
  zoom first

theorem mono {wider : I.Call → Prop}
    (only : Only allowed possible action) (allows : ∀ call, allowed call → wider call) :
    Only wider possible action :=
  fun state => (only state).weaken fun _ call here => allows call here

theorem always {system : System I World} {inv : World → Prop} {state : State} {world : World}
    (only : Only allowed possible action)
    (honest : ∀ world request after reply, system.step world request after reply →
      possible request reply) (kept : ∀ world request after reply, allowed request → inv world →
      system.step world request after reply → inv after) (holds : inv world) :
    Always system (fun world request => inv world ∧ allowed request) (fun world _ _ => inv world)
      action state world := by
  have follow : ∀ (none : Unit) view request, inv view → allowed request →
      (inv view ∧ allowed request) ∧ ∀ after reply, system.step view request after reply →
        ∃ next, (System.answers possible).step none request next reply ∧ inv after := by
    intro none view request holds here
    refine ⟨⟨holds, here⟩, fun after reply taken => ⟨(), ?_, ?_⟩⟩
    · exact honest view request after reply taken
    · exact kept view request after reply here holds taken
  have simulated := Program.Always.simulate (fun _ => inv) follow (only state) holds
  apply Program.Always.mono simulated
  rintro after final ⟨_, still, _⟩
  exact still

end Only

end Only

section Succeeds

variable {system : System I World} {guard : World → I.Call → Prop} {inv : World → Prop}

/-- Wherever an invariant holds, the action keeps it and returns a value. -/
def Succeeds (system : System I World) (guard : World → I.Call → Prop) (inv : World → Prop)
    (action : Action I State Error Result) : Prop :=
  ∀ state world, inv world →
    Always system guard (fun after _ result => inv after ∧ ∃ value, result = .ok value) action state
      world

namespace Succeeds

theorem pure (res : Result) : Succeeds system guard inv (Pure.pure res : Action I State Error Result) :=
  fun _ _ holds => ⟨holds, res, rfl⟩

theorem get : Succeeds system guard inv (get : Action I State Error State) :=
  fun state _ holds => ⟨holds, state, rfl⟩

theorem modify (update : State → State) :
    Succeeds system guard inv (modify update : Action I State Error Unit) :=
  fun _ _ holds => ⟨holds, (), rfl⟩

theorem bind {action : Action I State Error Result} {next : Result → Action I State Error Next}
    (first : Succeeds system guard inv action) (rest : ∀ res, Succeeds system guard inv (next res)) :
    Succeeds system guard inv (action >>= next) := by
  intro state world holds
  refine always_bind.mpr ((first state world holds).mono ?_)
  rintro after part res ⟨still, value, rfl⟩
  exact rest value part after still

theorem inherited : @Inherited I State Error fun {_} action => Succeeds system guard inv action :=
  { pure, get, modify, bind }

theorem attempt_bind {action : Action I State Inner Result}
    {next : Except Inner Result → Action I State Error Next} (first : Succeeds system guard inv action)
    (rest : ∀ value, Succeeds system guard inv (next (.ok value))) :
    Succeeds system guard inv (attempt action >>= next) := by
  intro state world holds
  refine always_bind.mpr (always_attempt.mpr ((first state world holds).mono ?_))
  rintro after part res ⟨still, value, rfl⟩
  exact rest value part after still

variable {wrap : Inner → Error}

theorem zoom {view : State → Part} {update : State → Part → State}
    {action : Action I Part Inner Result} (first : Succeeds system guard inv action) :
    Succeeds system guard inv (zoom view update wrap action) := by
  intro state world holds
  refine always_zoom.mpr ((first (view state) world holds).mono ?_)
  rintro after part res ⟨still, value, rfl⟩
  exact ⟨still, value, rfl⟩

theorem free {action : Action I Unit Inner Result} (first : Succeeds system guard inv action) :
    Succeeds system guard inv (free wrap action : Action I State Error Result) :=
  zoom first

end Succeeds

end Succeeds

end Action

end SqliteRs
