import Reactor.Session.Run

/-!
# Sessions

A session is a runtime that a host uses step by step. Forks run beside the host: each goes on until
it waits for something that is not there yet.

* `Session.start` : a new runtime with its first scope, `root`.
* `Session.step`, `Session.runAll` : the answers to steps.

While the host itself waits, the forks go on as far as they can. When nobody can go on, time passes
until the first wait runs out.
-/

namespace Reactor

/-- A fork that waits, and the rest of its work. -/
structure Suspended where
  fork : ForkId
  on : Wait
  resume : World → Outcome Value

/-- A runtime and the forks that wait. -/
structure Session where
  world : World
  /-- The number of forks that have been started. -/
  started : Nat := 0
  suspended : List Suspended := []

/-- What a wait is for is there. -/
def World.hasArrived (w : World) : Wait → Bool
  | .queue id _ => !(w.queueAt id).items.isEmpty
  | .fork id _ => (w.forkAt id).outcome.isSome
  | .time _ => false

/-- The time at which a wait runs out. -/
def Wait.deadline? : Wait → Option Nat
  | .queue _ deadline => deadline
  | .fork _ deadline => deadline
  | .time deadline => some deadline

/-- A wait is over: what it is for is there, or it has run out. -/
def World.isOver (w : World) (on : Wait) : Bool :=
  w.hasArrived on || on.deadline?.any (· ≤ w.now)

/-- The failure of a step that cannot be completed. -/
def beyondBudget : Error :=
  .new .excessiveRecursion "The computation nests too deeply"

namespace Session

/-- The host computes on this thread. -/
def mainThread : Thread := { id := 0 }

/-- Notes how a fork stands. -/
def note (s : Session) (fork : ForkId) : Outcome Value → Session
  | .value v w => { s with world := w.finishFork fork (.ok v) }
  | .error e w => { s with world := w.finishFork fork (.error e) }
  | .panic message w => { s with world := w.finishFork fork (.error (brokeOff message)) }
  | .waiting on w resume =>
    { s with world := w, suspended := s.suspended ++ [{ fork, on, resume }] }
  | .exhausted => { s with world := s.world.finishFork fork (.error beyondBudget) }

/-- Starts a fork on a new thread of the pool. -/
def startFork (s : Session) (fork : ForkId) : Session :=
  let id := s.world.threads
  let w := { s.world with threads := id + 1 }
  let s := { s with started := fork.index + 1 }
  s.note fork (fork.run (Context.ofThread { id, pooled := true }) w)

/-- The number of forks that can be under way at one time. -/
def workers : Nat := 8

/-- Starts the forks that have not been started, in order, as long as there is a worker for them. -/
def startForks (s : Session) : Session :=
  ((List.range s.world.forks.size).drop s.started).foldl
    (fun s i => if s.suspended.length < workers then s.startFork ⟨i⟩ else s) s

/-- Lets one of the waiting forks go on. -/
def resume (s : Session) (i : Nat) (waiting : Suspended) : Session :=
  { s with suspended := s.suspended.eraseIdx i }.note waiting.fork (waiting.resume s.world)

/-- Starts forks and lets those go on whose waits are over, a number of times at most. -/
def settle : Nat → Session → Session
  | 0, s => s
  | rounds + 1, s =>
    let s := s.startForks
    match s.suspended.zipIdx.find? fun (waiting, _) => s.world.isOver waiting.on with
    | some (waiting, i) => settle rounds (s.resume i waiting)
    | none => s

/-- The number of times that forks may go on between two steps. -/
def maxRounds : Nat := 1000000

/-- Lets all forks go on as far as they can. -/
def settleAll (s : Session) : Session :=
  settle maxRounds s

/-- The time at which the first wait runs out, be it that of a fork or the given one of the host. -/
def nextDeadline? (s : Session) (on : Wait) : Option Nat :=
  (on.deadline?.toList ++ s.suspended.filterMap (·.on.deadline?)).min?

/-- The result of a computation of the host. While it waits, the forks go on. The first argument
bounds the number of waits. -/
def finish {α : Type} : Nat → Session → Outcome α → Except Error α × Session
  | _, s, .value a w => (.ok a, { s with world := w }.settleAll)
  | _, s, .error e w => (.error e, { s with world := w }.settleAll)
  | _, s, .panic message w => (.error (brokeOff message), { s with world := w }.settleAll)
  | _, s, .exhausted => (.error beyondBudget, s)
  | 0, s, .waiting .. => (.error beyondBudget, s)
  | rounds + 1, s, .waiting on w resume =>
    let s := { s with world := w }.settleAll
    if s.world.isOver on then finish rounds s (resume s.world)
    else
      match s.nextDeadline? on with
      | some now => finish rounds s (.waiting on { s.world with now } resume)
      | none => finish rounds s (resume s.world)

/-- Runs a computation of the host. -/
def run {α : Type} (s : Session) (act : Eval α) : Except Error α × Session :=
  finish maxRounds s (act (Context.ofThread mainThread) s.world)

/-- The answer to a step. -/
def step (s : Session) (step : Step) : Answer × Session :=
  match s.run step.run with
  | (.ok answer, s) => (answer, s)
  | (.error e, s) => (.mk (.error e) [], s)

/-- The answers to steps in order. -/
def runAll (s : Session) : List Step → List Answer
  | [] => []
  | first :: rest =>
    let (answer, s) := s.step first
    answer :: s.runAll rest

/-- What the host prepares: the globals and the root scope. -/
def prepare (globals : List (String × Expr)) (source : Segment) : Eval Unit := do
  let globals ← globals.mapM fun (name, e) => do return (name, ← e.eval ⟨0⟩ none)
  Eval.modify fun w => { w with globals }
  let _ ← keepScope (← ScopeId.root source) "root"

/-- A new runtime with a root scope for a script. -/
def start (config : Configuration) (globals : List (String × Expr)) (source : Segment) : Session :=
  let world : World := { config, learner := { expiry := config.predictionExpiry } }
  ({ world : Session }.run (prepare globals source)).2

end Session

end Reactor
