import Reactor.Engine.Compute
import Reactor.Value.Fix

/-!
# Forks

A fork is a computation that runs beside its host on a thread of its own. It is evaluated in a child
of the scope, and its value is fixed deeply.

* `ScopeId.fork` : a new fork and the lambda that stands for its result.
* `ForkId.run` : what a fork computes.
* `ForkState` : how a fork stands.
-/

namespace Reactor

/-- How a fork stands. -/
inductive ForkState where
  | notYetAvailable
  | completed
  | failed
  deriving DecidableEq, Repr

/-- How a fork with an outcome stands. -/
def ForkState.ofOutcome : Option (Except Error Value) → ForkState
  | none => .notYetAvailable
  | some (.ok _) => .completed
  | some (.error _) => .failed

/-- The name of a state. -/
def ForkState.name : ForkState → String
  | .notYetAvailable => "NotYetAvailable"
  | .completed => "Completed"
  | .failed => "Failed"

/-- A new fork below a scope, and a lambda that waits for its result. -/
def ScopeId.fork (scope : ScopeId) (operation : String) (body : Expr) : Eval Forked := do
  let child ← scope.child (← scope.record).pure operation
  let fork ← Eval.modifyGet fun w =>
    (⟨w.forks.size⟩, { w with forks := w.forks.push { scope := child, body } })
  return { fork, value := .lambda (← LambdaId.ofBody scope operation (.await fork)) }

/-- What a fork computes. -/
def ForkId.run (fork : ForkId) : Eval Value := do
  let record ← Eval.gets fun w => w.forkAt fork
  let value ← Eval.evaluate record.body record.scope none
  let result ← Eval.holding value.places (value.fixDeep false)
  result.share

/-- The failure of a fork that broke off. -/
def brokeOff (message : Option String) : Error :=
  .exception ("Forked computation panicked: " ++ message.getD "unknown panic")

/-- Notes the outcome of a fork. -/
def World.finishFork (w : World) (fork : ForkId) (outcome : Except Error Value) : World :=
  { w with
    forks := w.forks.modify fork.index fun record => { record with outcome := some outcome } }

end Reactor
