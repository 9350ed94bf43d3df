import Reactor.Engine.Liveness

/-!
# Dependencies between lambdas

A lambda that is computed from another one is registered among the listeners of that one.

* `World.addDependent`, `World.removeListener` : the edges.
* `World.follow` : the edge to the lambda that a result was read from.
* `World.invalidate` : forgets a result together with the edge that it brought.
* `World.dependents` : the live lambdas that depend on one.
* `World.discover` : all lambdas that a notification reaches, nearest first.
-/

namespace Reactor.World

/-- Registers a lambda with one that it depends on, unless it is registered already; no lambda is
registered with itself. -/
def addDependent (w : World) (source dependent : LambdaId) : World × Bool :=
  if dependent = source ∨
      Entries.contains (w.lambdaAt source).listeners (.dependent dependent) then (w, false)
  else
    (w.modifyLambda source fun record =>
      { record with
        listeners :=
          Entries.insert record.listeners (.dependent dependent) (.dependent dependent) },
      true)

/-- No lambda depends on itself. -/
theorem addDependent_self (w : World) (lambda : LambdaId) :
    w.addDependent lambda lambda = (w, false) := by
  simp [addDependent]

/-- Ends a registration. -/
def removeListener (w : World) (lambda : LambdaId) (key : ListenerKey) : World :=
  w.modifyLambda lambda fun record =>
    { record with listeners := Entries.erase record.listeners key }

/-- Registers a lambda with the one that its result is read from, until the next invalidation. A
registration that is there already is left alone. -/
def follow (w : World) (lambda inner : LambdaId) : World :=
  let previous := (w.lambdaAt lambda).followed
  if previous = some inner then w
  else
    match w.addDependent inner lambda with
    | (w, false) => w
    | (w, true) =>
      let w := w.modifyLambda lambda fun record => { record with followed := some inner }
      match previous with
      | some previous => w.removeListener previous (.dependent lambda)
      | none => w

/-- Without the result. A computation that is under way goes on. -/
def dropResult (record : LambdaRecord) : LambdaRecord :=
  { record with
    generation := record.generation + 1
    followed := none
    cache := if record.cache matches .holding _ then .empty else record.cache }

@[simp] theorem generation_dropResult (record : LambdaRecord) :
    (dropResult record).generation = record.generation + 1 := rfl

@[simp] theorem followed_dropResult (record : LambdaRecord) :
    (dropResult record).followed = none := rfl

/-- Nothing is held any more. -/
theorem cache_dropResult_ne_holding (record : LambdaRecord) (value : Value) :
    (dropResult record).cache ≠ .holding value := by
  unfold dropResult
  cases record.cache <;> simp

/-- A computation that is under way stays under way. -/
theorem cache_dropResult_of_computing {record : LambdaRecord} {thread : ThreadId}
    (h : record.cache = .computing thread) : (dropResult record).cache = .computing thread := by
  simp [dropResult, h]

/-- Forgets the result of a lambda, and the edge to the lambda that it was read from. -/
def invalidate (w : World) (lambda : LambdaId) : World :=
  let followed := (w.lambdaAt lambda).followed
  let w := w.modifyLambda lambda dropResult
  match followed with
  | some followed => w.removeListener followed (.dependent lambda)
  | none => w

/-- A registration that still matters: a callback, or a dependent that lives. -/
def isCurrent (live : Holders) : Listener → Bool
  | .dependent id => live.hasLambda id
  | .callback _ => true

/-- Drops the registrations of lambdas that no longer live. -/
def pruneListeners (w : World) (live : Holders) (lambda : LambdaId) : World :=
  w.modifyLambda lambda fun record =>
    { record with
      listeners := record.listeners.filter fun (_, listener) => isCurrent live listener }

/-- The lambdas that are registered as dependents. -/
def dependents (w : World) (lambda : LambdaId) : List LambdaId :=
  (w.lambdaAt lambda).listeners.filterMap fun (_, listener) =>
    match listener with
    | .dependent id => some id
    | .callback _ => none

/-- The callbacks of a lambda. -/
def callbacks (w : World) (lambda : LambdaId) : List Callback :=
  (w.lambdaAt lambda).listeners.filterMap fun (_, listener) =>
    match listener with
    | .callback callback => some callback
    | .dependent _ => none

/-- The thread is notifying the lambda. -/
def isNotifying (w : World) (thread : ThreadId) (lambda : LambdaId) : Bool :=
  (w.lambdaAt lambda).notifying.contains thread

/-- Notes that a thread is notifying a lambda. -/
def enterNotify (w : World) (thread : ThreadId) (lambda : LambdaId) : World :=
  w.modifyLambda lambda fun record => { record with notifying := thread :: record.notifying }

/-- Notes that a thread is done with notifying a lambda. -/
def leaveNotify (w : World) (thread : ThreadId) (lambda : LambdaId) : World :=
  w.modifyLambda lambda fun record =>
    { record with notifying := record.notifying.filter (· ≠ thread) }

/-- The lambdas that a notification of the pending ones reaches, breadth first, each one once. A
lambda that the thread is notifying already is passed over. The first argument bounds the steps. -/
def discover (live : Holders) (thread : ThreadId) :
    Nat → World → List LambdaId → List LambdaId × World
  | 0, w, _ => ([], w)
  | _, w, [] => ([], w)
  | steps + 1, w, lambda :: pending =>
    if w.isNotifying thread lambda then discover live thread steps w pending
    else
      let w := (w.enterNotify thread lambda).pruneListeners live lambda
      let (affected, w) := discover live thread steps w (pending ++ w.dependents lambda)
      (lambda :: affected, w)

/-- The number of registrations with lambdas. -/
def listenerTotal (w : World) : Nat :=
  w.lambdas.foldl (fun total record => total + record.listeners.length) 0

/-- The lambdas that a notification of some lambdas reaches, marked as being notified. -/
def enter (w : World) (live : Holders) (thread : ThreadId) (lambdas : List LambdaId) :
    List LambdaId × World :=
  discover live thread (lambdas.length + w.listenerTotal + 1) w lambdas

end Reactor.World
