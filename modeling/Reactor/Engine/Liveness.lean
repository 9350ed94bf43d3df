import Std.Data.HashMap
import Reactor.Engine.Eval

/-!
# Liveness

A registration with a variable or with another lambda does not keep a lambda alive. A place lives as
long as something that lives holds it. Places that hold one another keep each other alive, even if
nothing else holds any of them, until one of them lets go.

* `World.held` : the places that a place holds.
* `World.roots` : the places that are held from outside the records.
* `World.holders` : how often each place is held.
* `World.release` : drops the places that nothing holds, then those that only these held, and so on.
* `World.liveness`, `Eval.liveness` : the places that are left.
-/

namespace Reactor

/-- How often each place is held. A place without a count is not held. -/
abbrev Holders := Std.HashMap Place Nat

namespace Holders

/-- How often a place is held. -/
def count (holders : Holders) (place : Place) : Nat :=
  holders.getD place 0

/-- The places are held once more. -/
def addAll (holders : Holders) (places : List Place) : Holders :=
  places.foldl (fun holders place => holders.insert place (holders.count place + 1)) holders

/-- The places are held once less; also gives those that nothing holds any more, in front of
others. -/
def dropAll (holders : Holders) (released : List Place) : List Place → Holders × List Place
  | [] => (holders, released)
  | place :: places =>
    let count := holders.count place - 1
    dropAll (holders.insert place count) (if count = 0 then place :: released else released) places

/-- Something that lives holds the lambda. -/
def hasLambda (holders : Holders) (id : LambdaId) : Bool :=
  holders.count (.lambda id) != 0

end Holders

namespace World

/-! ## What places hold -/

/-- What a lambda holds: its scope, its inputs, its result and the scopes of its callbacks. -/
def heldByLambda (record : LambdaRecord) : List Place :=
  let result :=
    match record.cache with
    | .holding value => value.places
    | _ => []
  let awaited :=
    match record.body with
    | .await fork => [.fork fork]
    | _ => []
  let callbacks := record.listeners.flatMap fun (_, listener) =>
    match listener with
    | .callback callback => callback.places
    | .dependent _ => []
  .scope record.scope :: itemsPlacesBefore record.inputs result ++ awaited ++ callbacks

/-- What a scope holds: its parent and its variables, parameters and handlers. -/
def heldByScope (record : ScopeRecord) : List Place :=
  record.parent.toList.map Place.scope ++ record.vars.map (fun (_, id) => Place.variable id) ++
    entriesPlacesBefore record.parameters (itemsPlaces record.handlers)

/-- What a variable holds: its value and its condition. -/
def heldByVariable (record : VariableRecord) : List Place :=
  match record.constraint with
  | some constraint => record.value.placesBefore constraint.predicate.places
  | none => record.value.places

/-- What a queue holds: its items and the scopes of its subscribers. -/
def heldByQueue (record : QueueRecord) : List Place :=
  itemsPlacesBefore record.items (record.subscribers.flatMap fun (_, callback) => callback.places)

/-- What a fork holds: its result. -/
def heldByFork (record : ForkRecord) : List Place :=
  match record.outcome with
  | some (.ok value) => value.places
  | _ => []

/-- The places that a place holds. A place without a record holds nothing. -/
def held (w : World) : Place → List Place
  | .scope id => heldByScope (w.scopeAt id)
  | .variable id => heldByVariable (w.variableAt id)
  | .lambda id => if id.index < w.lambdas.size then heldByLambda (w.lambdaAt id) else []
  | .queue id => heldByQueue (w.queueAt id)
  | .cell id => (w.cellAt id).places
  | .fork id => heldByFork (w.forkAt id)

/-- All places that have a record. -/
def places (w : World) : List Place :=
  (List.range w.scopes.size).map (fun i => .scope ⟨i⟩) ++
    (List.range w.vars.size).map (fun i => .variable ⟨i⟩) ++
    (List.range w.lambdas.size).map (fun i => .lambda ⟨i⟩) ++
    (List.range w.queues.size).map (fun i => .queue ⟨i⟩) ++
    (List.range w.cells.size).map (fun i => .cell ⟨i⟩) ++
    (List.range w.forks.size).map (fun i => .fork ⟨i⟩)

/-! ## What is held from outside -/

/-- What an entry of the store holds. -/
def slotPlaces : Slot → List Place
  | .single value => value.places
  | .list items => itemsPlaces items

/-- What the host holds by names of its own. -/
def heldByDesk (desk : Desk) : List Place :=
  entriesPlaces desk.registers ++ desk.scopes.map (fun (_, id) => .scope id) ++
    desk.forks.flatMap fun (_, forked) => .fork forked.fork :: forked.value.places

/-- What the forks that are not done hold: the scopes in which they compute. -/
def heldByForking (w : World) : List Place :=
  w.forks.toList.filterMap fun record =>
    if record.outcome.isNone then some (.scope record.scope) else none

/-- The places that the host, the runtime and the computations of waiting threads hold. -/
def roots (w : World) : List Place :=
  heldByDesk w.desk ++ w.store.entries.flatMap (fun (_, entry) => slotPlaces entry.slot) ++
    w.namedQueues.map (fun (_, id) => .queue id) ++ entriesPlaces w.globals ++ w.heldByForking ++
    w.parked.flatMap (·.2)

/-! ## What lives -/

/-- How often each place is held, by the records, from outside and by a computation that holds some
places. -/
def holders (w : World) (held : List Place) : Holders :=
  w.places.foldl (fun holders place => holders.addAll (w.held place))
    ((({} : Holders).addAll held).addAll w.roots)

/-- Drops places that nothing holds, and then what only they held. Every place is dropped once at
most, which bounds the first argument. -/
def release (w : World) : Nat → Holders → List Place → Holders
  | 0, holders, _ => holders
  | _, holders, [] => holders
  | steps + 1, holders, place :: places =>
    let (holders, places) := holders.dropAll places (w.held place)
    w.release steps holders places

/-- What lives while a computation holds some places. -/
def liveness (w : World) (held : List Place) : Holders :=
  let holders := w.holders held
  let places := w.places
  w.release places.length holders (places.filter fun place => holders.count place = 0)

end World

/-- What lives while this computation goes on. -/
def Eval.liveness : Eval Holders :=
  fun ctx w => .value (w.liveness ctx.thread.held) w

end Reactor
