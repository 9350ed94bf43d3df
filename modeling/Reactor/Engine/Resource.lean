import Reactor.Value.Forced

/-!
# Queues and cells

A read or a write has two independent flags. A blocking read waits for an item, a mutating read
takes it away. A mutating write puts an item into a queue; every write is told to the subscribers.
A cell holds one value.

* `Queue.push`, `Queue.publish` : the two writes of a queue.
* `Resource.read`, `Resource.write`, `Resource.subscribe` and others, for queues and cells.
-/

namespace Reactor

namespace Queue

/-- The first item, which a mutating read takes away. -/
def front? (id : QueueId) (mutating : Bool) : Eval (Option Value) :=
  Eval.modifyGet fun w =>
    match (w.queueAt id).items with
    | [] => (none, w)
    | item :: items =>
      (some item, if mutating then w.modifyQueue id fun q => { q with items } else w)

/-- Tells a value to subscribers in order. All are told; the first failure is the result. -/
def tell (value : Value) (subscribers : List Callback) : Eval Unit := do
  let failure ← Eval.inTurn (fun _ => []) Callback.places (fun failure callback => do
    match ← (Eval.evaluate callback.body callback.scope (some value)).attempt with
    | .ok _ => return failure
    | .error e => return failure.or (some e)) none subscribers
  match failure with
  | none => return ()
  | some e => Eval.fail e

/-- Tells a value to the subscribers of a queue. -/
def publish (id : QueueId) (value : Value) : Eval Unit := do
  tell value (← Eval.gets fun w => Entries.values (w.queueAt id).subscribers)

/-- Puts an item at the end of a queue and tells it to the subscribers. -/
def push (id : QueueId) (value : Value) : Eval Unit := do
  Eval.modify fun w => w.modifyQueue id fun q => { q with items := q.items ++ [value] }
  publish id value

/-- The first item, for which it waits if there is none; void if none arrives in time. -/
def await (id : QueueId) (timeout : Option Nat) (mutating : Bool) : Eval Value := do
  match ← front? id mutating with
  | some item => return item
  | none =>
    let now ← Eval.gets World.now
    Eval.wait (.queue id (timeout.map (now + ·)))
    return (← front? id mutating).getD .void

/-- The text of a subscription. -/
def subscriptionText (n : Nat) : String :=
  "sub-" ++ toString n

end Queue

namespace Resource

/-- Reads from a resource. -/
def read (resource : Resource) (blocking mutating : Bool) : Eval Value :=
  match resource with
  | .queue id => do
    if blocking then Queue.await id none mutating
    else return (← Queue.front? id mutating).getD .void
  | .cell id => Eval.modifyGet fun w =>
    (w.cellAt id, if mutating then { w with cells := w.cells.setIfInBounds id.index .void } else w)

/-- Takes from a resource, waiting for a time at most. A cell does not make anyone wait. -/
def readTimeout (resource : Resource) (millis : Nat) (mutating : Bool) : Eval Value :=
  match resource with
  | .queue id => Queue.await id (some millis) mutating
  | .cell _ => resource.read true mutating

/-- Writes to a resource. -/
def write (resource : Resource) (value : Value) (mutating : Bool) : Eval Value := do
  match resource with
  | .queue id =>
    if mutating then Queue.push id value else Queue.publish id value
    return value
  | .cell id =>
    if mutating then
      Eval.modify fun w => { w with cells := w.cells.setIfInBounds id.index value }
    return value

/-- Has an expression evaluated with every value that is written from now on. -/
def subscribe (resource : Resource) (callback : Callback) : Eval String :=
  match resource with
  | .queue id => Eval.modifyGet fun w =>
    let n := (w.queueAt id).nextSubscriber
    (Queue.subscriptionText n, w.modifyQueue id fun q =>
      { q with subscribers := Entries.insert q.subscribers n callback, nextSubscriber := n + 1 })
  | .cell _ =>
    Eval.fail (.new .invalidOperation "This resource does not support subscriptions")

/-- Ends a subscription and tells whether there was one. -/
def unsubscribe (resource : Resource) (subscription : String) : Eval Bool :=
  match resource with
  | .queue id => Eval.modifyGet fun w =>
    let subscribers := (w.queueAt id).subscribers
    match subscribers.find? fun entry => Queue.subscriptionText entry.1 = subscription with
    | some (n, _) =>
      (true, w.modifyQueue id fun q => { q with subscribers := Entries.erase q.subscribers n })
    | none => (false, w)
  | .cell _ => pure false

/-- Takes all items away. -/
def drain (resource : Resource) : Eval (List Value) :=
  match resource with
  | .queue id => Eval.modifyGet fun w =>
    ((w.queueAt id).items, w.modifyQueue id fun q => { q with items := [] })
  | .cell _ => Eval.fail (.new .invalidOperation "This resource cannot be drained")

/-- The items in order. -/
def all (resource : Resource) : Eval (List Value) :=
  match resource with
  | .queue id => Eval.gets fun w => (w.queueAt id).items
  | .cell _ => Eval.fail (.new .invalidOperation "This resource cannot be listed")

/-- The number of items. -/
def size (resource : Resource) : Eval Nat :=
  match resource with
  | .queue id => Eval.gets fun w => (w.queueAt id).items.length
  | .cell _ => Eval.fail (.new .invalidOperation "This resource has no size")

end Resource

namespace Uri

/-- The scheme: what stands before the first colon. -/
def scheme (uri : Uri) : String :=
  match uri.text.toList.span (· ≠ ':') with
  | (scheme, _ :: _) => String.ofList scheme
  | (_, []) => ""

/-- What stands behind the first colon and the slashes after it, or all if there is no colon. -/
def path (uri : Uri) : String :=
  match uri.text.toList.span (· ≠ ':') with
  | (_, _ :: rest) => String.ofList (rest.dropWhile (· == '/'))
  | (_, []) => uri.text

/-- The resource of a URI that has been resolved. -/
def bound (uri : Uri) : Except Error Resource :=
  match uri.resource with
  | some resource => .ok resource
  | none => .error (.new .invalidOperation ("URI '" ++ uri.text ++ "' is not bound to a handler"))

/-- The known schemes, in lower case. -/
def schemes : List String := ["queue", "cell"]

/-- The scheme is known, in whatever case it is written. -/
def hasScheme (name : String) : Bool :=
  schemes.contains name.toLower

/-- The queue of a name, which all URIs of that name share. -/
def namedQueue (name : String) : Eval QueueId := do
  match ← Eval.gets fun w => Entries.get? w.namedQueues name with
  | some id => return id
  | none =>
    let id ← Eval.newQueue []
    Eval.modify fun w => { w with namedQueues := Entries.insert w.namedQueues name id }
    return id

/-- Opens the resource that a text names. Every cell is a new one. -/
def resolve (text : String) : Eval Uri := do
  let uri : Uri := { text }
  match uri.scheme.toLower with
  | "queue" => return { uri with resource := some (.queue (← namedQueue uri.path)) }
  | "cell" =>
    if uri.path.isEmpty then Eval.fail (.exception "no cell name")
    else return { uri with resource := some (.cell (← Eval.newCell .void)) }
  | _ =>
    Eval.fail (.new .invalidOperation ("No handler for URI scheme '" ++ uri.scheme ++ "'"))

end Uri

end Reactor
