import Reactor.Engine.Force
import Reactor.Text.Numeral

/-!
# Notification

A notification forgets the results of the given lambdas and of all that depend on them, directly or
not. After that the callbacks of each run once with its new value.

* `LambdaId.propagate`, `LambdaId.notify`.
* `LambdaId.listen`, `LambdaId.listenAs`, `LambdaId.unlisten`.
* `ListenerKey.ofText` : the key that a text names.
-/

namespace Reactor

namespace ListenerKey

/-- Reads a number that counts from one as it is written, and counts it from zero. -/
def ordinal? (cs : List Char) : Option Nat :=
  match Text.digitsValue cs with
  | 0 => none
  | n + 1 => if cs = (toString (n + 1)).toList then some n else none

/-- Reads the text of a lambda, such as `lambda-2`, or that of a handle, such as `listener-2-1`. -/
def read? (cs : List Char) : Option ListenerKey :=
  match cs.span (· ≠ '-') with
  | (word, _ :: rest) =>
    if word = "lambda".toList then (ordinal? rest).map fun index => .dependent ⟨index⟩
    else if word = "listener".toList then
      match rest.span (· ≠ '-') with
      | (number, _ :: count) => do return .handle ⟨← ordinal? number⟩ ((← ordinal? count) + 1)
      | _ => none
    else none
  | _ => none

/-- The key that a text names. All registrations with a lambda are kept under texts. Those of lambdas and handles
are made from the number of a lambda, which counts all that have been made, so a chosen text may be one of
them. -/
def ofText (text : String) : ListenerKey :=
  (read? text.toList).getD (.chosen text)

example : ofText "lambda-2" = .dependent ⟨1⟩ := by decide

example : ofText "listener-12-3" = .handle ⟨11⟩ 3 := by decide

example : ofText "lambda-02" = .chosen "lambda-02" := by decide

end ListenerKey

namespace LambdaId

/-- Runs callbacks with a new value. The handlers of the scope take a failure. -/
def tellCallbacks (record : LambdaRecord) (value : Value) (callbacks : List Callback) : Eval Unit :=
  Eval.inTurn (fun _ => []) Callback.places (fun _ callback => do
    match ← (Eval.evaluate callback.body callback.scope (some value)).attempt with
    | .ok _ => pure ()
    | .error e => let _ ← record.scope.handleError (e.addSource record.source)) () callbacks

/-- Runs the callbacks of a lambda, if it has any, with its value. -/
def runCallbacks (lambda : LambdaId) : Eval Unit := do
  match ← Eval.gets fun w => w.callbacks lambda with
  | [] => pure ()
  | callbacks =>
    let value ← Eval.holding (callbacks.flatMap Callback.places) (Eval.force lambda)
    Eval.holding value.places do tellCallbacks (← lambda.record) value callbacks

/-- Runs the callbacks of some lambdas in order, up to the first failure. -/
def runAllCallbacks : List LambdaId → Eval Unit
  | [] => pure ()
  | lambda :: lambdas => do
    lambda.runCallbacks
    runAllCallbacks lambdas

/-- Notifies some lambdas and all that depend on them: first all are invalidated, then the
callbacks run. A lambda that this thread is notifying already is passed over. All that are notified
are held until the end. -/
def propagate (lambdas : List LambdaId) : Eval Unit := do
  if lambdas.isEmpty then return ()
  Eval.nested do
    let thread := (← Eval.thread).id
    let live ← Eval.liveness
    let affected ← Eval.modifyGet fun w => w.enter live thread lambdas
    Eval.modify fun w => affected.foldl World.invalidate w
    let outcome ← (Eval.holding (affected.map .lambda) (runAllCallbacks affected)).attempt
    Eval.modify fun w => affected.foldl (fun w lambda => w.leaveNotify thread lambda) w
    Eval.ofExcept outcome

/-- Notifies a lambda and all that depend on it. -/
def notify (lambda : LambdaId) : Eval Unit :=
  propagate [lambda]

/-- Registers a callback under a key. A key in use keeps its callback. -/
def listenAs (lambda : LambdaId) (key : ListenerKey) (callback : Callback) : Eval Unit :=
  Eval.modify fun w => w.modifyLambda lambda fun record =>
    if Entries.contains record.listeners key then record
    else { record with listeners := Entries.insert record.listeners key (.callback callback) }

/-- Registers a callback under a new key. -/
def listen (lambda : LambdaId) (callback : Callback) : Eval ListenerKey := do
  let count := (← lambda.record).nextListener
  Eval.modify fun w => w.modifyLambda lambda fun record =>
    { record with nextListener := record.nextListener + 1 }
  lambda.listenAs (.handle lambda count) callback
  return .handle lambda count

/-- Ends a registration and tells whether there was one. -/
def unlisten (lambda : LambdaId) (key : ListenerKey) : Eval Bool :=
  Eval.modifyGet fun w =>
    (Entries.contains (w.lambdaAt lambda).listeners key, w.removeListener lambda key)

end LambdaId

/-- Notifies a deferred value; any other value has nobody to tell. -/
def Value.notify (v : Value) : Eval Value := do
  match v.lambda? with
  | some lambda => lambda.notify
  | none => pure ()
  return v

end Reactor
