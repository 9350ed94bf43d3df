import Reactor.Engine.Compute

/-!
# Error handlers

An error is offered to the handlers of the scope in which it arose, then to those of each parent.
A handled error leaves void. An error that no handler takes is reported; it then becomes a value, or
stays a failure if the runtime fails fast.

* `ScopeId.addHandler`.
* `ScopeId.handleError`.
-/

namespace Reactor

/-- Reports an error that passed all scopes. -/
def reportError (e : Error) : Eval Value := do
  Eval.modify fun w => { w with reports := w.reports ++ [{ error := e }] }
  if ← Eval.gets fun w => w.config.failFast then Eval.fail e else return .failure e

namespace ScopeId

/-- Adds a handler. It runs with the parameters `type` and `msg`. -/
def addHandler (scope : ScopeId) (handler : Value) : Eval Unit := do
  scope.checkAlive
  Eval.modify fun w => w.modifyScope scope fun record =>
    { record with handlers := record.handlers ++ [handler] }

/-- Runs handlers in order, up to the first that fails. Only lambdas run. -/
def runHandlers (scope : ScopeId) : List Value → Eval Unit
  | [] => pure ()
  | handler :: handlers => do
    match handler.lambda? with
    | some lambda => let _ ← lambda.applyIn scope
    | none => pure ()
    runHandlers scope handlers

/-- Offers an error to handlers in a scope that was made for them; gives the failure of a
handler. -/
def offer (scope : ScopeId) (handlers : List Value) (e : Error) : Eval (Except Error Unit) := do
  let _ ← scope.bind "type" (.string e.kind.name)
  let _ ← scope.bind "msg" (.string e.message)
  let outcome ← (runHandlers scope handlers).attempt
  scope.destroy
  return outcome

/-- Offers an error to scopes in order, until the handlers of one run without failure. A failure
of a handler goes on in place of the error. Broken assertions are not offered. -/
def handleAlong : List ScopeId → Error → Eval Value
  | [], e => reportError e
  | scope :: scopes, e => do
    if !e.kind.isRecoverable then Eval.fail e
    else
      let record ← scope.record
      if record.handlers.isEmpty || record.destroyed then handleAlong scopes e
      else
        Eval.holding (itemsPlaces record.handlers) do
          let child ← scope.child record.pure "error-handler"
          Eval.holding [.scope child] do
            match ← child.offer record.handlers e with
            | .ok () => return .void
            | .error failure => handleAlong scopes failure

/-- Offers an error to the handlers of a scope, then to those of each parent. -/
def handleError (scope : ScopeId) (e : Error) : Eval Value := do
  handleAlong (← Eval.gets fun w => w.ancestors scope) e

end ScopeId

end Reactor
