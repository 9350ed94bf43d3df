import Reactor.Engine.Dependency
import Reactor.Engine.Scope
import Reactor.Value.Equality

/-!
# Computing lambdas

* `ForkId.await` : the result of a fork, once it is there.
* `LambdaId.new` : a new lambda, registered with the lambdas among its inputs.
* `LambdaId.compute` : what a lambda computes in a scope.
* `LambdaId.applyIn` : the computed value in a scope, for conditions and error handlers.
-/

namespace Reactor

/-- The result of a fork, for which it waits at most for a time. -/
def ForkId.await (fork : ForkId) (timeout : Option Nat) : Eval Value := do
  match ← Eval.gets fun w => (w.forkAt fork).outcome with
  | some outcome => Eval.ofExcept outcome
  | none =>
    let now ← Eval.gets World.now
    Eval.wait (.fork fork (timeout.map (now + ·)))
    match ← Eval.gets fun w => (w.forkAt fork).outcome with
    | some outcome => Eval.ofExcept outcome
    | none => Eval.fail (.new .timeout "Forked computation did not complete in time")

namespace LambdaId

/-- The record of a lambda. -/
def record (lambda : LambdaId) : Eval LambdaRecord :=
  Eval.gets fun w => w.lambdaAt lambda

/-- A new lambda, registered with every lambda among its inputs. -/
def new (record : LambdaRecord) : Eval LambdaId :=
  Eval.modifyGet fun w =>
    let lambda : LambdaId := ⟨w.lambdas.size⟩
    let w := { w with lambdas := w.lambdas.push record }
    (lambda, record.inputs.foldl
      (fun w input =>
        match input.lambda? with
        | some source => (w.addDependent source lambda).1
        | none => w)
      w)

/-- A new lambda with the source of its scope. -/
def ofBody (scope : ScopeId) (operation : String) (body : Body) : Eval LambdaId := do
  let source := (← scope.record).source
  new { operation, source, scope, inputs := [], body, fixable := true, cache := .empty }

/-- What a lambda computes in a scope. -/
def compute (lambda : LambdaId) (scope : ScopeId) : Eval Value := do
  match (← lambda.record).body with
  | .script e => Eval.evaluate e scope none
  | .lookup name => scope.get name true
  | .await fork => fork.await none

/-- The value that a lambda computes in a scope. Nothing is kept and no handler sees a failure. -/
def applyIn (lambda : LambdaId) (scope : ScopeId) : Eval Value :=
  Eval.nested do
    let value ← lambda.compute scope
    Eval.holding value.places value.forced

end LambdaId

end Reactor
