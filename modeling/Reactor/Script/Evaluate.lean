import Reactor.Engine.Variable
import Reactor.Script.Perform

/-!
# Evaluation of scripts

Expressions are evaluated in a scope, subexpressions from left to right; a failure ends the whole
expression. The bodies of lambdas are not evaluated here but when the lambda is forced.

* `Expr.reply` : the reply of an expression.
* `Expr.eval` : its value.
-/

namespace Reactor

/-- A value inside a number of lists of one element. -/
def Value.nested : Nat → Value → Value
  | 0, v => v
  | n + 1, v => .list [nested n v]

@[simp] theorem Value.nested_zero (v : Value) : v.nested 0 = v := rfl

theorem Value.nested_succ (v : Value) (n : Nat) : v.nested (n + 1) = .list [v.nested n] := rfl

/-- Counts once more under a name and gives the new count. -/
def Desk.count (desk : Desk) (name : String) : Nat × Desk :=
  let n := (Entries.get? desk.counters name).getD 0 + 1
  (n, { desk with counters := Entries.insert desk.counters name n })

/-- A lambda in a scope. Without a source it has that of the scope. -/
def LambdaId.ofScript (scope : ScopeId) (operation : String) (inputs : List Value) (body : Expr)
    (source : Option Segment) (fixable : Bool) : Eval LambdaId := do
  let source := source.getD (← scope.record).source
  new { operation, source, scope, inputs, body := .script body, fixable, cache := .empty }

/-- Logs the text of a value. -/
def Value.log (v : Value) : Eval Value := do
  let text ← v.human
  Eval.modify fun w => w.modifyDesk fun desk => { desk with log := desk.log ++ [text] }
  return v

namespace Expr

mutual

/-- The reply of an expression in a scope, with an optional current item. -/
def reply (scope : ScopeId) (item : Option Value) : Expr → Eval Reply
  | .void => return .value .void
  | .null => return .value .null
  | .typedNull type => return .value (.typedNull type)
  | .boolean b => return .value (.boolean b)
  | .integer n => return .value (.integer n)
  | .decimal x => return .value (.decimal x)
  | .string s => return .value (.string s)
  | .date millis => return .value (.date millis)
  | .infinity positive => return .value (.infinity positive)
  | .list items => do return .value (.list (← evalAll scope item items))
  | .sequence items => do return .value (.sequence (← evalAll scope item items))
  | .map entries => do return .value (.map (← evalEntries scope item [] entries))
  | .range start stop => do
    let start ← (← reply scope item start).toValue
    Eval.holding start.places do
      let stop ← (← reply scope item stop).toValue
      return .value (.range start stop)
  | .uri text => return .value (.uri { text })
  | .queue items => do
    let items ← evalAll scope item items
    let queue := Value.queue (← Eval.newQueue [])
    Eval.holding queue.places (queue.writeAll items)
    return .value queue
  | .failure e => return .value (.failure e)
  | .nest depth e => do
    let v ← (← reply scope item e).toValue
    return .value (v.nested depth)
  | .register name => do
    return .value (← Eval.gets fun w => (Entries.get? w.desk.registers name).getD .void)
  | .item => return .value (item.getD .void)
  | .lookup name must => do return .value (← scope.get name must)
  | .parameter name => do return .value (← scope.getParameter name)
  | .set name e => do
    let v ← (← reply scope item e).toValue
    return .value (← scope.set name v)
  | .declare name e => do
    let v ← (← reply scope item e).toValue
    return .value (← scope.declare name v {})
  | .fail e => Eval.fail e
  | .panic message => Eval.panic message
  | .block es => do return .value ((← evalAll scope item es).getLast?.getD .void)
  | .cond test yes no => do
    let test ← (← reply scope item test).toValue
    if ← Eval.holding test.places test.truthy then
      return .value (← (← reply scope item yes).toValue)
    else return .value (← (← reply scope item no).toValue)
  | .log e => do
    let v ← (← reply scope item e).toValue
    Eval.holding v.places do return .value (← v.log)
  | .count name => do
    let n ← Eval.modifyGet fun w =>
      let (n, desk) := w.desk.count name
      (n, { w with desk })
    return .integer n
  | .lambda operation inputs body source fixable => do
    let inputs ← evalAll scope item inputs
    return .value (.lambda (← LambdaId.ofScript scope operation inputs body source fixable))
  | .invoke name => do
    let body ← Eval.gets fun w => (Entries.get? w.desk.definitions name).getD .void
    let lambda ← LambdaId.ofScript scope name [] body none true
    Eval.holding [.lambda lambda] do return .value (← (Value.lambda lambda).fix false)
  | .call op args body => do
    let args ← evalAll scope item args
    Eval.holding (itemsPlaces args) (op.perform (applyBody scope body) args)

/-- The values of expressions in order. Those that are there are held. -/
def evalAll (scope : ScopeId) (item : Option Value) : List Expr → Eval (List Value)
  | [] => return []
  | e :: es => do
    let v ← (← reply scope item e).toValue
    let vs ← Eval.holding v.places (evalAll scope item es)
    return v :: vs

/-- Entries with the values of expressions, inserted in order. Those that are there are held. -/
def evalEntries (scope : ScopeId) (item : Option Value) (done : Entries String Value) :
    List (String × Expr) → Eval (Entries String Value)
  | [] => return done
  | (key, e) :: es => do
    let v ← Eval.holding (entriesPlaces done) do (← reply scope item e).toValue
    evalEntries scope item (Entries.insert done key v) es

/-- The value of a body for an item; void without a body. -/
def applyBody (scope : ScopeId) : Option Expr → Value → Eval Value
  | none, _ => return .void
  | some body, v => do
    let v ← v.share
    (← reply scope (some v) body).toValue

end

/-- The value of an expression in a scope, with an optional current item. -/
def eval (e : Expr) (scope : ScopeId) (item : Option Value) : Eval Value := do
  (← e.reply scope item).toValue

end Expr

end Reactor
