import Reactor.Value.Forced

/-!
# Fixing values

To fix a value is to replace its lambdas by their results, down to a given depth. Lambdas that are
not fixable stay as they are.

* `Value.fixDepth`, `Value.fix`, `Value.fixDeep`.
* `Value.copy` : a copy that shares no queue with the value.
-/

namespace Reactor.Value

/-- The number of elements from which on a collection is fixed in parallel: that of the runtime if
an element is deferred. -/
def parallelThreshold (items : List Value) : Eval Nat :=
  if items.any isLambda then Eval.gets fun w => w.config.parallelThreshold else pure 2

/-- Runs on a new thread of the pool. A thread of the pool does the work itself. -/
def onPool {α : Type} (act : Eval α) : Eval α := do
  if (← Eval.thread).pooled then act
  else
    let id ← Eval.modifyGet fun w => (w.threads, { w with threads := w.threads + 1 })
    Eval.onThread id true act

/-- Fixes elements up to the first failure. The results, which come last first, are held until all
are there. -/
def fixEach (fix : Value → Eval Value) (done : List Value) : List Value → Eval (List Value)
  | [] => return done.reverse
  | item :: items => do
    let result ← fix item
    Eval.holding result.places (fixEach fix (result :: done) items)

/-- Fixes all elements even if one fails; the first failure is the result. The results, which come
last first, are held until all are there. -/
def fixAll (fix : Value → Eval Value) (done : List Value) (failure : Option Error) :
    List Value → Eval (List Value)
  | [] =>
    match failure with
    | none => return done.reverse
    | some e => Eval.fail e
  | item :: items => do
    match ← (fix item).attempt with
    | .ok result => Eval.holding result.places (fixAll fix (result :: done) failure items)
    | .error e => fixAll fix done (failure.or (some e)) items

/-- Fixes the elements of a collection. Two or more elements are handed to the pool if there are as
many as the threshold says. -/
def fixItems (fix : Value → Eval Value) (parallel : Bool) (items : List Value) :
    Eval (List Value) := do
  if parallel && (← parallelThreshold items) ≤ items.length && 2 ≤ items.length then
    fixAll (fun item => onPool (fix item)) [] none items
  else fixEach fix [] items

/-- Fixes a value down to a depth; the first argument bounds the traversal. -/
def fixAt : Nat → Nat → Bool → Value → Eval Value
  | _, 0, _, v => pure v
  | 0, _ + 1, _, _ => Eval.exhausted
  | budget + 1, depth + 1, parallel, v => do
    let fixable ← (match v.lambda? with
      | some id => Eval.gets fun w => (w.lambdaAt id).fixable
      | none => pure true)
    if !fixable then return v
    v.onForced fun v => do
      if depth = 0 then return v
      let fix := fixAt budget depth parallel
      match v.data with
      | .list items => return v.withData (.list (← fixItems fix parallel items))
      | .sequence items => return v.withData (.sequence (← fixItems fix parallel items))
      | .map entries =>
        let fixed ← fixItems fix parallel (Entries.values entries)
        return v.withData (.map ((Entries.keys entries).zip fixed))
      | .range start stop =>
        let start ← fix start
        let stop ← Eval.holding start.places (fix stop)
        return v.withData (.range start stop)
      | _ => return v

/-- Replaces lambdas by their results down to a depth. -/
def fixDepth (v : Value) (depth : Nat) (parallel : Bool) : Eval Value := do
  fixAt (← Eval.budget) depth parallel v

/-- Replaces the value by its result. -/
def fix (v : Value) (parallel : Bool) : Eval Value :=
  v.fixDepth 1 parallel

/-- A depth that no value reaches. -/
def maxDepth : Nat := wordBound - 1

/-- Replaces all lambdas by their results. -/
def fixDeep (v : Value) (parallel : Bool) : Eval Value :=
  v.fixDepth maxDepth parallel

/-- A copy down to a given depth: queues inside are new queues. -/
def copyAt : Nat → Value → Eval Value
  | 0, _ => Eval.exhausted
  | depth + 1, v => do
    match v.data with
    | .list items => return v.withData (.list (← items.mapM (copyAt depth)))
    | .sequence items => return v.withData (.sequence (← items.mapM (copyAt depth)))
    | .map entries =>
      let copied ← entries.mapM fun (key, item) => do return (key, ← copyAt depth item)
      return v.withData (.map copied)
    | .range start stop =>
      let start ← copyAt depth start
      let stop ← copyAt depth stop
      return v.withData (.range start stop)
    | .queue id =>
      let items ← Eval.gets fun w => (w.queueAt id).items
      return v.withData (.queue (← Eval.newQueue (← items.mapM (copyAt depth))))
    | _ => return v

/-- A copy that shares no queue with the value. -/
def copy (v : Value) : Eval Value := do
  copyAt (← Eval.budget) v

end Reactor.Value
