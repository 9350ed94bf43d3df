import Reactor.Value.Share

/-!
# Forcing values

* `Value.forced` : the value itself, or the result of its lambda with its errors added.
* `Value.onForced`, `Value.onForcedBoth` : work with forced values, which are held meanwhile.
* `Value.type`, `Value.truthy` and others: properties of the forced value. A failure to force makes
  an error of the type, and is false.
* `Eval.newQueue`, `Eval.newCell` : resources that hold given values.
-/

namespace Reactor

namespace Value

/-- The result of a lambda, to which the errors attached to the deferred value are added. Any other
value is its own result. -/
def forced (v : Value) : Eval Value :=
  match v.lambda? with
  | none => pure v
  | some id => do
    let result ← Eval.force id
    if v.errors.isEmpty then return result
    else return result.rebuild (result.errors ++ v.errors) result.notes.tags

/-- Works with the forced value, which is held meanwhile. -/
def onForced {α : Type} (v : Value) (work : Value → Eval α) : Eval α :=
  match v.lambda? with
  | none => work v
  | some _ => do
    let result ← v.forced
    Eval.holding result.places (work result)

/-- Works with the forced value or the failure to force it. The value is held meanwhile. -/
def onAttempt {α : Type} (v : Value) (work : Except Error Value → Eval α) : Eval α :=
  match v.lambda? with
  | none => work (.ok v)
  | some _ => do
    match ← v.forced.attempt with
    | .ok result => Eval.holding result.places (work (.ok result))
    | .error e => work (.error e)

/-- Works with two values, forced in order. -/
def onForcedBoth {α : Type} (a b : Value) (work : Value → Value → Eval α) : Eval α :=
  a.onForced fun a => b.onForced fun b => work a b

/-- The type of the forced value. -/
def type (v : Value) : Eval ValueType := do
  match ← (forced v).attempt with
  | .ok v => return v.tag
  | .error _ => return .error

/-- The type of the forced value with its constraint. -/
def typeLabel (v : Value) : Eval TypeLabel := do
  return { type := ← v.type, constraint := v.tag? constraintTag }

def isNumber (v : Value) : Eval Bool := do
  return (← v.type).isNumeric

/-- The value if it is forced to void, then the fallback. -/
def orDefault (v fallback : Value) : Eval Value := do
  if (← v.type) = .void then return fallback else return v

/-- The payload counts as true. -/
def truthyData : Data → Eval Bool
  | .void | .null _ | .error _ | .lambda _ => pure false
  | .boolean b => pure b
  | .integer n => pure (n != 0)
  | .decimal x => pure (!x.isZero && !x.isNotANumber)
  | .string s => pure (!s.isEmpty)
  | .list items => pure (!items.isEmpty)
  | .sequence items => pure (!items.isEmpty)
  | .map entries => pure (!entries.isEmpty)
  | .queue id => Eval.gets fun w => !(w.queueAt id).items.isEmpty
  | .range .. | .infinity _ | .date _ | .uri _ => pure true

/-- The forced value counts as true. -/
def truthy (v : Value) : Eval Bool := do
  match ← (forced v).attempt with
  | .ok v => truthyData v.data
  | .error _ => return false

/-- The forced value is an error, or there is none. -/
def isNeitherTrueNorFalse (v : Value) : Eval Bool := do
  match ← (forced v).attempt with
  | .ok v => return v.tag = .error
  | .error _ => return true

def isTrue (v : Value) : Eval Bool := do
  if ← v.isNeitherTrueNorFalse then return false else v.truthy

def isFalse (v : Value) : Eval Bool := do
  if ← v.isNeitherTrueNorFalse then return false
  else return !(← v.truthy)

/-- The lambda has no result yet. -/
def isPending (v : Value) : Eval Bool :=
  match v.lambda? with
  | none => pure false
  | some id => Eval.gets fun w => !((w.lambdaAt id).cache matches .holding _)

theorem forced_of_lambda?_eq_none {v : Value} (h : v.lambda? = none) : v.forced = pure v := by
  simp [forced, h]

theorem onForced_of_lambda?_eq_none {α : Type} {v : Value} (h : v.lambda? = none)
    (work : Value → Eval α) : v.onForced work = work v := by
  simp [onForced, h]

theorem onAttempt_of_lambda?_eq_none {α : Type} {v : Value} (h : v.lambda? = none)
    (work : Except Error Value → Eval α) : v.onAttempt work = work (.ok v) := by
  simp [onAttempt, h]

theorem onForcedBoth_of_lambda?_eq_none {α : Type} {a b : Value} (ha : a.lambda? = none)
    (hb : b.lambda? = none) (work : Value → Value → Eval α) : a.onForcedBoth b work = work a b := by
  simp [onForcedBoth, onForced, ha, hb]

end Value

namespace Eval

/-- A new queue that holds the items. -/
def newQueue (items : List Value) : Eval QueueId := do
  let items ← Value.shareAll items
  modifyGet fun w => (⟨w.queues.size⟩, { w with queues := w.queues.push { items } })

/-- A new cell that holds a value. -/
def newCell (content : Value) : Eval CellId :=
  modifyGet fun w => (⟨w.cells.size⟩, { w with cells := w.cells.push content })

end Eval

end Reactor
