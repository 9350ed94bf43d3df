import Reactor.Engine.Notify
import Reactor.Script.Answer
import Reactor.Value.Debug
import Reactor.Value.Order
import Reactor.Value.Stream

/-!
# Operations on values

* `Value.each`, `Value.pipe` : the operations that apply a body.
* `Operation.perform` : the reply of an operation to its arguments. Missing arguments are void.
-/

namespace Reactor

namespace Value

/-- The results of a body for each element; a failure becomes an error value. The results, which
come last first, are held until all are there. -/
def applyEach (apply : Value → Eval Value) (done : List Value) : List Value → Eval (List Value)
  | [] => return done.reverse
  | item :: items => do
    match ← (apply item).attempt with
    | .ok result => Eval.holding result.places (applyEach apply (result :: done) items)
    | .error e => applyEach apply (.failure e :: done) items

/-- The list of the results of a body for each element. -/
def each (apply : Value → Eval Value) (v : Value) : Eval Value := do
  return .list (← v.onItems (applyEach apply []))

/-- The result of a body for a value; a failure is attached to the value. -/
def pipe (apply : Value → Eval Value) (v : Value) : Eval Value := do
  match ← (apply v).attempt with
  | .ok result => return result
  | .error e => return v.withError e

/-- The first value is less. -/
def lt (a b : Value) : Eval Bool := do
  match ← (a.compare b).attempt with
  | .ok order => return order == .lt
  | .error _ => return false

/-- The first value is greater, or the two are equal. -/
def ge (a b : Value) : Eval Bool := do
  match ← (a.compare b).attempt with
  | .ok order => return order != .lt
  | .error _ => return false

/-- Logs the attached errors and drops them. -/
def logErrors (v : Value) : Eval Value := do
  Eval.modify fun w => w.modifyDesk fun desk =>
    { desk with log := desk.log ++ v.errors.map Error.describe }
  return v.clearErrors

end Value

namespace Operation

/-- The reply of an operation to its arguments `a` and `b`, and to a third one for setting an
element. -/
def performOn (op : Operation) (apply : Value → Eval Value) (a b c : Value) : Eval Reply :=
  let value (act : Eval Value) : Eval Reply := do return .value (← act)
  let flag (act : Eval Bool) : Eval Reply := do return .flag (← act)
  let text (act : Eval String) : Eval Reply := do return .text (← act)
  match op with
  | plus => value (a.plus b)
  | minus => value (a.minus b)
  | multiply => value (a.multiply b)
  | divide => value (a.divide b)
  | modulus => value (a.modulus b)
  | negate => value a.negate
  | abs => value a.abs
  | sign => value a.sign
  | inc => value a.inc
  | dec => value a.dec
  | not => value do return .boolean (!(← a.truthy))
  | and => value do return .boolean (← if ← a.truthy then b.truthy else pure false)
  | or => value do return .boolean (← if ← a.truthy then pure true else b.truthy)
  | equals => value do return .boolean (← Value.equals a b)
  | append => value (a.append b)
  | prepend => value (a.prepend b)
  | remove => value (a.remove b)
  | get => value (a.get b)
  | set => value (a.set b c)
  | withEntry key => value (a.withEntry key b)
  | keys => value a.keys
  | first => value a.first
  | last => value a.last
  | sum => value a.sum
  | product => value a.product
  | min => value a.min
  | max => value a.max
  | avg => value a.avg
  | sort => value a.sort
  | reverse => value a.reverse
  | unique => value a.unique
  | toList => value do return .list (← a.toList)
  | toMap => value do return .map (← a.toMap)
  | each => value (a.each apply)
  | pipe => value (a.pipe apply)
  | default => value (a.orDefault b)
  | size => do return .integer (← a.size)
  | isEmpty => flag a.isEmpty
  | containsValue => flag (a.containsValue b)
  | containsKey => flag (a.containsKey b)
  | has key => flag (a.containsKey (.string key))
  | withError e => return .value (a.withError e)
  | withErrorsOf => return .value (a.withErrors b.errors)
  | clearErrors => return .value a.clearErrors
  | onErrors => value a.logErrors
  | intoResult => value (Eval.ofExcept a.intoResult)
  | hasErrors => return .flag a.hasErrors
  | errors => return .errors a.errors
  | withTag key text => return .value (a.withTag key text)
  | withTagOnce key text => value (Eval.ofExcept (a.withTagOnce key text))
  | tag key => return .ofText? (a.tag? key)
  | constrain source => value (Eval.ofExcept (a.constrain source))
  | fingerprint => return .ofText? (a.tag? Value.constraintTag)
  | cast target => value (a.cast target)
  | is expected => flag do return (← a.type) == expected
  | labelIs expected => flag do return (← a.typeLabel).is expected
  | type => text do return (← a.type).name
  | typeLabel => text do return (← a.typeLabel).text
  | kinds => do
    return .flags [(← a.type) == .void, (← a.type) == .null, (← a.type) == .error,
      ← a.isNumber, a.isLambda, ← a.isPending]
  | truth => do return .flags [← a.truthy, ← a.isTrue, ← a.isFalse, ← a.isNeitherTrueNorFalse]
  | eq => flag (Value.equals a b)
  | lt => flag (a.lt b)
  | ge => flag (a.ge b)
  | compare => do return .integer (Reply.orderSign (← a.compare b))
  | partialCompare => do
    match ← (a.compare b).attempt with
    | .ok order => return .text (Reply.orderName order)
    | .error _ => return .absent
  | isZero => flag (a.numberMatches Number.isZero)
  | isNegative => flag (a.numberMatches Number.isNegative)
  | isPositive => flag (a.numberMatches Number.isPositive)
  | truthy => flag a.truthy
  | isVoid => flag do return (← a.type) == .void
  | isPending => flag a.isPending
  | toInteger => do return .integer (← a.toInteger).toInt
  | toDecimal => do return .decimal (← a.toDecimal)
  | asInteger =>
    return .ofText? (match a.data with
      | .integer n => some (toString n.toInt)
      | _ => none)
  | asString =>
    return .ofText? (match a.data with
      | .string s => some s
      | _ => none)
  | human => text a.human
  | display => text a.human
  | script => text a.script
  | json => text a.toJson
  | debug => text a.debug
  | fromJson source => value (Value.ofJson source)
  | parseJson => value a.parseJson
  | copy => value a.copy
  | forced => value a.forced
  | notify => value a.notify
  | fix parallel => value (a.fix parallel)
  | fixDeep parallel => value (a.fixDeep parallel)
  | fixDepth depth parallel => value (a.fixDepth depth parallel)
  | hasRuntime => return .flag a.isLambda
  | predict => do return .prediction (← Eval.gets fun w => w.predict a)
  | read blocking mutating => value (a.read blocking mutating)
  | write _ mutating => value (a.write b mutating)
  | peek => value (a.read false false)
  | poll => value (a.read false true)
  | pop => value (a.read true true)
  | popTimeout millis => value (a.popTimeout millis)
  | push => value (a.write b true)
  | publish => value (a.write b false)
  | drain => value a.drain
  | all => value a.all
  | unsubscribe id => flag (a.unsubscribe id)
  | query question => Eval.ofExcept question.answer

/-- The reply of an operation to its arguments. -/
def perform (op : Operation) (apply : Value → Eval Value) (args : List Value) : Eval Reply :=
  op.performOn apply (args.getD 0 .void) (args.getD 1 .void) (args.getD 2 .void)

end Operation

end Reactor
