import Reactor.Engine.Handler

/-!
# Forcing lambdas

The first force of a lambda computes its result and keeps it until the next invalidation.

* `World.inputShape` : what is known of a value without computing it.
* `LambdaId.evaluate` : computes; the learner sees the type of a result, the handlers an error.
* `LambdaId.force` : the kept result, or else a computed one.
-/

namespace Reactor

namespace World

/-- What is known of a value; the first argument bounds how far inputs of inputs are followed. -/
def inputShape (w : World) : Nat → Value → InputShape
  | nesting, v =>
    match v.lambda? with
    | none => .known v.tag
    | some id =>
      let record := w.lambdaAt id
      match record.cache, nesting with
      | .holding value, _ => .known value.tag
      | _, 0 => .unknown
      | _, nesting + 1 =>
        .pending record.operation
          ((record.inputs.take Learner.maxInputs).map fun input => w.inputShape nesting input)

/-- What is known of the inputs of a call. -/
def inputShapes (w : World) (inputs : List Value) : List InputShape :=
  (inputs.take Learner.maxInputs).map (w.inputShape Learner.maxNesting)

/-- The learner sees the type of a result. -/
def learn (w : World) (operation : String) (inputs : List Value) (output : ValueType) : World :=
  { w with learner := w.learner.learn w.now operation (w.inputShapes inputs) output }

/-- The expected type of a value. -/
def predict (w : World) (v : Value) : Tally :=
  match v.lambda? with
  | none => .certain v.tag
  | some id =>
    let record := w.lambdaAt id
    match record.cache with
    | .holding value => .certain value.tag
    | _ => w.learner.predict record.operation (w.inputShapes record.inputs)

end World

namespace LambdaId

/-- Computes in the scope of the lambda. A result that is itself deferred is followed. -/
def run (lambda : LambdaId) (scope : ScopeId) : Eval Value :=
  Eval.nested do
    let value ← lambda.compute scope
    match value.lambda? with
    | some inner => Eval.modify fun w => w.follow lambda inner
    | none => pure ()
    Eval.holding value.places value.forced

/-- Computes the value. The handlers of the scope take a failure. -/
def evaluate (lambda : LambdaId) : Eval Value := do
  let record ← lambda.record
  match ← (lambda.run record.scope).attempt with
  | .ok value =>
    let value ← value.share
    Eval.modify fun w => w.learn record.operation record.inputs value.tag
    return value
  | .error e => record.scope.handleError (e.addSource record.source)

/-- What a lambda keeps when a thread has computed it: the result, unless it has been invalidated
since a given generation. -/
def settle (thread : ThreadId) (generation : Nat) (outcome : Except Error Value)
    (record : LambdaRecord) : LambdaRecord :=
  match record.cache, outcome with
  | .computing owner, .ok value =>
    if owner ≠ thread then record
    else { record with cache := if record.generation = generation then .holding value else .empty }
  | .computing owner, .error _ =>
    if owner ≠ thread then record else { record with cache := .empty }
  | _, _ => record

/-- A result is kept if the lambda has not been invalidated since. -/
theorem settle_ok {thread : ThreadId} {record : LambdaRecord} {value : Value}
    (h : record.cache = .computing thread) :
    (settle thread record.generation (.ok value) record).cache = .holding value := by
  simp [settle, h]

/-- A failure is not kept. -/
theorem settle_error {thread : ThreadId} {record : LambdaRecord} {generation : Nat} {e : Error}
    (h : record.cache = .computing thread) :
    (settle thread generation (.error e) record).cache = .empty := by
  simp [settle, h]

/-- What is noted of notifications stays. -/
theorem notifying_settle (thread : ThreadId) (generation : Nat) (outcome : Except Error Value)
    (record : LambdaRecord) :
    (settle thread generation outcome record).notifying = record.notifying := by
  unfold settle
  split
  · split <;> rfl
  · split <;> rfl
  · rfl

/-- Once it is settled what became of a computation, the thread is not computing the lambda. -/
theorem computing_of_settle {thread owner : ThreadId} {generation : Nat} {outcome : Except Error Value}
    {record : LambdaRecord} (h : (settle thread generation outcome record).cache = .computing owner) :
    record.cache = .computing owner ∧ owner ≠ thread := by
  cases hc : record.cache with
  | empty => simp [settle, hc] at h
  | holding value => simp [settle, hc] at h
  | computing other =>
    by_cases hother : other = thread
    · cases outcome with
      | ok value =>
        simp only [settle, hc, hother, ne_eq, not_true_eq_false, if_false] at h
        split at h <;> cases h
      | error e => simp [settle, hc, hother] at h
    · have same : settle thread generation outcome record = record := by
        cases outcome <;> simp [settle, hc, hother]
      rw [same, hc] at h
      cases h
      exact ⟨rfl, hother⟩

/-- The result of a lambda: the one that it keeps, or a new one, which it then keeps. A lambda
that the thread is computing already cannot be forced; one that another thread is computing is
computed without being kept. -/
def force (lambda : LambdaId) : Eval Value := do
  let record ← lambda.record
  if !record.fixable then lambda.evaluate
  else
    let thread ← Eval.thread
    match record.cache with
    | .holding value => return value
    | .computing owner =>
      if owner ≠ thread.id then lambda.evaluate
      else
        let limit ← Eval.gets fun w => w.config.maxDepth
        Eval.fail ((Error.excessiveRecursion thread.depth limit).addSource record.source)
    | .empty =>
      Eval.modify fun w => w.modifyLambda lambda fun record =>
        { record with cache := .computing thread.id }
      let outcome ← lambda.evaluate.attempt
      Eval.modify fun w => w.modifyLambda lambda
        (settle thread.id record.generation outcome)
      Eval.ofExcept outcome

end LambdaId

end Reactor
