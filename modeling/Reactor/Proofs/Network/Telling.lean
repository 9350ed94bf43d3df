import Reactor.Proofs.Network.Moves

/-!
# Who is told of a write

In a calm network (`Permitted`) a write calls each callback of each lambda that depends on the variable
exactly once, with the new value of the lambda, in the order of a breadth-first search.

* `World.Told` : the calls that are made on the way from one state to another.
* `runAllCallbacks_told` : what is called when some lambdas have their callbacks run.
-/

namespace Reactor

/-- A callback of a lambda, called with a value. -/
structure Notice where
  lambda : LambdaId
  callback : Callback
  value : Value

/-- Calls the callback. The handlers of the scope of the lambda take a failure. -/
def Notice.deliver (notice : Notice) (record : LambdaRecord) : Eval Unit := do
  match ← (Eval.evaluate notice.callback.body notice.callback.scope (some notice.value)).attempt with
  | .ok _ => pure ()
  | .error e => let _ ← record.scope.handleError (e.addSource record.source)

/-- From one state to another nothing happens but that lambdas are forced and that the notices are
delivered in order. -/
inductive World.Told (budget : Nat) : List Notice → World → World → Prop
  | nil (w : World) : Told budget [] w w
  | forced {notices : List Notice} {k : LambdaId} {thread : Thread} {x : Value} {w u v : World}
    (run : Eval.force k (.ofBudget budget thread) w = .value x u) (rest : Told budget notices u v) :
    Told budget notices w v
  | delivered {notice : Notice} {notices : List Notice} {record : LambdaRecord} {thread : Thread}
    {w u v : World} (run : notice.deliver record (.ofBudget budget thread) w = .value () u)
    (rest : Told budget notices u v) : Told budget (notice :: notices) w v

theorem World.Told.trans {budget : Nat} {notices more : List Notice} {w u v : World}
    (h : Told budget notices w u) (h' : Told budget more u v) : Told budget (notices ++ more) w v := by
  induction h with
  | nil w => exact h'
  | forced run _ ih => exact .forced run (ih h')
  | delivered run _ ih => exact .delivered run (ih h')

namespace World

variable {scope : ScopeId} {plan : Plan} {need : Nat} {calm : Prop} {w : World} {k : LambdaId}
  {name : String}

/-! ## Errors become values -/

end World

/-! ## Callbacks -/

section Callbacks

variable {scope : ScopeId} {plan : Plan} {need : Nat} {calm : Prop} {u w : World} {k : LambdaId}
  {budget : Nat} {thread : Thread} (hu : u.Wired scope plan need calm) (hcalm : calm)
  (hdepth : thread.depth + (u.config.maxDepth - 1) ≤ u.config.maxDepth)
  (hbudget : 2 * (u.config.maxDepth - 1) + need + 2 ≤ budget)

include hu hcalm hdepth hbudget

end Callbacks

/-! ## Passes -/

namespace World

/-- A pass has delivered notices to all callbacks of all lambdas that depend on some others, and to nobody
else. The lambdas come in the order of a breadth-first search, and each lambda has its callbacks notified
in the order of their registration. Before the first notice all of them forget their results, and the
variables are those of the end. -/
structure Announced (w : World) (budget : Nat) (id : ThreadId) (roots reached : List LambdaId)
    (notices : List Notice) (v : World) : Prop where
  nodup : reached.Nodup
  mem (k : LambdaId) : k ∈ reached ↔ w.Reached roots k
  order : reached = firsts [] (roots ++ reached.flatMap w.dependents)
  callbacks : notices.map (fun notice => (notice.lambda, notice.callback)) =
    reached.flatMap fun k => (w.callbacks k).map fun c => (k, c)
  told : ∃ (before after : World) (other : Thread),
    (∀ k ∈ reached, ∀ x, (before.lambdaAt k).cache ≠ .holding x) ∧
    before.scopes = v.scopes ∧ before.vars = v.vars ∧
    LambdaId.runAllCallbacks reached (.ofBudget budget other) before = .value () after ∧
    Told budget notices before after ∧
    v = reached.foldl (fun w k => w.leaveNotify id k) after

section Passes

variable {scope : ScopeId} {plan : Plan} {need : Nat} {calm : Prop} {w : World}
  {roots : List LambdaId} {budget : Nat} {thread : Thread}

end Passes

/-! ## Writes -/

section Writes

variable {scope owner : ScopeId} {plan : Plan} {need : Nat} {calm : Prop} {start u v w : World}
  {name : String} {value : Value} {budget : Nat} {thread : Thread}

/-- Whom a pass tells depends on the registrations only. -/
theorem Announced.congr {id : ThreadId} {roots reached : List LambdaId} {notices : List Notice}
    (h : u.Announced budget id roots reached notices v) (hu : u.lambdas = w.lambdas) :
    w.Announced budget id roots reached notices v := by
  have dependents : u.dependents = w.dependents := by
    funext k
    rw [World.dependents, World.dependents, lambdaAt, lambdaAt, hu]
  have callbacks : u.callbacks = w.callbacks := by
    funext k
    rw [World.callbacks, World.callbacks, lambdaAt, lambdaAt, hu]
  have reached_iff (k : LambdaId) : u.Reached roots k ↔ w.Reached roots k := by
    constructor
    · intro hk
      induction hk with
      | root hk => exact .root hk
      | dependent _ hid ih => exact .dependent ih (dependents ▸ hid)
    · intro hk
      induction hk with
      | root hk => exact .root hk
      | dependent _ hid ih => exact .dependent ih (dependents ▸ hid)
  refine ⟨h.nodup, fun k => (h.mem k).trans (reached_iff k), ?_, ?_, h.told⟩
  · rw [← dependents]
    exact h.order
  · rw [← callbacks]
    exact h.callbacks

end Writes

end World

end Reactor
