import Reactor.Script.Evaluate

/-!
# The machine

Evaluating an expression may force lambdas, and forcing a lambda evaluates expressions. Each such
step spends one unit of a budget.

* `Context.ofBudget` : a context in which computations may nest as deep as a budget says.
* `Context.ofThread` : a context with the budget that sessions use.
-/

namespace Reactor.Context

/-- A thread whose computations may nest as deep as a budget says. -/
def ofBudget : Nat → Thread → Context
  | 0, thread =>
    { thread
      budget := 0
      evaluate := fun _ _ _ _ _ => .exhausted
      force := fun _ _ _ => .exhausted }
  | budget + 1, thread =>
    { thread
      budget := budget + 1
      evaluate := fun e scope item thread w => e.eval scope item (ofBudget budget thread) w
      force := fun lambda thread w => lambda.force (ofBudget budget thread) w }

/-- The budget of sessions. -/
def sessionBudget : Nat := 1000000

/-- A thread of a session. -/
def ofThread (thread : Thread) : Context :=
  ofBudget sessionBudget thread

end Reactor.Context
