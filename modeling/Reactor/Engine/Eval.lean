import Reactor.Engine.World

/-!
# Computations

* `Outcome` : how a computation stands: it has a value, it failed, it broke off its thread, it waits
  for another thread, or it went beyond its budget.
* `Eval` : computations that read a `Context` and change the `World`.
* `Context` : the thread that computes, and the two ways in which a computation starts another one,
  each of which may nest only as deep as the budget allows.
* `Eval.holding` : what a computation holds while it runs, beside what the records of the state
  hold.
* `Eval.inTurn` : works through a list of which each element is let go after its turn.

A computation that waits keeps the rest of its work as a function of the state in which it goes on.
-/

namespace Reactor

/-- What a computation waits for. A wait may run out at a time, in milliseconds since the epoch. -/
inductive Wait where
  /-- An item in a queue. -/
  | queue (id : QueueId) (deadline : Option Nat)
  /-- The end of a fork. -/
  | fork (id : ForkId) (deadline : Option Nat)
  /-- That time passes. -/
  | time (deadline : Nat)
  deriving DecidableEq, Repr

/-- How a computation stands. -/
inductive Outcome (α : Type) where
  | value (a : α) (w : World)
  | error (e : Error) (w : World)
  /-- The thread broke off, with a message if it was a text. -/
  | panic (message : Option String) (w : World)
  /-- The rest of the work goes on when the wait is over. -/
  | waiting (on : Wait) (w : World) (resume : World → Outcome α)
  /-- The budget was too small. -/
  | exhausted

/-- A thread of execution. -/
structure Thread where
  id : ThreadId
  /-- The evaluations and notifications that it has open. -/
  depth : Nat := 0
  /-- It belongs to the pool that works through collections in parallel. -/
  pooled : Bool := false
  /-- What its open computations hold beside the records of the state. -/
  held : List Place := []
  deriving DecidableEq, Repr, Inhabited

/-- What a computation reads. -/
structure Context where
  thread : Thread
  /-- The depth to which values may still be traversed. -/
  budget : Nat
  /-- Evaluates an expression in a scope, with an optional current item. -/
  evaluate : Expr → ScopeId → Option Value → Thread → World → Outcome Value
  /-- Gives the result of a lambda, computing it if need be. -/
  force : LambdaId → Thread → World → Outcome Value

namespace Outcome

/-- Goes on with the value; everything else ends the work. -/
def bind {α β : Type} (outcome : Outcome α) (f : α → World → Outcome β) : Outcome β :=
  match outcome with
  | value a w => f a w
  | error e w => error e w
  | panic message w => panic message w
  | waiting on w resume => waiting on w fun w => (resume w).bind f
  | exhausted => exhausted

/-- Turns a failure into a value. -/
def attempt {α : Type} : Outcome α → Outcome (Except Error α)
  | value a w => value (.ok a) w
  | error e w => value (.error e) w
  | panic message w => panic message w
  | waiting on w resume => waiting on w fun w => (resume w).attempt
  | exhausted => exhausted

@[simp] theorem bind_value {α β : Type} (a : α) (w : World) (f : α → World → Outcome β) :
    (value a w).bind f = f a w := rfl

@[simp] theorem bind_error {α β : Type} (e : Error) (w : World) (f : α → World → Outcome β) :
    (error e w).bind f = error e w := rfl

@[simp] theorem attempt_value {α : Type} (a : α) (w : World) :
    (value a w).attempt = value (.ok a) w := rfl

@[simp] theorem attempt_error {α : Type} (e : Error) (w : World) :
    (error e w : Outcome α).attempt = value (.error e) w := rfl

@[simp] theorem bind_panic {α β : Type} (message : Option String) (w : World)
    (f : α → World → Outcome β) : (panic message w).bind f = panic message w := rfl

@[simp] theorem bind_exhausted {α β : Type} (f : α → World → Outcome β) :
    exhausted.bind f = exhausted := rfl

@[simp] theorem attempt_panic {α : Type} (message : Option String) (w : World) :
    (panic message w : Outcome α).attempt = panic message w := rfl

theorem bind_pure {α : Type} (outcome : Outcome α) : outcome.bind value = outcome := by
  induction outcome with
  | waiting on w resume ih => simp only [bind, ih]
  | _ => rfl

theorem bind_assoc {α β γ : Type} (outcome : Outcome α) (f : α → World → Outcome β)
    (g : β → World → Outcome γ) :
    (outcome.bind f).bind g = outcome.bind fun a w => (f a w).bind g := by
  induction outcome with
  | waiting on w resume ih => simp only [bind, ih]
  | _ => rfl

end Outcome

/-- Computations that read a context and change the state. -/
def Eval (α : Type) : Type :=
  Context → World → Outcome α

namespace Eval

/-- Goes on with the value. One that is at hand is passed on at once. -/
@[inline] def andThen {α β : Type} (act : Eval α) (f : α → Eval β) : Eval β := fun ctx w =>
  match act ctx w with
  | .value a w => f a ctx w
  | outcome => outcome.bind fun a w => f a ctx w

/-- Whether the value is at hand or not, the work goes on with it in the same way. -/
theorem andThen_apply {α β : Type} (act : Eval α) (f : α → Eval β) (ctx : Context) (w : World) :
    act.andThen f ctx w = (act ctx w).bind fun a w => f a ctx w := by
  unfold andThen
  cases act ctx w <;> rfl

instance : Monad Eval where
  pure a := fun _ w => .value a w
  bind act f := act.andThen f

instance : LawfulMonad Eval :=
  LawfulMonad.mk' Eval
    (fun _ => by funext ctx w; exact (andThen_apply _ _ _ _).trans (Outcome.bind_pure _))
    (fun _ _ => rfl)
    (fun _ _ _ => by
      funext ctx w
      simp only [bind, andThen_apply]
      exact Outcome.bind_assoc _ _ _)

instance {α : Type} : Inhabited (Eval α) := ⟨fun _ _ => .exhausted⟩

/-- Fails. -/
def fail {α : Type} (e : Error) : Eval α :=
  fun _ w => .error e w

/-- The result of a computation, or its failure as a value. -/
def attempt {α : Type} (act : Eval α) : Eval (Except Error α) :=
  fun ctx w => (act ctx w).attempt

/-- Goes on with a result, or fails with it. -/
def ofExcept {α : Type} : Except Error α → Eval α
  | .ok a => pure a
  | .error e => fail e

/-- Breaks off the thread. -/
def panic {α : Type} (message : Option String) : Eval α :=
  fun _ w => .panic message w

/-- Gives up: the budget is spent. -/
def exhausted {α : Type} : Eval α :=
  fun _ _ => .exhausted

/-- The state. -/
def world : Eval World :=
  fun _ w => .value w w

/-- A part of the state. -/
def gets {α : Type} (f : World → α) : Eval α :=
  fun _ w => .value (f w) w

/-- Changes the state. -/
def modify (f : World → World) : Eval Unit :=
  fun _ w => .value () (f w)

/-- Changes the state and gives a result. -/
def modifyGet {α : Type} (f : World → α × World) : Eval α :=
  fun _ w => let (a, w) := f w; .value a w

/-- The thread that computes. -/
def thread : Eval Thread :=
  fun ctx w => .value ctx.thread w

/-- The depth to which values may still be traversed. -/
def budget : Eval Nat :=
  fun ctx w => .value ctx.budget w

/-- Runs on another thread, while this one holds what it held. -/
def onThread {α : Type} (id : ThreadId) (pooled : Bool) (act : Eval α) : Eval α :=
  fun ctx w => act { ctx with thread := { id, pooled, held := ctx.thread.held } } w

/-- Runs while the thread holds some more places. -/
def holding {α : Type} (places : List Place) (act : Eval α) : Eval α := fun ctx w =>
  act { ctx with thread := { ctx.thread with held := places ++ ctx.thread.held } } w

/-- Works through the elements of a list from a first result on. In its turn an element is held, and
so are those whose turn is to come and what the result so far names. -/
def inTurn {α β : Type} (named : α → List Place) (places : β → List Place)
    (work : α → β → Eval α) (first : α) (items : List β) : Eval α :=
  go first (items.flatMap places) items
where
  /-- The elements that are left, and the places that they name. -/
  go (result : α) (left : List Place) : List β → Eval α
    | [] => pure result
    | item :: items => do
      let rest := left.drop (places item).length
      let result ← holding (named result ++ left) (work result item)
      go result rest items

/-- Evaluates an expression in a scope, with an optional current item. -/
def evaluate (e : Expr) (scope : ScopeId) (item : Option Value) : Eval Value :=
  fun ctx w => ctx.evaluate e scope item ctx.thread w

/-- The result of a lambda. -/
def force (id : LambdaId) : Eval Value :=
  fun ctx w => ctx.force id ctx.thread w

/-- Lets other threads run until a wait is over. -/
def wait (on : Wait) : Eval Unit := fun ctx w =>
  .waiting on (w.park ctx.thread.id ctx.thread.held) fun w => .value () (w.unpark ctx.thread.id)

/-- One level deeper on this thread, unless that is beyond the greatest depth. -/
def nested {α : Type} (act : Eval α) : Eval α := fun ctx w =>
  if w.config.maxDepth ≤ ctx.thread.depth then
    .error (.excessiveRecursion (ctx.thread.depth + 1) w.config.maxDepth) w
  else act { ctx with thread := { ctx.thread with depth := ctx.thread.depth + 1 } } w

/-! ## What each computation does -/

@[simp] theorem pure_apply {α : Type} (a : α) (ctx : Context) (w : World) :
    (pure a : Eval α) ctx w = .value a w := rfl

@[simp] theorem bind_apply {α β : Type} (act : Eval α) (f : α → Eval β) (ctx : Context)
    (w : World) : (act >>= f) ctx w = (act ctx w).bind fun a w => f a ctx w :=
  andThen_apply act f ctx w

@[simp] theorem fail_apply {α : Type} (e : Error) (ctx : Context) (w : World) :
    (fail e : Eval α) ctx w = .error e w := rfl

@[simp] theorem attempt_apply {α : Type} (act : Eval α) (ctx : Context) (w : World) :
    act.attempt ctx w = (act ctx w).attempt := rfl

@[simp] theorem ofExcept_ok {α : Type} (a : α) : ofExcept (.ok a) = pure a := rfl

@[simp] theorem ofExcept_error {α : Type} (e : Error) :
    (ofExcept (.error e) : Eval α) = fail e := rfl

@[simp] theorem panic_apply {α : Type} (message : Option String) (ctx : Context) (w : World) :
    (panic message : Eval α) ctx w = .panic message w := rfl

@[simp] theorem exhausted_apply {α : Type} (ctx : Context) (w : World) :
    (exhausted : Eval α) ctx w = .exhausted := rfl

@[simp] theorem world_apply (ctx : Context) (w : World) : world ctx w = .value w w := rfl

@[simp] theorem gets_apply {α : Type} (f : World → α) (ctx : Context) (w : World) :
    gets f ctx w = .value (f w) w := rfl

@[simp] theorem modify_apply (f : World → World) (ctx : Context) (w : World) :
    modify f ctx w = .value () (f w) := rfl

@[simp] theorem modifyGet_apply {α : Type} (f : World → α × World) (ctx : Context) (w : World) :
    modifyGet f ctx w = .value (f w).1 (f w).2 := rfl

@[simp] theorem thread_apply (ctx : Context) (w : World) :
    thread ctx w = .value ctx.thread w := rfl

@[simp] theorem budget_apply (ctx : Context) (w : World) :
    budget ctx w = .value ctx.budget w := rfl

@[simp] theorem onThread_apply {α : Type} (id : ThreadId) (pooled : Bool) (act : Eval α)
    (ctx : Context) (w : World) :
    onThread id pooled act ctx w =
      act { ctx with thread := { id, pooled, held := ctx.thread.held } } w := rfl

@[simp] theorem holding_apply {α : Type} (places : List Place) (act : Eval α) (ctx : Context)
    (w : World) :
    holding places act ctx w =
      act { ctx with thread := { ctx.thread with held := places ++ ctx.thread.held } } w := rfl

/-- To hold nothing more changes nothing. -/
@[simp] theorem holding_nil {α : Type} (act : Eval α) : holding [] act = act := rfl

@[simp] theorem inTurn_nil {α β : Type} (named : α → List Place) (places : β → List Place)
    (work : α → β → Eval α) (first : α) : inTurn named places work first [] = pure first := rfl

/-- After its turn an element is held no more. -/
theorem inTurn_cons {α β : Type} (named : α → List Place) (places : β → List Place)
    (work : α → β → Eval α) (first : α) (item : β) (items : List β) :
    inTurn named places work first (item :: items) = (do
      let result ← holding (named first ++ (places item ++ items.flatMap places)) (work first item)
      inTurn named places work result items) := by
  simp only [inTurn, inTurn.go, List.flatMap_cons, List.drop_left]

@[simp] theorem evaluate_apply (e : Expr) (scope : ScopeId) (item : Option Value) (ctx : Context)
    (w : World) : evaluate e scope item ctx w = ctx.evaluate e scope item ctx.thread w := rfl

@[simp] theorem force_apply (id : LambdaId) (ctx : Context) (w : World) :
    force id ctx w = ctx.force id ctx.thread w := rfl

@[simp] theorem wait_apply (on : Wait) (ctx : Context) (w : World) :
    wait on ctx w =
      .waiting on (w.park ctx.thread.id ctx.thread.held) fun w =>
        .value () (w.unpark ctx.thread.id) := rfl

/-- Beyond the greatest depth nothing is computed. -/
theorem nested_of_le {α : Type} (act : Eval α) {ctx : Context} {w : World}
    (h : w.config.maxDepth ≤ ctx.thread.depth) :
    nested act ctx w =
      .error (.excessiveRecursion (ctx.thread.depth + 1) w.config.maxDepth) w := by
  simp [nested, h]

/-- Within the greatest depth the computation runs one level deeper. -/
theorem nested_of_lt {α : Type} (act : Eval α) {ctx : Context} {w : World}
    (h : ctx.thread.depth < w.config.maxDepth) :
    nested act ctx w =
      act { ctx with thread := { ctx.thread with depth := ctx.thread.depth + 1 } } w := by
  simp [nested, Nat.not_le.2 h]

end Eval

end Reactor
