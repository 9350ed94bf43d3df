import Reactor.Engine.Resource

/-!
# Traits of computations

A `Trait` is a property of computations that those have which read the state, force a lambda, wait or
change something that no script depends on, and that every computation has which is put together from
such ones. The operations on values are all put together so, and the modules beside this one say it once
for all traits, function by function.

A trait does not speak of the learner: what is read of the state is the same with another learner, and a
change leaves it alone (`World.withLearner`).
-/

namespace Reactor

namespace World

/-- The state with another learner. -/
def withLearner (w : World) (learner : Learner) : World :=
  { w with learner }

/-- The records that hold scripts are the same. -/
structure SameScripts (w v : World) : Prop where
  lambdas : v.lambdas = w.lambdas
  queues : v.queues = w.queues
  forks : v.forks = w.forks
  definitions : v.desk.definitions = w.desk.definitions

/-- The records that hold scripts or variables are the same. -/
structure SameRecords (w v : World) : Prop extends w.SameScripts v where
  scopes : v.scopes = w.scopes
  vars : v.vars = w.vars

/-- A change of queues that brings no subscriber, or of what is no record. No thread begins. -/
inductive Shifts (w : World) : World → Prop
  | aside {v : World} (h : w.SameRecords v) (hthreads : v.threads = w.threads := by rfl) : Shifts w v
  | newQueue (items : List Value) : Shifts w { w with queues := w.queues.push { items } }
  | queue (id : QueueId) {f : QueueRecord → QueueRecord}
    (h : (f (w.queueAt id)).subscribers ⊆ (w.queueAt id).subscribers) :
    Shifts w (w.modifyQueue id f)

theorem Shifts.refl (w : World) : w.Shifts w :=
  .aside ⟨⟨rfl, rfl, rfl, rfl⟩, rfl, rfl⟩

end World

/-- A property that computations inherit from those that they are put together from. -/
structure Trait where
  /-- The computation has the property. -/
  Has {α : Type} (act : Eval α) : Prop
  has_pure {α : Type} (a : α) : Has (pure a : Eval α)
  has_fail {α : Type} (e : Error) : Has (Eval.fail e : Eval α)
  has_panic {α : Type} (message : Option String) : Has (Eval.panic message : Eval α)
  has_exhausted {α : Type} : Has (Eval.exhausted : Eval α)
  has_bind {α β : Type} {act : Eval α} {f : α → Eval β} (h : Has act) (hf : ∀ a, Has (f a)) :
    Has (act >>= f)
  has_attempt {α : Type} {act : Eval α} (h : Has act) : Has act.attempt
  has_holding {α : Type} {act : Eval α} (h : Has act) (places : List Place) :
    Has (Eval.holding places act)
  /-- A thread begins and does the work. -/
  has_onNewThread {α : Type} {act : Eval α} (h : Has act) (pooled : Bool) :
    Has (do
      let id ← Eval.modifyGet fun w => (w.threads, { w with threads := w.threads + 1 })
      Eval.onThread id pooled act)
  has_thread : Has Eval.thread
  has_budget : Has Eval.budget
  has_gets {α : Type} {f : World → α} (hf : ∀ w l, f (w.withLearner l) = f w) : Has (Eval.gets f)
  has_world {α : Type} {f : World → Eval α} (hf : ∀ w l, f (w.withLearner l) = f w)
    (h : ∀ w, Has (f w)) : Has (Eval.world >>= f)
  has_modifyGet {α : Type} {f : World → α × World}
    (hf : ∀ w l, f (w.withLearner l) = ((f w).1, (f w).2.withLearner l))
    (h : ∀ w : World, w.Shifts (f w).2) : Has (Eval.modifyGet f)
  has_wait (on : Wait) : Has (Eval.wait on)
  has_force (id : LambdaId) : Has (Eval.force id)
  has_publish (id : QueueId) (value : Value) : Has (Queue.publish id value)

namespace Trait

variable {T : Trait} {α β γ : Type}

theorem Has.bind {act : Eval α} {f : α → Eval β} (h : T.Has act) (hf : ∀ a, T.Has (f a)) :
    T.Has (act >>= f) :=
  T.has_bind h hf

theorem Has.attempt {act : Eval α} (h : T.Has act) : T.Has act.attempt :=
  T.has_attempt h

theorem Has.holding {act : Eval α} (h : T.Has act) (places : List Place) :
    T.Has (Eval.holding places act) :=
  T.has_holding h places

/-- A result is made of the value. -/
theorem Has.andReturn {act : Eval α} (h : T.Has act) (f : α → β) :
    T.Has (act >>= fun a => pure (f a)) :=
  h.bind fun _ => T.has_pure _

theorem Has.ite {c : Prop} [Decidable c] {act other : Eval α} (h : T.Has act) (h' : T.Has other) :
    T.Has (if c then act else other) := by
  split
  · exact h
  · exact h'

theorem has_ofExcept (result : Except Error α) : T.Has (Eval.ofExcept result) := by
  cases result with
  | ok a => exact T.has_pure a
  | error e => exact T.has_fail e

/-- A change that touches no record that holds scripts or variables. -/
theorem has_aside {f : World → α × World}
    (hf : ∀ w l, f (w.withLearner l) = ((f w).1, (f w).2.withLearner l))
    (h : ∀ w : World, w.SameRecords (f w).2)
    (hthreads : ∀ w : World, (f w).2.threads = w.threads := by intro; rfl) : T.Has (Eval.modifyGet f) :=
  T.has_modifyGet hf fun w => .aside (h w) (hthreads w)

/-- A change of queues or of what is no record, without a result. -/
theorem has_modify {g : World → World} (hg : ∀ w l, g (w.withLearner l) = (g w).withLearner l)
    (h : ∀ w : World, w.Shifts (g w)) : T.Has (Eval.modify g) :=
  show T.Has (Eval.modifyGet fun w => ((), g w)) from
    T.has_modifyGet (fun w l => congrArg (Prod.mk ()) (hg w l)) h

/-! ## Loops -/

theorem has_inTurn {work : α → γ → Eval α} (h : ∀ a item, T.Has (work a item))
    (named : α → List Place) (places : γ → List Place) (first : α) (items : List γ) :
    T.Has (Eval.inTurn named places work first items) := by
  induction items generalizing first with
  | nil => exact T.has_pure first
  | cons item items ih =>
    rw [Eval.inTurn_cons]
    exact ((h first item).holding _).bind ih

theorem has_mapM {f : α → Eval β} (h : ∀ a, T.Has (f a)) (items : List α) : T.Has (items.mapM f) := by
  induction items with
  | nil => rw [List.mapM_nil]; exact T.has_pure []
  | cons item items ih =>
    rw [List.mapM_cons]
    exact (h item).bind fun _ => ih.bind fun _ => T.has_pure _

theorem has_anyM {f : α → Eval Bool} (h : ∀ a, T.Has (f a)) (items : List α) :
    T.Has (items.anyM f) := by
  induction items with
  | nil => exact T.has_pure false
  | cons item items ih =>
    rw [List.anyM]
    refine (h item).bind fun found => ?_
    cases found with
    | true => exact T.has_pure true
    | false => exact ih

end Trait

end Reactor
