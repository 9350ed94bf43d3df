import Reactor.Engine.Machine
import Reactor.Proofs.Failures.Forces
import Reactor.Proofs.Network.Plan
import Reactor.Proofs.Traits.Operations

/-!
# Histories

What a computation of a thread does to lambdas is told as a list of events, in order (`World.History`). A force
of a lambda is told by what it finds: a result that it gives (`Happening.answered`), the computation of the same
thread that it must not repeat (`Happening.refused`), or nothing, so that it begins to compute
(`Happening.began`). What happens until the computation has ended stands between that event and
`Happening.ended`. A pass is told when it has invalidated what it reaches, before callbacks run. An event comes
with the states before and after it, so that a history shows every state in which a lambda is changed or asked.

A history goes from the state in which a computation begins to the one in which it returns. If the computation
breaks off, forces and passes are left open (`World.Midway`). Every computation has a history, if others
change the state only as `between` says while it waits (`Eval.Recorded`). To have histories is a trait
(`Eval.recorded`).

Where a computation breaks off tells what it does on its way: a machine that stops at some forces shows the states
in which a computation comes to them (`LambdaId.forceUnless`).
-/

namespace Reactor

/-- The state in which a computation has returned. -/
def Outcome.returned? {α : Type} : Outcome α → Option World
  | .value _ w => some w
  | .error _ w => some w
  | _ => none

/-- A lambda that has just been made. -/
structure LambdaRecord.Blank (record : LambdaRecord) : Prop where
  cache : record.cache = .empty
  generation : record.generation = 0
  notifying : record.notifying = []
  listeners : record.listeners = []
  followed : record.followed = none

/-- What may happen to lambdas. -/
inductive Happening where
  | made (k : LambdaId)
  /-- A number has been taken for a handle. -/
  | numbered (k : LambdaId)
  /-- A callback has been registered, unless the key was in use. -/
  | listened (k : LambdaId) (key : ListenerKey)
  | unlistened (k : LambdaId) (key : ListenerKey)
  /-- A force has given the result that is kept. -/
  | answered (k : LambdaId) (value : Value)
  /-- A force has failed, since the thread is computing the lambda already. -/
  | refused (k : LambdaId)
  /-- A force has begun to compute the lambda. -/
  | began (k : LambdaId)
  /-- The computation of a lambda has given a deferred value. -/
  | followed (k inner : LambdaId)
  /-- The force has returned that began to compute the lambda. -/
  | ended (k : LambdaId) (outcome : Except Error Value)
  /-- A pass has invalidated what it reaches, while the thread held some places. -/
  | notified (held : List Place) (ks : List LambdaId)

/-- An event of a history: what has happened, and the states before and after it. -/
structure Occurrence where
  happening : Happening
  before : World
  after : World

/-- With a callback, unless the key is in use. -/
def LambdaRecord.listened (record : LambdaRecord) (key : ListenerKey) (callback : Callback) : LambdaRecord :=
  if Entries.contains record.listeners key then record
  else { record with listeners := Entries.insert record.listeners key (.callback callback) }

namespace World

/-- The state with a new lambda, which is registered with all lambdas among its inputs. -/
def withLambda (w : World) (record : LambdaRecord) : World :=
  record.inputs.foldl
    (fun v input =>
      match input.lambda? with
      | some source => (v.addDependent source ⟨w.lambdas.size⟩).1
      | none => v)
    { w with lambdas := w.lambdas.push record }

/-- Nothing has happened to lambdas, and no thread has begun. -/
structure Still (w v : World) : Prop where
  lambdas : v.lambdas = w.lambdas
  threads : v.threads = w.threads

/-- A thread has begun. -/
def withThread (w : World) : World :=
  { w with threads := w.threads + 1 }

/-- A pass has reached some lambdas and invalidated them. -/
def swept (w : World) (thread : ThreadId) (held : List Place) (roots : List LambdaId) : World :=
  (w.enter (w.liveness held) thread roots).1.foldl invalidate (w.enter (w.liveness held) thread roots).2

/-- A pass that reached some lambdas in one state is over in another one. -/
def passed (w : World) (thread : ThreadId) (held : List Place) (roots : List LambdaId) (v : World) : World :=
  (w.enter (w.liveness held) thread roots).1.foldl (fun v k => v.leaveNotify thread k) v

end World

/-- What a thread does at once. -/
inductive Happening.Takes (thread : ThreadId) : Happening → World → World → Prop
  | made {w : World} {record : LambdaRecord} (h : record.Blank) :
    Takes thread (.made ⟨w.lambdas.size⟩) w (w.withLambda record)
  | numbered {w : World} (k : LambdaId) : Takes thread (.numbered k) w (w.modifyLambda k fun record =>
      { record with nextListener := record.nextListener + 1 })
  | listened {w : World} (k : LambdaId) (key : ListenerKey) (callback : Callback) :
    Takes thread (.listened k key) w (w.modifyLambda k fun record => record.listened key callback)
  | unlistened {w : World} (k : LambdaId) (key : ListenerKey) :
    Takes thread (.unlistened k key) w (w.removeListener k key)
  | answered {w : World} {k : LambdaId} {value : Value} (hfix : (w.lambdaAt k).fixable = true)
    (h : (w.lambdaAt k).cache = .holding value) : Takes thread (.answered k value) w w
  | refused {w : World} {k : LambdaId} (hfix : (w.lambdaAt k).fixable = true)
    (h : (w.lambdaAt k).cache = .computing thread) : Takes thread (.refused k) w w

section Histories

variable (serve : LambdaId → Eval Value) (between : World → World → Prop)

/-- What leads from the beginning of a computation of a thread to its return, if others change the state by
`between`. A force that computes its lambda comes with the evaluation that it has run, and a lambda that
follows another one with the computation that has given the other one. -/
inductive World.History : ThreadId → List Occurrence → World → World → Prop
  | aside {thread : ThreadId} {w v : World} (h : w.Still v) : History thread [] w v
  | others {thread : ThreadId} {w v : World} (h : between w v) : History thread [] w v
  | trans {thread : ThreadId} {es es' : List Occurrence} {u v w : World} (h : History thread es u v)
    (h' : History thread es' v w) : History thread (es ++ es') u w
  /-- Another thread begins and does the work. -/
  | begun {thread : ThreadId} {es : List Occurrence} {w v : World} (h : History w.threads es w.withThread v) :
    History thread es w v
  | took {thread : ThreadId} {happening : Happening} {w v : World} (h : happening.Takes thread w v) :
    History thread [⟨happening, w, v⟩] w v
  | read {budget : Nat} {thread : Thread} {scope : ScopeId} {k inner : LambdaId} {value : Value}
    {es : List Occurrence} {w v : World} (h : History thread.id es w v)
    (run : (k.compute scope (.machine serve budget thread) w).Reaches between (.value value v))
    (hvalue : value.lambda? = some inner) :
    History thread.id (es ++ [⟨.followed k inner, v, v.follow k inner⟩]) w (v.follow k inner)
  | computed {budget : Nat} {thread : Thread} {k : LambdaId} {outcome : Except Error Value}
    {es : List Occurrence} {w v : World} (hlt : k.index < w.lambdas.size) (hkeeps : (w.lambdaAt k).keeps = true)
    (h : History thread.id es (w.opened thread.id k) v)
    (run : (k.evaluate (.machine serve budget thread) (w.opened thread.id k)).attempt.Reaches between
      (.value outcome v)) :
    History thread.id
      (⟨.began k, w, w.opened thread.id k⟩ ::
        (es ++ [⟨.ended k outcome, v, w.closed thread.id k outcome v⟩]))
      w (w.closed thread.id k outcome v)
  /-- A force of a lambda without a record, of which nothing is noted. -/
  | unknown {budget : Nat} {thread : Thread} {k : LambdaId} {outcome : Except Error Value}
    {es : List Occurrence} {w v : World} (hge : w.lambdas.size ≤ k.index)
    (h : History thread.id es (w.opened thread.id k) v)
    (run : (k.evaluate (.machine serve budget thread) (w.opened thread.id k)).attempt.Reaches between
      (.value outcome v)) :
    History thread.id es w (w.closed thread.id k outcome v)
  | passed {thread : ThreadId} {held : List Place} {roots : List LambdaId} {es : List Occurrence} {w v : World}
    (h : History thread es (w.swept thread held roots) v) :
    History thread
      (⟨.notified held (w.enter (w.liveness held) thread roots).1, w, w.swept thread held roots⟩ :: es)
      w (w.passed thread held roots v)

/-- What leads from the beginning of a computation of a thread to a state in the middle of it. -/
inductive World.Midway : ThreadId → List Occurrence → World → World → Prop
  | returned {thread : ThreadId} {es : List Occurrence} {w v : World}
    (h : World.History serve between thread es w v) : Midway thread es w v
  | trans {thread : ThreadId} {es es' : List Occurrence} {u v w : World}
    (h : World.History serve between thread es u v) (h' : Midway thread es' v w) :
    Midway thread (es ++ es') u w
  | begun {thread : ThreadId} {es : List Occurrence} {w v : World} (h : Midway w.threads es w.withThread v) :
    Midway thread es w v
  | computing {thread : ThreadId} {k : LambdaId} {es : List Occurrence} {w v : World}
    (hlt : k.index < w.lambdas.size) (hkeeps : (w.lambdaAt k).keeps = true)
    (h : Midway thread es (w.opened thread k) v) :
    Midway thread (⟨.began k, w, w.opened thread k⟩ :: es) w v
  | unknown {thread : ThreadId} {k : LambdaId} {es : List Occurrence} {w v : World}
    (hge : w.lambdas.size ≤ k.index) (h : Midway thread es (w.opened thread k) v) : Midway thread es w v
  | passing {thread : ThreadId} {held : List Place} {roots : List LambdaId} {es : List Occurrence} {w v : World}
    (h : Midway thread es (w.swept thread held roots) v) :
    Midway thread
      (⟨.notified held (w.enter (w.liveness held) thread roots).1, w, w.swept thread held roots⟩ :: es) w v

/-- A computation of a thread that ends so has a history that begins in a certain state. -/
def Outcome.Told {α : Type} (thread : ThreadId) (w : World) : Outcome α → Prop
  | .value _ u => ∃ es, World.History serve between thread es w u
  | .error _ u => ∃ es, World.History serve between thread es w u
  | .panic _ u => ∃ es, World.Midway serve between thread es w u
  | .waiting _ _ _ => True
  | .exhausted => True

/-- Every end of the computation has a history. -/
def Outcome.Recorded {α : Type} (thread : ThreadId) (w : World) (x : Outcome α) : Prop :=
  ∀ y, x.Reaches between y → y.Told serve between thread w

/-- What a context of the machine starts has histories. -/
structure Context.Records (ctx : Context) : Prop where
  ofMachine : ∃ budget, ctx = .machine serve budget ctx.thread
  evaluate (e : Expr) (scope : ScopeId) (item : Option Value) (thread : Thread) (w : World) :
    (ctx.evaluate e scope item thread w).Recorded serve between thread.id w
  force (k : LambdaId) (thread : Thread) (w : World) :
    (ctx.force k thread w).Recorded serve between thread.id w

/-- The computation has histories from every state. -/
def Eval.Recorded {α : Type} (act : Eval α) : Prop :=
  ∀ ctx : Context, ctx.Records serve between →
    ∀ w, (act ctx w).Recorded serve between ctx.thread.id w

end Histories

variable {serve : LambdaId → Eval Value} {between : World → World → Prop} {α β γ : Type}
  {thread : ThreadId} {u v w : World}

theorem World.Shifts.still (h : w.Shifts v) : w.Still v := by
  cases h with
  | aside h hthreads => exact ⟨h.lambdas, hthreads⟩
  | newQueue items => exact ⟨rfl, rfl⟩
  | queue id h => exact ⟨rfl, rfl⟩

theorem World.History.refl (w : World) : History serve between thread [] w w :=
  .aside ⟨rfl, rfl⟩

theorem Context.Records.withThread {ctx : Context} (h : ctx.Records serve between) (thread : Thread) :
    { ctx with thread }.Records serve between := by
  obtain ⟨budget, hbudget⟩ := h.ofMachine
  refine ⟨⟨budget, ?_⟩, h.evaluate, h.force⟩
  rw [hbudget]
  exact machine_withThread budget _ thread

/-! ## Outcomes -/

namespace Outcome

variable {x : Outcome α}

theorem Told.of_returned {y : Outcome α} (h : y.Told serve between thread w) (hu : y.returned? = some u) :
    ∃ es, World.History serve between thread es w u := by
  cases y with
  | value a v =>
    cases hu
    exact h
  | error e v =>
    cases hu
    exact h
  | _ => cases hu

theorem recorded_value {a : α} {es : List Occurrence} (h : World.History serve between thread es w v) :
    (value a v).Recorded serve between thread w := by
  intro y hy
  obtain rfl := reaches_value_iff.1 hy
  exact ⟨es, h⟩

theorem recorded_error {e : Error} {es : List Occurrence} (h : World.History serve between thread es w v) :
    (error e v : Outcome α).Recorded serve between thread w := by
  intro y hy
  obtain rfl := reaches_error_iff.1 hy
  exact ⟨es, h⟩

theorem recorded_panic {message : Option String} {es : List Occurrence}
    (h : World.Midway serve between thread es w v) :
    (panic message v : Outcome α).Recorded serve between thread w := by
  intro y hy
  obtain rfl := reaches_panic_iff.1 hy
  exact ⟨es, h⟩

theorem recorded_exhausted : (exhausted : Outcome α).Recorded serve between thread w := by
  intro y hy
  obtain rfl := reaches_exhausted_iff.1 hy
  trivial

theorem Told.after {es : List Occurrence} {y : Outcome α} (h : y.Told serve between thread v)
    (hes : World.History serve between thread es w v) : y.Told serve between thread w := by
  cases y with
  | value a u =>
    obtain ⟨more, hmore⟩ := h
    exact ⟨_, hes.trans hmore⟩
  | error e u =>
    obtain ⟨more, hmore⟩ := h
    exact ⟨_, hes.trans hmore⟩
  | panic message u =>
    obtain ⟨more, hmore⟩ := h
    exact ⟨_, .trans hes hmore⟩
  | waiting on u resume => trivial
  | exhausted => trivial

theorem Recorded.after {es : List Occurrence} (h : x.Recorded serve between thread v)
    (hes : World.History serve between thread es w v) : x.Recorded serve between thread w :=
  fun y hy => (h y hy).after hes

/-- The history of a sequence of computations is known if the history of the first one can be continued,
whatever it has come to. -/
theorem recorded_bind {f : α → World → Outcome β} {x : Outcome α}
    (hvalue : ∀ a v, x.Reaches between (.value a v) → (f a v).Recorded serve between thread w)
    (herror : ∀ e v, x.Reaches between (.error e v) → ∃ es, World.History serve between thread es w v)
    (hpanic : ∀ message v, x.Reaches between (.panic message v) →
      ∃ es, World.Midway serve between thread es w v) :
    (x.bind f).Recorded serve between thread w := by
  intro y hy
  obtain ⟨x', hx, hy⟩ := reaches_bind_iff.1 hy
  cases x' with
  | value a v => exact hvalue a v hx y hy
  | error e v =>
    obtain rfl := reaches_error_iff.1 hy
    exact herror e v hx
  | panic message v =>
    obtain rfl := reaches_panic_iff.1 hy
    exact hpanic message v hx
  | exhausted => exact recorded_exhausted y hy
  | waiting => exact absurd hx not_reaches_waiting

theorem Recorded.bind {f : α → World → Outcome β} (h : x.Recorded serve between thread w)
    (hf : ∀ a v, (f a v).Recorded serve between thread v) :
    (x.bind f).Recorded serve between thread w := by
  refine recorded_bind (fun a v hx => ?_) (fun e v hx => h _ hx) fun message v hx => h _ hx
  obtain ⟨es, hes⟩ := h _ hx
  exact (hf a v).after hes

theorem Recorded.attempt (h : x.Recorded serve between thread w) :
    x.attempt.Recorded serve between thread w := by
  intro y hy
  obtain ⟨x', hx, rfl⟩ := reaches_attempt_iff.1 hy
  have told := h x' hx
  cases x' <;> exact told

end Outcome

/-! ## Rules -/

namespace Eval

variable {act : Eval α}

theorem recorded_pure (a : α) : Recorded serve between (pure a : Eval α) :=
  fun _ _ w => Outcome.recorded_value (.refl w)

theorem recorded_fail (e : Error) : Recorded serve between (fail e : Eval α) :=
  fun _ _ w => Outcome.recorded_error (.refl w)

theorem Recorded.bind {f : α → Eval β} (h : act.Recorded serve between)
    (hf : ∀ a, (f a).Recorded serve between) : Recorded serve between (act >>= f) := by
  intro ctx hctx w
  rw [bind_apply]
  exact (h ctx hctx w).bind fun a v => hf a ctx hctx v

theorem Recorded.attempt (h : act.Recorded serve between) : Recorded serve between act.attempt :=
  fun ctx hctx w => (h ctx hctx w).attempt

theorem Recorded.holding (h : act.Recorded serve between) (places : List Place) :
    Recorded serve between (holding places act) :=
  fun _ hctx w => h _ (hctx.withThread _) w

theorem Recorded.nested (h : act.Recorded serve between) : Recorded serve between (Eval.nested act) := by
  intro ctx hctx w
  unfold Eval.nested
  split
  · exact Outcome.recorded_error (.refl w)
  · exact h _ (hctx.withThread _) w

/-- A new thread does the work. -/
theorem Recorded.onNewThread (h : act.Recorded serve between) (pooled : Bool) :
    Recorded serve between (do
      let id ← modifyGet fun w => (w.threads, { w with threads := w.threads + 1 })
      onThread id pooled act) := by
  intro ctx hctx w y hy
  have told : y.Told serve between w.threads w.withThread := h _ (hctx.withThread _) w.withThread y hy
  cases y with
  | value a u =>
    obtain ⟨es, hes⟩ := told
    exact ⟨es, .begun hes⟩
  | error e u =>
    obtain ⟨es, hes⟩ := told
    exact ⟨es, .begun hes⟩
  | panic message u =>
    obtain ⟨es, hes⟩ := told
    exact ⟨es, .begun hes⟩
  | waiting on u resume => trivial
  | exhausted => trivial

theorem recorded_gets (f : World → α) : Recorded serve between (gets f) :=
  fun _ _ w => Outcome.recorded_value (.refl w)

/-- A change that touches no lambda. -/
theorem recorded_modifyGet {f : World → α × World} (h : ∀ w : World, w.Still (f w).2) :
    Recorded serve between (modifyGet f) :=
  fun _ _ w => Outcome.recorded_value (.aside (h w))

/-- A change that touches no lambda and gives nothing. -/
theorem recorded_modify {g : World → World} (h : ∀ w : World, w.Still (g w)) :
    Recorded serve between (modify g) :=
  fun _ _ w => Outcome.recorded_value (.aside (h w))

/-- What happens at once, with a result. -/
theorem recorded_tookGet {f : World → α × World}
    (h : ∀ thread w, ∃ happening : Happening, happening.Takes thread w (f w).2) :
    Recorded serve between (modifyGet f) := by
  intro ctx _ w
  obtain ⟨happening, takes⟩ := h ctx.thread.id w
  exact Outcome.recorded_value (.took takes)

/-- What happens at once. -/
theorem recorded_took {g : World → World}
    (h : ∀ thread w, ∃ happening : Happening, happening.Takes thread w (g w)) :
    Recorded serve between (modify g) :=
  recorded_tookGet (f := fun w => ((), g w)) h

theorem recorded_evaluate (e : Expr) (scope : ScopeId) (item : Option Value) :
    Recorded serve between (evaluate e scope item) :=
  fun _ hctx w => hctx.evaluate e scope item _ w

theorem recorded_force (k : LambdaId) : Recorded serve between (force k) :=
  fun _ hctx w => hctx.force k _ w

theorem recorded_wait (on : Wait) : Recorded serve between (wait on) := by
  intro ctx hctx w y hy
  rw [wait_apply] at hy
  cases hy with
  | waiting hothers hend =>
    obtain rfl := Outcome.reaches_value_iff.1 hend
    have parked : World.History serve between ctx.thread.id [] w
        (w.park ctx.thread.id ctx.thread.held) := .aside ⟨rfl, rfl⟩
    exact ⟨_, parked.trans ((World.History.others hothers).trans (.aside ⟨rfl, rfl⟩))⟩

theorem recorded_inTurn {work : α → γ → Eval α} (h : ∀ a item, (work a item).Recorded serve between)
    (named : α → List Place) (places : γ → List Place) (first : α) (items : List γ) :
    Recorded serve between (inTurn named places work first items) := by
  induction items generalizing first with
  | nil => exact recorded_pure first
  | cons item items ih =>
    rw [inTurn_cons]
    exact ((h first item).holding _).bind ih

/-! ## The trait -/

theorem recorded_publish (id : QueueId) (value : Value) :
    Recorded serve between (Queue.publish id value) := by
  refine (recorded_gets _).bind fun subscribers => (recorded_inTurn (fun failure c => ?_) _ _ _ _).bind ?_
  · refine (recorded_evaluate _ _ _).attempt.bind fun result => ?_
    cases result <;> exact recorded_pure _
  · intro failure
    cases failure with
    | none => exact recorded_pure ()
    | some e => exact recorded_fail e

variable (serve between) in
/-- Computations that have histories. -/
def recorded : Trait where
  Has := Recorded serve between
  has_pure := recorded_pure
  has_fail := recorded_fail
  has_panic _ _ _ w := Outcome.recorded_panic (.returned (.refl w))
  has_exhausted _ _ _ := Outcome.recorded_exhausted
  has_bind := Recorded.bind
  has_attempt := Recorded.attempt
  has_holding := Recorded.holding
  has_onNewThread := Recorded.onNewThread
  has_thread _ _ w := Outcome.recorded_value (.refl w)
  has_budget _ _ w := Outcome.recorded_value (.refl w)
  has_gets _ := recorded_gets _
  has_world _ h ctx hctx w := h w ctx hctx w
  has_modifyGet _ h := recorded_modifyGet fun w => (h w).still
  has_wait := recorded_wait
  has_force := recorded_force
  has_publish := recorded_publish

end Eval

/-! ## The states beside events -/

section Splits

variable {es es' es₁ es₂ : List Occurrence} {e e' : Occurrence}

/-- Where an event stands in a list that has been put together from two. -/
theorem Occurrence.split_append (h : es ++ es' = es₁ ++ e :: es₂) :
    (∃ more, es₁ = es ++ more ∧ es' = more ++ e :: es₂) ∨ ∃ more, es = es₁ ++ e :: more := by
  rcases List.append_eq_append_iff.1 h with ⟨more, first, second⟩ | ⟨more, first, second⟩
  · exact .inl ⟨more, first, second⟩
  · cases more with
    | nil => exact .inl ⟨[], by simpa using first.symm, second.symm⟩
    | cons e' more =>
      cases second
      exact .inr ⟨more, first⟩

theorem Occurrence.split_cons (h : e' :: es = es₁ ++ e :: es₂) :
    (es₁ = [] ∧ e = e') ∨ ∃ more, es₁ = e' :: more ∧ es = more ++ e :: es₂ := by
  cases es₁ with
  | nil =>
    cases h
    exact .inl ⟨rfl, rfl⟩
  | cons first more =>
    cases h
    exact .inr ⟨more, rfl, rfl⟩

theorem Occurrence.split_concat (h : es ++ [e'] = es₁ ++ e :: es₂) :
    (es₁ = es ∧ e = e') ∨ ∃ more, es = es₁ ++ e :: more := by
  rcases split_append h with ⟨more, rfl, last⟩ | earlier
  · rcases split_cons last with ⟨rfl, rfl⟩ | ⟨rest, -, none⟩
    · exact .inl ⟨List.append_nil es, rfl⟩
    · exact absurd none (by simp)
  · exact .inr earlier

end Splits

namespace World

variable {es es₁ es₂ : List Occurrence} {e : Occurrence}

/-- Before and after each event of a history the computation is in the middle of its work. -/
theorem History.split (h : History serve between thread es w v) (hes : es = es₁ ++ e :: es₂) :
    Midway serve between thread es₁ w e.before ∧ Midway serve between thread (es₁ ++ [e]) w e.after := by
  induction h generalizing es₁ e es₂ with
  | aside _ => exact absurd hes (by simp)
  | others _ => exact absurd hes (by simp)
  | trans h _ ih ih' =>
    rcases Occurrence.split_append hes with ⟨more, rfl, later⟩ | ⟨more, earlier⟩
    · obtain ⟨before, after⟩ := ih' later
      refine ⟨.trans h before, ?_⟩
      rw [List.append_assoc]
      exact .trans h after
    · exact ih earlier
  | begun _ ih =>
    obtain ⟨before, after⟩ := ih hes
    exact ⟨.begun before, .begun after⟩
  | took h =>
    rcases Occurrence.split_cons hes with ⟨rfl, rfl⟩ | ⟨more, -, none⟩
    · exact ⟨.returned (.refl _), .returned (.took h)⟩
    · exact absurd none (by simp)
  | read h run hvalue ih =>
    rcases Occurrence.split_concat hes with ⟨rfl, rfl⟩ | ⟨more, earlier⟩
    · exact ⟨.returned h, .returned (.read h run hvalue)⟩
    · exact ih earlier
  | computed hlt hkeeps h run ih =>
    rcases Occurrence.split_cons hes with ⟨rfl, rfl⟩ | ⟨more, rfl, inside⟩
    · exact ⟨.returned (.refl _), .computing hlt hkeeps (.returned (.refl _))⟩
    · rcases Occurrence.split_concat inside with ⟨rfl, rfl⟩ | ⟨rest, earlier⟩
      · exact ⟨.computing hlt hkeeps (.returned h), .returned (.computed hlt hkeeps h run)⟩
      · obtain ⟨before, after⟩ := ih earlier
        exact ⟨.computing hlt hkeeps before, .computing hlt hkeeps after⟩
  | unknown hge _ run ih =>
    obtain ⟨before, after⟩ := ih hes
    exact ⟨.unknown hge before, .unknown hge after⟩
  | passed h ih =>
    rcases Occurrence.split_cons hes with ⟨rfl, rfl⟩ | ⟨more, rfl, inside⟩
    · exact ⟨.returned (.refl _), .passing (.returned (.refl _))⟩
    · obtain ⟨before, after⟩ := ih inside
      exact ⟨.passing before, .passing after⟩

theorem Midway.split (h : Midway serve between thread es w v) (hes : es = es₁ ++ e :: es₂) :
    Midway serve between thread es₁ w e.before ∧ Midway serve between thread (es₁ ++ [e]) w e.after := by
  induction h generalizing es₁ e es₂ with
  | returned h => exact h.split hes
  | trans h _ ih =>
    rcases Occurrence.split_append hes with ⟨more, rfl, later⟩ | ⟨more, earlier⟩
    · obtain ⟨before, after⟩ := ih later
      refine ⟨.trans h before, ?_⟩
      rw [List.append_assoc]
      exact .trans h after
    · exact h.split earlier
  | begun _ ih =>
    obtain ⟨before, after⟩ := ih hes
    exact ⟨.begun before, .begun after⟩
  | computing hlt hkeeps _ ih =>
    rcases Occurrence.split_cons hes with ⟨rfl, rfl⟩ | ⟨more, rfl, inside⟩
    · exact ⟨.returned (.refl _), .computing hlt hkeeps (.returned (.refl _))⟩
    · obtain ⟨before, after⟩ := ih inside
      exact ⟨.computing hlt hkeeps before, .computing hlt hkeeps after⟩
  | unknown hge _ ih =>
    obtain ⟨before, after⟩ := ih hes
    exact ⟨.unknown hge before, .unknown hge after⟩
  | passing _ ih =>
    rcases Occurrence.split_cons hes with ⟨rfl, rfl⟩ | ⟨more, rfl, inside⟩
    · exact ⟨.returned (.refl _), .passing (.returned (.refl _))⟩
    · obtain ⟨before, after⟩ := ih inside
      exact ⟨.passing before, .passing after⟩

end World

/-! ## Machines that stop -/

/-- A force that breaks off if it begins in certain states. -/
def LambdaId.forceUnless (stop : LambdaId → World → Prop) [∀ k w, Decidable (stop k w)] (k : LambdaId) :
    Eval Value :=
  fun ctx w => if stop k w then .panic none w else k.force ctx w

end Reactor
