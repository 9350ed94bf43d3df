import Reactor.Proofs.Histories.Basic
import Reactor.Proofs.Passes.Sweep
import Reactor.Proofs.Traits.Actions

/-!
# What the machine does has a history

Scopes, error handlers, variables and scripts change lambdas only through forces and passes, through new
lambdas and through registrations, and of each of these the history is known. So a computation of the machine
has a history wherever it begins, within every budget (`Context.records_ofBudget`).
-/

namespace Reactor

variable {serve : LambdaId → Eval Value} {between : World → World → Prop} {w : World}

namespace Eval

open Outcome (recorded_bind recorded_value recorded_error)

/-! ## Computing lambdas -/

theorem recorded_new {record : LambdaRecord} (h : record.Blank) : Recorded serve between (LambdaId.new record) :=
  recorded_tookGet fun _ _ => ⟨_, .made h⟩

theorem recorded_compute (lambda : LambdaId) (scope : ScopeId) :
    Recorded serve between (lambda.compute scope) := by
  refine (recorded_gets _).bind fun record => ?_
  cases record.body with
  | script e => exact recorded_evaluate e scope none
  | lookup name => exact Trait.has_getName (T := recorded serve between) scope name true
  | await fork => exact Trait.has_awaitFork (T := recorded serve between) fork none

/-- The engine works in scopes without touching lambdas. -/
theorem runs_recorded : (recorded serve between).Runs where
  nested := Recorded.nested
  liveness _ _ w := recorded_value (.refl w)
  modifyScope _ _ _ := recorded_modify fun _ => ⟨rfl, rfl⟩
  child scope pure name f h := by
    refine Recorded.bind ?_ fun child => h child (recorded_modify fun _ => ⟨rfl, rfl⟩)
    refine Recorded.bind (Trait.has_checkAlive (T := recorded serve between) scope) fun _ => ?_
    refine (recorded_gets _).bind fun parent => Trait.Has.ite (T := recorded serve between) ?_ ?_
    · exact Recorded.bind (Trait.has_text (T := recorded serve between) scope) fun _ => recorded_fail _
    · exact recorded_modifyGet fun _ => ⟨rfl, rfl⟩
  compute := recorded_compute

/-- A lambda follows the deferred value that its computation has given. -/
theorem recorded_run (lambda : LambdaId) (scope : ScopeId) : Recorded serve between (lambda.run scope) := by
  refine Recorded.nested fun ctx hctx w => ?_
  have computed : (lambda.compute scope ctx w).Recorded serve between ctx.thread.id w :=
    recorded_compute lambda scope ctx hctx w
  rw [bind_apply]
  refine recorded_bind (fun value v hx => ?_) (fun e v hx => computed _ hx) fun message v hx => computed _ hx
  obtain ⟨es, hes⟩ := computed _ hx
  have forced : Recorded serve between (holding value.places value.forced) :=
    Recorded.holding (Trait.has_forced (T := recorded serve between) value) _
  cases hvalue : value.lambda? with
  | none => exact (forced ctx hctx v).after hes
  | some inner =>
    obtain ⟨budget, hbudget⟩ := hctx.ofMachine
    have run : (lambda.compute scope (.machine serve budget ctx.thread) w).Reaches between (.value value v) := by
      rwa [← hbudget]
    exact (forced ctx hctx _).after (hes.read run hvalue)

theorem recorded_evaluateLambda (lambda : LambdaId) : Recorded serve between lambda.evaluate := by
  refine (recorded_gets _).bind fun record => (recorded_run lambda record.scope).attempt.bind fun outcome => ?_
  cases outcome with
  | ok value =>
    refine Recorded.bind (Trait.has_share (T := recorded serve between) value) fun _ => ?_
    exact Recorded.bind (recorded_modify fun _ => ⟨rfl, rfl⟩) fun _ => recorded_pure _
  | error e => exact Trait.has_handleError runs_recorded _ _

/-- The history of a force that has computed its lambda. -/
theorem forced_history {budget : Nat} {thread : Thread} {k : LambdaId} {outcome : Except Error Value}
    {es : List Occurrence} {v : World} (h : World.History serve between thread.id es (w.opened thread.id k) v)
    (run : (k.evaluate (.machine serve budget thread) (w.opened thread.id k)).attempt.Reaches between
      (.value outcome v)) :
    ∃ es, World.History serve between thread.id es w (w.closed thread.id k outcome v) := by
  by_cases hkeeps : (w.lambdaAt k).keeps = true
  · by_cases hlt : k.index < w.lambdas.size
    · exact ⟨_, .computed hlt hkeeps h run⟩
    · exact ⟨_, .unknown (Nat.le_of_not_lt hlt) h run⟩
  · refine ⟨es, ?_⟩
    unfold World.opened at h
    unfold World.closed
    rw [if_neg hkeeps] at h ⊢
    exact h

/-- What has happened until a force that computes its lambda breaks off. -/
theorem forcing_midway {thread : ThreadId} {k : LambdaId} {es : List Occurrence} {v : World}
    (h : World.Midway serve between thread es (w.opened thread k) v) :
    ∃ es, World.Midway serve between thread es w v := by
  by_cases hkeeps : (w.lambdaAt k).keeps = true
  · by_cases hlt : k.index < w.lambdas.size
    · exact ⟨_, .computing hlt hkeeps h⟩
    · exact ⟨_, .unknown (Nat.le_of_not_lt hlt) h⟩
  · unfold World.opened at h
    rw [if_neg hkeeps] at h
    exact ⟨es, h⟩

/-- A force tells what it has found, and if it computes the lambda what has happened until it has an outcome. -/
theorem recorded_forceLambda (lambda : LambdaId) : Recorded serve between lambda.force := by
  intro ctx hctx w
  by_cases opens : (w.lambdaAt lambda).Opens ctx.thread.id
  · have recorded : Recorded serve between lambda.evaluate := recorded_evaluateLambda lambda
    have evaluated := recorded.attempt ctx hctx (w.opened ctx.thread.id lambda)
    rw [LambdaId.force_of_opens opens]
    refine recorded_bind (fun outcome v hx => ?_) (fun e v hx => ?_) fun message v hx => ?_
    · obtain ⟨es, hes⟩ := evaluated _ hx
      obtain ⟨budget, hbudget⟩ := hctx.ofMachine
      have run : (lambda.evaluate (.machine serve budget ctx.thread)
          (w.opened ctx.thread.id lambda)).attempt.Reaches between (.value outcome v) := by
        rwa [← hbudget]
      obtain ⟨more, closed⟩ := forced_history hes run
      cases outcome with
      | ok value => exact recorded_value closed
      | error e => exact recorded_error closed
    · -- An attempt does not fail.
      obtain ⟨x, -, failed⟩ := Outcome.reaches_attempt_iff.1 hx
      cases x <;> cases failed
    · obtain ⟨es, hes⟩ := evaluated _ hx
      exact forcing_midway hes
  · -- The lambda has a result, or the thread is computing it already.
    have fixable : (w.lambdaAt lambda).fixable = true := by
      by_contra unfixable
      exact opens fun found => absurd found unfixable
    unfold LambdaId.force LambdaId.record
    rw [bind_apply, gets_apply, Outcome.bind_value, fixable]
    cases hc : (w.lambdaAt lambda).cache with
    | holding value => exact recorded_value (.took (.answered fixable hc))
    | empty => exact absurd (fun _ => .inl hc) opens
    | computing owner =>
      have same : owner = ctx.thread.id := by
        by_contra other
        exact opens fun _ => .inr ⟨owner, other, hc⟩
      subst same
      simp only [Bool.not_true, Bool.false_eq_true, if_false, bind_apply, thread_apply, Outcome.bind_value,
        ne_eq, not_true_eq_false, gets_apply]
      exact recorded_error (.took (.refused fixable hc))

/-! ## Passes -/

theorem recorded_runCallbacks (lambda : LambdaId) : Recorded serve between lambda.runCallbacks := by
  refine (recorded_gets _).bind fun callbacks => ?_
  cases callbacks with
  | nil => exact recorded_pure ()
  | cons first rest =>
    refine ((recorded_force lambda).holding _).bind fun value => Recorded.holding ?_ _
    refine (recorded_gets _).bind fun record => recorded_inTurn (fun _ callback => ?_) _ _ _ _
    refine (recorded_evaluate _ _ _).attempt.bind fun result => ?_
    cases result with
    | ok _ => exact recorded_pure ()
    | error e => exact Recorded.bind (Trait.has_handleError runs_recorded _ _) fun _ => recorded_pure ()

theorem recorded_runAllCallbacks (lambdas : List LambdaId) :
    Recorded serve between (LambdaId.runAllCallbacks lambdas) := by
  induction lambdas with
  | nil => exact recorded_pure ()
  | cons lambda lambdas ih => exact (recorded_runCallbacks lambda).bind fun _ => ih

/-- A pass tells what it has invalidated, and what its callbacks do. -/
theorem recorded_propagate (roots : List LambdaId) : Recorded serve between (LambdaId.propagate roots) := by
  intro ctx hctx w
  by_cases hroots : roots = []
  · subst hroots
    exact recorded_value (.refl w)
  by_cases hdepth : ctx.thread.depth < w.config.maxDepth
  · have served : Recorded serve between (LambdaId.runAllCallbacks
        (w.enter (w.liveness ctx.thread.held) ctx.thread.id roots).1).attempt :=
      (recorded_runAllCallbacks _).attempt
    rw [LambdaId.propagate_eq_serve hroots hdepth rfl, World.serve_apply]
    refine recorded_bind (fun outcome v hx => ?_) (fun e v hx => ?_) fun message v hx => ?_
    · obtain ⟨es, hes⟩ := served _ (hctx.withThread _) _ _ hx
      cases outcome with
      | ok _ => exact recorded_value (.passed hes)
      | error e => exact recorded_error (.passed hes)
    · obtain ⟨x, -, failed⟩ := Outcome.reaches_attempt_iff.1 hx
      cases x <;> cases failed
    · obtain ⟨es, hes⟩ := served _ (hctx.withThread _) _ _ hx
      exact ⟨_, .passing hes⟩
  · unfold LambdaId.propagate
    rw [if_neg (by simpa using hroots), nested_of_le _ (Nat.le_of_not_lt hdepth)]
    exact recorded_error (.refl w)

theorem notifies_recorded : (recorded serve between).Notifies where
  toRuns := runs_recorded
  propagate := recorded_propagate

/-! ## Variables and scripts -/

theorem writes_recorded : (recorded serve between).Writes where
  toNotifies := notifies_recorded
  bindVariable _ _ _ := recorded_modify fun _ => ⟨rfl, rfl⟩
  storeValue _ _ := recorded_modify fun _ => ⟨rfl, rfl⟩

/-- What scripts do beside working with values. -/
theorem hosts_recorded : (recorded serve between).Hosts True where
  get := Trait.has_getName
  parameter := Trait.has_getParameter
  set := Trait.has_set writes_recorded
  declare scope name v := Trait.has_declare writes_recorded scope name v {}
  notify := Trait.has_notify notifies_recorded
  predict _ _ := recorded_gets _
  lambda _ _ _ _ _ _ _ := (recorded_gets _).bind fun _ => recorded_new ⟨rfl, rfl, rfl, rfl, rfl⟩
  definition _ _ h := (recorded_gets _).bind fun e => h e (.inl trivial)

/-! ## Actions of a host -/

theorem recorded_ofBody (scope : ScopeId) (operation : String) (body : Body) :
    Recorded serve between (LambdaId.ofBody scope operation body) :=
  (recorded_gets _).bind fun _ => recorded_new ⟨rfl, rfl, rfl, rfl, rfl⟩

theorem recorded_listenAs (lambda : LambdaId) (key : ListenerKey) (callback : Callback) :
    Recorded serve between (lambda.listenAs key callback) :=
  recorded_took fun _ _ => ⟨_, .listened lambda key callback⟩

/-- A callback is registered under a handle of its own. -/
theorem recorded_listen (lambda : LambdaId) (callback : Callback) :
    Recorded serve between (lambda.listen callback) := by
  refine (recorded_gets _).bind fun record => ?_
  refine Recorded.bind (recorded_took fun _ _ => ⟨_, .numbered lambda⟩) fun _ => ?_
  exact (recorded_listenAs lambda _ callback).bind fun _ => recorded_pure _

theorem recorded_subscribe (v : Value) (callback : Callback) : Recorded serve between (v.subscribe callback) := by
  refine Recorded.bind (Trait.has_requireStream (T := recorded serve between) v _) fun resource => ?_
  cases resource with
  | queue id =>
    unfold Resource.subscribe
    exact recorded_modifyGet fun _ => ⟨rfl, rfl⟩
  | cell id => exact recorded_fail _

theorem recorded_fork (scope : ScopeId) (operation : String) (body : Expr) :
    Recorded serve between (scope.fork operation body) := by
  refine (recorded_gets _).bind fun record => runs_recorded.child scope record.pure operation fun child _ => ?_
  refine Recorded.bind (recorded_modifyGet fun _ => ⟨rfl, rfl⟩) fun fork => ?_
  exact (recorded_ofBody scope operation _).bind fun _ => recorded_pure _

/-- What a host does. -/
theorem acts_recorded : (recorded serve between).Acts True where
  toWrites := writes_recorded
  toHosts := hosts_recorded
  root _ := recorded_modifyGet fun _ => ⟨rfl, rfl⟩
  twin scope := Recorded.bind (Trait.has_checkAlive (T := recorded serve between) scope) fun _ =>
    (recorded_gets _).bind fun _ => recorded_modifyGet fun _ => ⟨rfl, rfl⟩
  clear scope := by
    refine (recorded_gets _).bind fun _ => Trait.Has.ite (T := recorded serve between) ?_ ?_
    · exact Recorded.bind (Trait.has_text (T := recorded serve between) scope) fun _ => recorded_fail _
    · exact Recorded.bind (Trait.has_checkAlive (T := recorded serve between) scope) fun _ =>
        recorded_modify fun _ => ⟨rfl, rfl⟩
  destroy _ := recorded_modify fun _ => ⟨rfl, rfl⟩
  define _ _ _ := recorded_modify fun _ => ⟨rfl, rfl⟩
  lookup scope operation _ := recorded_ofBody scope operation _
  listen lambda callback _ := recorded_listen lambda callback
  listenAs lambda key callback _ := recorded_listenAs lambda key callback
  unlisten lambda key := recorded_tookGet fun _ _ => ⟨_, .unlistened lambda key⟩
  subscribe v callback _ := recorded_subscribe v callback
  fork scope operation body _ := recorded_fork scope operation body
  setLearner learner _ _ := recorded_modify fun _ => by cases learner <;> exact ⟨rfl, rfl⟩
  askLearner _ _ _ := recorded_gets _
  loadSnapshot := by
    intro learner _ bytes
    unfold loadSnapshot
    split
    · exact recorded_fail _
    · exact recorded_modifyGet fun _ => by cases learner <;> exact ⟨rfl, rfl⟩

end Eval

/-! ## The machine -/

section Machines

variable {stop : LambdaId → World → Prop} [∀ k w, Decidable (stop k w)]

/-- If what a machine does when a lambda is forced has a history, then all that it starts has. -/
theorem Context.records_machine (h : ∀ k, (serve k).Recorded serve between) (budget : Nat) (thread : Thread) :
    (machine serve budget thread).Records serve between := by
  induction budget generalizing thread with
  | zero =>
    exact
      { ofMachine := ⟨0, rfl⟩
        evaluate := fun _ _ _ _ _ => Outcome.recorded_exhausted
        force := fun _ _ _ => Outcome.recorded_exhausted }
  | succ budget ih =>
    refine
      { ofMachine := ⟨budget + 1, rfl⟩
        evaluate := fun e scope item thread w => ?_
        force := fun k thread w => ?_ }
    · have told := Trait.has_eval Eval.hosts_recorded e (.inl trivial) scope item _ (ih thread) w
      rwa [thread_machine] at told
    · have told := h k _ (ih thread) w
      rwa [thread_machine] at told

theorem Context.records_ofBudget (budget : Nat) (thread : Thread) :
    (ofBudget budget thread).Records LambdaId.force between := by
  rw [ofBudget_eq_machine]
  exact records_machine Eval.recorded_forceLambda budget thread

theorem LambdaId.recorded_forceUnless (k : LambdaId) :
    Eval.Recorded serve between (k.forceUnless stop) := by
  intro ctx hctx w
  unfold forceUnless
  split
  · exact Outcome.recorded_panic (.returned (.refl w))
  · exact Eval.recorded_forceLambda k ctx hctx w

/-- What a host does has a history. -/
theorem Action.recorded_runAll (h : ∀ k, (serve k).Recorded serve between) (steps : List Step) (budget : Nat)
    (thread : Thread) (w : World) :
    (runAll steps (.machine serve budget thread) w).Recorded serve between thread.id w := by
  have told := Trait.has_runAll Eval.acts_recorded steps (.inl trivial) (.inl trivial) _
    (Context.records_machine h budget thread) w
  rwa [Context.thread_machine] at told

end Machines

end Reactor
