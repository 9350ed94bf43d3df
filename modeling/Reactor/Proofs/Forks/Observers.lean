import Mathlib.Data.List.Permutation
import Reactor.Proofs.Forks.Sessions
import Reactor.Proofs.Network.Fixing
import Reactor.Proofs.Tracking.Readers

/-!
# What observers of a fork are told

The outcome of a fork is seen in three ways: the state of the fork tells whether it has been completed, whoever
waits for the fork gets the outcome itself, and the lambda that stands for the fork gives it when it is forced.
If the outcome is a value they all tell of that, in any order and as often as they are asked
(`World.Watched.tells`). If it is an error, the lambda fares like any lambda whose computation fails
(`LambdaId.force_of_failed`).

Nobody computes anything for that: what is said of forces holds in every context, whatever that could compute.
-/

namespace Reactor

variable {fork : ForkId} {k : LambdaId} {ctx : Context} {w : World}

/-! ## The lambdas of a value -/

mutual

/-- A value is unfixed just if it names a lambda that can be fixed. -/
theorem Value.unfixed_iff (v : Value) :
    v.unfixed w = true ↔ ∃ id, Place.lambda id ∈ v.places ∧ (w.lambdaAt id).fixable = true := by
  match v with
  | .mk data notes => exact dataUnfixed_iff data

theorem Value.dataUnfixed_iff (data : Data) : Value.dataUnfixed w data = true ↔
    ∃ id, Place.lambda id ∈ dataPlacesBefore data [] ∧ (w.lambdaAt id).fixable = true := by
  match data with
  | .lambda id => simp [dataUnfixed, dataPlacesBefore]
  | .list items | .sequence items => exact anyUnfixed_iff items
  | .map entries => exact entryUnfixed_iff entries
  | .range start stop =>
    rw [dataUnfixed, Bool.or_eq_true, unfixed_iff start, unfixed_iff stop, dataPlacesBefore,
      placesBefore_eq, placesBefore_eq, List.append_nil]
    simp only [List.mem_append, or_and_right, exists_or]
  | .uri ⟨_, some (.queue _)⟩ | .uri ⟨_, some (.cell _)⟩ | .uri ⟨_, none⟩ =>
    simp [dataUnfixed, dataPlacesBefore, Resource.place]
  | .void | .null _ | .boolean _ | .integer _ | .decimal _ | .string _ | .date _ | .infinity _
  | .queue _ | .error _ => simp [dataUnfixed, dataPlacesBefore]

theorem Value.anyUnfixed_iff (items : List Value) : Value.anyUnfixed w items = true ↔
    ∃ id, Place.lambda id ∈ itemsPlaces items ∧ (w.lambdaAt id).fixable = true := by
  match items with
  | [] => simp [anyUnfixed, itemsPlaces_nil]
  | v :: vs =>
    rw [anyUnfixed, Bool.or_eq_true, unfixed_iff v, anyUnfixed_iff vs]
    simp only [mem_itemsPlaces, List.mem_cons, or_and_right, exists_or, exists_eq_left]

theorem Value.entryUnfixed_iff (entries : List (String × Value)) : Value.entryUnfixed w entries = true ↔
    ∃ id, Place.lambda id ∈ entriesPlaces entries ∧ (w.lambdaAt id).fixable = true := by
  match entries with
  | [] => simp [entryUnfixed, entriesPlaces_nil]
  | (_, v) :: rest =>
    rw [entryUnfixed, Bool.or_eq_true, unfixed_iff v, entryUnfixed_iff rest]
    simp only [mem_entriesPlaces, List.mem_cons, or_and_right, exists_or, exists_eq_left]

end

namespace Value

/-- A value without lambdas that can be fixed, and without others, names no lambda at all. -/
theorem lambdas_eq_nil {v : Value} (hfixed : v.unfixed w = false)
    (hall : ∀ id ∈ v.lambdas, (w.lambdaAt id).fixable = true) : v.lambdas = [] := by
  refine List.eq_nil_iff_forall_not_mem.2 fun id hid => ?_
  have unfixed : v.unfixed w = true := (unfixed_iff v).2 ⟨id, mem_lambdas.1 hid, hall id hid⟩
  rw [hfixed] at unfixed
  cases unfixed

theorem lambda?_eq_none_of_lambdas {v : Value} (h : v.lambdas = []) : v.lambda? = none := by
  cases hl : v.lambda? with
  | none => rfl
  | some id =>
    have named : id ∈ v.lambdas := mem_lambdas.2 (by simp [places_of_lambda? hl])
    rw [h] at named
    cases named

end Value

/-! ## The state, and waiting -/

/-- Whoever waits for a fork that has ended gets the outcome at once. -/
theorem ForkId.await_of_outcome {outcome : Except Error Value} (h : (w.forkAt fork).outcome = some outcome)
    (timeout : Option Nat) (ctx : Context) : fork.await timeout ctx w = Eval.ofExcept outcome ctx w := by
  unfold await
  rw [Eval.bind_apply, Eval.gets_apply, Outcome.bind_value, h]

/-- The state of a fork that has ended tells what those get who wait for it. -/
theorem ForkState.completed_iff {outcome : Except Error Value} (h : (w.forkAt fork).outcome = some outcome)
    (timeout : Option Nat) (ctx : Context) :
    (ofOutcome (w.forkAt fork).outcome = .completed ↔ ∃ v, fork.await timeout ctx w = .value v w) ∧
      (ofOutcome (w.forkAt fork).outcome = .failed ↔ ∃ e, fork.await timeout ctx w = .error e w) := by
  rw [fork.await_of_outcome h, h]
  cases outcome with
  | ok v => exact ⟨⟨fun _ => ⟨v, rfl⟩, fun _ => rfl⟩, nofun, nofun⟩
  | error e => exact ⟨⟨nofun, nofun⟩, fun _ => ⟨e, rfl⟩, fun _ => rfl⟩

/-! ## Forces of a fork that has been completed -/

namespace LambdaId

/-- To compute a lambda that waits for a fork is to give the outcome. -/
theorem compute_of_outcome {outcome : Except Error Value} (hbody : (w.lambdaAt k).body = .await fork)
    (h : (w.forkAt fork).outcome = some outcome) (scope : ScopeId) (ctx : Context) :
    k.compute scope ctx w = Eval.ofExcept outcome ctx w := by
  unfold compute record
  rw [Eval.bind_apply, Eval.gets_apply, Outcome.bind_value, hbody]
  exact fork.await_of_outcome h none ctx

theorem run_of_completed {v : Value} (hbody : (w.lambdaAt k).body = .await fork)
    (h : (w.forkAt fork).outcome = some (.ok v)) (hv : v.lambda? = none) (scope : ScopeId)
    (hdepth : ctx.thread.depth < w.config.maxDepth) : k.run scope ctx w = .value v w := by
  unfold run
  rw [Eval.nested_of_lt _ hdepth, Eval.bind_apply, compute_of_outcome hbody h]
  dsimp only [Eval.ofExcept, Eval.pure_apply, Outcome.bind_value]
  rw [hv, Value.forced_of_lambda?_eq_none hv]
  rfl

/-- A lambda that waits for a completed fork gives the value of the fork. The learner is told its type. -/
theorem evaluate_of_completed {v : Value} (hbody : (w.lambdaAt k).body = .await fork)
    (h : (w.forkAt fork).outcome = some (.ok v)) (hv : v.lambda? = none) (hmarked : v.Marked)
    (ctx : Context) (hdepth : ctx.thread.depth < w.config.maxDepth) :
    ∃ learner, k.evaluate ctx w = .value v (w.withLearner learner) := by
  refine ⟨(w.learn (w.lambdaAt k).operation (w.lambdaAt k).inputs v.tag).learner, ?_⟩
  unfold evaluate record
  rw [Eval.bind_apply, Eval.gets_apply, Outcome.bind_value, Eval.bind_apply, Eval.attempt_apply,
    run_of_completed hbody h hv _ hdepth]
  dsimp only [Outcome.attempt, Outcome.bind_value]
  rw [hmarked.share]
  rfl

end LambdaId

/-- A fork has given a value, and a lambda that stands for the fork keeps no other one. -/
structure World.Delivers (w : World) (fork : ForkId) (k : LambdaId) (v : Value) : Prop extends
    w.StandsFor fork k where
  outcome : (w.forkAt fork).outcome = some (.ok v)
  kept {x : Value} (h : (w.lambdaAt k).cache = .holding x) : x = v

/-- A thread may force the lambda: it can open another level, and it is not computing the lambda already. -/
structure World.LetsForce (w : World) (k : LambdaId) (thread : Thread) : Prop where
  depth : thread.depth < w.config.maxDepth
  idle : (w.lambdaAt k).cache ≠ .computing thread.id

namespace World

variable {u v : World} {x : Value}

theorem Recached.withLearner (w : World) (learner : Learner) : w.Recached (w.withLearner learner) :=
  ⟨rfl, rfl, rfl, rfl, rfl, fun _ => rfl⟩

theorem Delivers.recached (h : w.Delivers fork k x) (hu : w.Recached u) (hforks : u.forks = w.forks)
    (hkept : ∀ y, (u.lambdaAt k).cache = .holding y → y = x) : u.Delivers fork k x where
  outcome := by
    rw [forkAt, hforks]
    exact h.outcome
  body := by
    rw [hu.record k]
    exact h.body
  fixable := by
    rw [hu.record k]
    exact h.fixable
  kept := hkept _

@[simp] theorem forks_opened (w : World) (thread : ThreadId) (k : LambdaId) :
    (w.opened thread k).forks = w.forks := by
  unfold opened
  split <;> rfl

@[simp] theorem forks_closed (w u : World) (thread : ThreadId) (k : LambdaId)
    (outcome : Except Error Value) : (w.closed thread k outcome u).forks = u.forks := by
  unfold closed
  split <;> rfl

/-- Every force of the lambda gives the value of the fork, whatever the context could compute. No more than what
the lambda keeps and what is learnt may change. -/
theorem Delivers.force (h : w.Delivers fork k x) (hx : x.lambda? = none) (hmarked : x.Marked)
    (hctx : w.LetsForce k ctx.thread) :
    ∃ u, k.force ctx w = .value x u ∧ w.Recached u ∧ u.Delivers fork k x := by
  cases hc : (w.lambdaAt k).cache with
  | holding y =>
    obtain rfl := h.kept hc
    exact ⟨w, LambdaId.force_of_holding h.fixable hc ctx, .refl w, h⟩
  | empty =>
    have opened := Recached.opened w ctx.thread.id k
    have outcome : ((w.opened ctx.thread.id k).forkAt fork).outcome = some (.ok x) := by
      rw [forkAt, forks_opened]
      exact h.outcome
    obtain ⟨learner, evaluated⟩ := LambdaId.evaluate_of_completed (body_lambdaAt_opened.trans h.body) outcome hx
      hmarked ctx (opened.config ▸ hctx.depth)
    have recached := (opened.trans (.withLearner _ learner)).trans (.closed w _ ctx.thread.id k (.ok x))
    refine ⟨w.closed ctx.thread.id k (.ok x) ((w.opened ctx.thread.id k).withLearner learner), ?_, recached,
      h.recached recached (by rw [forks_closed]; exact w.forks_opened _ _) fun y hy => ?_⟩
    · rw [LambdaId.force_of_opens fun _ => .inl hc, evaluated]
      rfl
    · rw [cache_closed (u := (w.opened ctx.thread.id k).withLearner learner) h.fixable hc h.toStandsFor.lt
        rfl] at hy
      cases hy
      rfl
  | computing owner =>
    -- another thread is computing the lambda, and keeps what it gets
    have other : owner ≠ ctx.thread.id := fun same => hctx.idle (same ▸ hc)
    have unkept : ¬ (w.lambdaAt k).keeps = true := by simp [LambdaRecord.keeps, hc]
    obtain ⟨learner, evaluated⟩ :=
      LambdaId.evaluate_of_completed h.body h.outcome hx hmarked ctx hctx.depth
    have learnt := Recached.withLearner w learner
    refine ⟨w.withLearner learner, ?_, learnt, h.recached learnt rfl fun _ => h.kept⟩
    rw [LambdaId.force_of_opens fun _ => .inr ⟨owner, other, hc⟩, opened, if_neg unkept, evaluated]
    unfold closed
    simp only [if_neg unkept]
    rfl

/-- Others may do what they like as long as they let the lambda keep no other result. -/
structure LeavesResult (k : LambdaId) (w v : World) : Prop extends w.Advances v where
  kept {x : Value} (h : (v.lambdaAt k).cache = .holding x) : (w.lambdaAt k).cache = .holding x

theorem Delivers.spared (h : w.Delivers fork k x) (hv : w.LeavesResult k v) : v.Delivers fork k x :=
  ⟨hv.toAdvances.stands h.toStandsFor, hv.toAdvances.outcome h.outcome, fun hc => h.kept (hv.kept hc)⟩

end World

/-! ## Observers in any order -/

/-- The ways to look at a fork. -/
inductive Observer where
  | state
  | wait (timeout : Option Nat)
  | force

namespace Observer

/-- What an observer does. -/
def look (fork : ForkId) (k : LambdaId) : Observer → Eval (ForkState ⊕ Value)
  | state => do return .inl (.ofOutcome (← Eval.gets fun w => (w.forkAt fork).outcome))
  | wait timeout => do return .inr (← fork.await timeout)
  | force => do return .inr (← k.force)

/-- What an observer is told of a value. -/
def told (v : Value) : Observer → ForkState ⊕ Value
  | state => .inl .completed
  | wait _ => .inr v
  | force => .inr v

end Observer

namespace World

/-- Observers look at a fork one after the other, each on some thread that may force the lambda, while others go
on. -/
inductive Watched (fork : ForkId) (k : LambdaId) : World → List (Observer × Outcome (ForkState ⊕ Value)) → World → Prop
  | done (w : World) : Watched fork k w [] w
  | others {u v w : World} {seen : List (Observer × Outcome (ForkState ⊕ Value))} (h : u.LeavesResult k v)
    (rest : Watched fork k v seen w) : Watched fork k u seen w
  | look {u v w : World} {seen : List (Observer × Outcome (ForkState ⊕ Value))} (observer : Observer)
    (ctx : Context) (hctx : u.LetsForce k ctx.thread) (hv : (observer.look fork k ctx u).state? = some v)
    (rest : Watched fork k v seen w) : Watched fork k u ((observer, observer.look fork k ctx u) :: seen) w

/-- An observer who looks is told of the value. -/
theorem Delivers.look {x : Value} (h : w.Delivers fork k x) (hx : x.lambda? = none) (hmarked : x.Marked)
    (hctx : w.LetsForce k ctx.thread) (observer : Observer) :
    ∃ u, observer.look fork k ctx w = .value (observer.told x) u ∧ w.Recached u ∧ u.Delivers fork k x := by
  cases observer with
  | state =>
    refine ⟨w, ?_, .refl w, h⟩
    rw [Observer.look, Eval.bind_apply, Eval.gets_apply, Outcome.bind_value, h.outcome]
    rfl
  | wait timeout =>
    refine ⟨w, ?_, .refl w, h⟩
    rw [Observer.look, Eval.bind_apply, fork.await_of_outcome h.outcome]
    rfl
  | force =>
    obtain ⟨u, run, recached, hu⟩ := h.force hx hmarked hctx
    refine ⟨u, ?_, recached, hu⟩
    rw [Observer.look, Eval.bind_apply, run]
    rfl

/-- All observers are told of the value, in whatever order they look. -/
theorem Watched.tells {seen : List (Observer × Outcome (ForkState ⊕ Value))} {u : World} {x : Value}
    (hseen : w.Watched fork k seen u) (h : w.Delivers fork k x) (hx : x.lambda? = none) (hmarked : x.Marked) :
    u.Delivers fork k x ∧ ∀ entry ∈ seen, ∃ v, entry.2 = .value (entry.1.told x) v := by
  induction hseen with
  | done => exact ⟨h, nofun⟩
  | others spares _ ih => exact ih (h.spared spares)
  | look observer ctx hctx hv _ ih =>
    obtain ⟨u, run, -, hu⟩ := h.look hx hmarked hctx observer
    rw [run] at hv
    cases hv
    obtain ⟨last, rest⟩ := ih hu
    exact ⟨last, List.forall_mem_cons.2 ⟨⟨_, run⟩, rest⟩⟩

end World

/-! ## Forces of a fork that has failed -/

namespace LambdaId

variable {j : LambdaId} {e : Error}

/-- A force of a lambda whose computation fails: the source is added, and the handlers take the failure. -/
def failing (k : LambdaId) (e : Error) : Eval Value := fun ctx w =>
  let record := w.lambdaAt k
  let handled := record.scope.handleError (e.addSource record.source) ctx (w.opened ctx.thread.id k)
  handled.attempt.bind fun outcome u => Eval.ofExcept outcome ctx (w.closed ctx.thread.id k outcome u)

/-- The failure of a computation is handed to the handlers. -/
theorem evaluate_of_run_error (hrun : k.run (w.lambdaAt k).scope ctx w = .error e w) :
    k.evaluate ctx w = (w.lambdaAt k).scope.handleError (e.addSource (w.lambdaAt k).source) ctx w := by
  unfold evaluate record
  rw [Eval.bind_apply, Eval.gets_apply, Outcome.bind_value, Eval.bind_apply, Eval.attempt_apply, hrun]
  rfl

theorem force_of_run_error (hopens : (w.lambdaAt k).Opens ctx.thread.id)
    (hrun : ∀ scope, k.run scope ctx (w.opened ctx.thread.id k) = .error e (w.opened ctx.thread.id k)) :
    k.force ctx w = k.failing e ctx w := by
  rw [force_of_opens hopens, evaluate_of_run_error (hrun _), World.scope_lambdaAt_opened,
    World.source_lambdaAt_opened]
  rfl

theorem run_of_failed (hbody : (w.lambdaAt k).body = .await fork)
    (h : (w.forkAt fork).outcome = some (.error e)) (scope : ScopeId)
    (hdepth : ctx.thread.depth < w.config.maxDepth) : k.run scope ctx w = .error e w := by
  unfold run
  rw [Eval.nested_of_lt _ hdepth, Eval.bind_apply, compute_of_outcome hbody h]
  rfl

/-- A lambda that waits for a failed fork is forced like one whose script fails in the same way. -/
theorem force_of_failed (hbody : (w.lambdaAt k).body = .await fork)
    (h : (w.forkAt fork).outcome = some (.error e)) (hopens : (w.lambdaAt k).Opens ctx.thread.id)
    (hdepth : ctx.thread.depth < w.config.maxDepth) : k.force ctx w = k.failing e ctx w := by
  refine force_of_run_error hopens fun scope => ?_
  refine run_of_failed (World.body_lambdaAt_opened.trans hbody) ?_ scope ?_
  · rw [World.forkAt, World.forks_opened]
    exact h
  · rwa [World.config_opened]

theorem force_of_fail (hbody : (w.lambdaAt j).body = .script (.fail e)) {budget : Nat} {thread : Thread}
    (hopens : (w.lambdaAt j).Opens thread.id) (hdepth : thread.depth < w.config.maxDepth) :
    j.force (.ofBudget (budget + 1) thread) w = j.failing e (.ofBudget (budget + 1) thread) w := by
  have same : (Context.ofBudget (budget + 1) thread).thread = thread := Context.thread_ofBudget _ _
  refine force_of_run_error (by rwa [same]) fun scope => ?_
  rw [same]
  exact run_of_fail (World.body_lambdaAt_opened.trans hbody) (by rwa [World.config_opened]) budget

/-- At every depth the lambda of a failed fork is computed like one of the same scope and source whose script
fails. -/
theorem evaluate_of_failed (hbody : (w.lambdaAt k).body = .await fork)
    (h : (w.forkAt fork).outcome = some (.error e)) (hfail : (w.lambdaAt j).body = .script (.fail e))
    (hscope : (w.lambdaAt j).scope = (w.lambdaAt k).scope) (hsource : (w.lambdaAt j).source = (w.lambdaAt k).source)
    (budget : Nat) (thread : Thread) :
    k.evaluate (.ofBudget (budget + 1) thread) w = j.evaluate (.ofBudget (budget + 1) thread) w := by
  have same : (Context.ofBudget (budget + 1) thread).thread = thread := Context.thread_ofBudget _ _
  obtain ⟨f, hk, hj⟩ : ∃ f, (∀ scope, k.run scope (.ofBudget (budget + 1) thread) w = .error f w) ∧
      ∀ scope, j.run scope (.ofBudget (budget + 1) thread) w = .error f w := by
    by_cases hdepth : thread.depth < w.config.maxDepth
    · exact ⟨e, fun scope => run_of_failed hbody h scope (by rwa [same]),
        fun scope => run_of_fail hfail hdepth budget⟩
    · -- both are refused
      have refused : w.config.maxDepth ≤ (Context.ofBudget (budget + 1) thread).thread.depth := by
        rw [same]
        exact Nat.le_of_not_lt hdepth
      exact ⟨_, fun scope => Eval.nested_of_le _ refused, fun scope => Eval.nested_of_le _ refused⟩
  rw [evaluate_of_run_error (hk _), evaluate_of_run_error (hj _), hscope, hsource]

end LambdaId

/-! ## New forks -/

namespace ScopeId

/-- Below a destroyed scope no fork is begun. -/
theorem fork_of_destroyed {scope : ScopeId} (h : (w.scopeAt scope).destroyed = true) (operation : String)
    (body : Expr) (ctx : Context) : scope.fork operation body ctx w =
      .error (.assertion ("Scope " ++ w.scopeText scope ++ " has been destroyed")) w := by
  unfold fork child record
  rw [Eval.bind_apply, Eval.gets_apply, Outcome.bind_value, Eval.bind_apply, Eval.bind_apply,
    checkAlive_of_destroyed h]
  rfl

/-- The state with a new fork. Its scope is as pure as the one above it, and its lambda is one of that scope. -/
def withFork (scope : ScopeId) (operation : String) (body : Expr) (w : World) : World :=
  let parent := w.scopeAt scope
  { w with
    scopes := w.scopes.push { name := operation, parent := some scope, source := parent.source, pure := parent.pure }
    forks := w.forks.push { scope := w.nextScope, body }
    lambdas := w.lambdas.push { operation, source := parent.source, scope, inputs := []
                                body := .await ⟨w.forks.size⟩, fixable := true } }

/-- Below any other scope a fork is begun. -/
theorem fork_of_alive {scope : ScopeId} (h : (w.scopeAt scope).destroyed = false) (operation : String)
    (body : Expr) (ctx : Context) : scope.fork operation body ctx w =
      .value ⟨⟨w.forks.size⟩, .lambda ⟨w.lambdas.size⟩⟩ (scope.withFork operation body w) := by
  have waits (fork : ForkId) (v : World) (hv : (v.scopeAt scope).source = (w.scopeAt scope).source) :
      (LambdaId.ofBody scope operation (.await fork) >>= fun k => pure (Forked.mk fork (.lambda k))) ctx v =
        .value ⟨fork, .lambda ⟨v.lambdas.size⟩⟩ { v with
          lambdas := v.lambdas.push { operation, source := (w.scopeAt scope).source, scope, inputs := []
                                      body := .await fork, fixable := true } } := by
    rw [← hv]
    rfl
  -- the new scope is not the one above it, or has its source
  have source (record : ScopeRecord) (hrecord : record.source = (w.scopeAt scope).source) :
      ((w.scopes.push record).getD scope.index default).source = (w.scopeAt scope).source := by
    rw [World.getD_push]
    split
    · exact hrecord
    · rfl
  unfold fork
  rw [Eval.bind_apply, record, Eval.gets_apply, Outcome.bind_value, Eval.bind_apply, child_of_alive h,
    Outcome.bind_value, Eval.bind_apply, Eval.modifyGet_apply, Outcome.bind_value]
  exact waits _ _ (source _ rfl)

theorem standsFor_withFork (scope : ScopeId) (operation : String) (body : Expr) (w : World) :
    (scope.withFork operation body w).StandsFor ⟨w.forks.size⟩ ⟨w.lambdas.size⟩ := by
  constructor <;> simp [withFork, World.lambdaAt]

theorem pure_withFork (scope : ScopeId) (operation : String) (body : Expr) (w : World) :
    ((scope.withFork operation body w).scopeAt w.nextScope).pure = (w.scopeAt scope).pure := by
  simp [withFork, World.nextScope, World.scopeAt]

end ScopeId

/-! ## Outcomes in a session -/

/-- The failure that an answer tells of. -/
def Answer.failure? : Answer → Option Error
  | .mk (.error e) _ => some e
  | .mk (.ok _) _ => none

namespace Session

variable {s : Session}

/-- The value of a fork that has ended in some session: it is marked, and if all lambdas that it names can be fixed it
names none. -/
theorem Orderly.lambdas_of_completed (h : s.Orderly) {v : Value}
    (ho : (s.world.forkAt fork).outcome = some (.ok v))
    (hall : ∀ id ∈ v.lambdas, (s.world.lambdaAt id).fixable = true) : v.lambdas = [] ∧ v.Marked := by
  obtain ⟨fixed, marked⟩ := h.published ho
  exact ⟨Value.lambdas_eq_nil fixed hall, marked⟩

/-- **All observers of a fork are told the same.** The outcome of a fork that has ended stays for good. Whoever waits
gets it, and the state of the fork tells which one it is. A value that names no lambda which cannot be fixed names
none at all, and the lambda that stands for the fork gives that value to every thread that may force it, as long as it
keeps no other result; nothing is computed for that, and all observers are told of the value in whatever order they
look. An error is treated like the failure of a script of a lambda of the same scope and source. Below a destroyed
scope no fork is begun; below any other one it gets a scope that is as pure, and a lambda of the scope above stands
for it. -/
theorem fork_outcomes_agree (hs : s.Reachable) {outcome : Except Error Value}
    (h : (s.world.forkAt fork).outcome = some outcome) (steps : List Step) :
    let w := (s.after steps).world
    (w.forkAt fork).outcome = some outcome ∧
    (∀ timeout ctx, fork.await timeout ctx w = Eval.ofExcept outcome ctx w ∧
      (ForkState.ofOutcome (w.forkAt fork).outcome = .completed ↔ ∃ v, fork.await timeout ctx w = .value v w) ∧
      (ForkState.ofOutcome (w.forkAt fork).outcome = .failed ↔ ∃ e, fork.await timeout ctx w = .error e w)) ∧
    (∀ v, outcome = .ok v → (∀ id ∈ v.lambdas, (w.lambdaAt id).fixable = true) →
      v.lambdas = [] ∧
      ∀ k, s.world.StandsFor fork k → (∀ x, (w.lambdaAt k).cache = .holding x → x = v) →
        (∀ (observer : Observer) (ctx : Context), w.LetsForce k ctx.thread → ∃ u,
          observer.look fork k ctx w = .value (observer.told v) u ∧ w.Recached u ∧ u.Delivers fork k v) ∧
        ∀ seen u, w.Watched fork k seen u →
          u.Delivers fork k v ∧ ∀ entry ∈ seen, ∃ x, entry.2 = .value (entry.1.told v) x) ∧
    (∀ e, outcome = .error e → ∀ k, s.world.StandsFor fork k →
      (∀ ctx : Context, (w.lambdaAt k).Opens ctx.thread.id → ctx.thread.depth < w.config.maxDepth →
        k.force ctx w = k.failing e ctx w) ∧
      ∀ j, (w.lambdaAt j).body = .script (.fail e) → ∀ (budget : Nat) (thread : Thread),
        ((w.lambdaAt j).Opens thread.id → thread.depth < w.config.maxDepth →
          j.force (.ofBudget (budget + 1) thread) w = j.failing e (.ofBudget (budget + 1) thread) w) ∧
        ((w.lambdaAt j).scope = (w.lambdaAt k).scope → (w.lambdaAt j).source = (w.lambdaAt k).source →
          k.evaluate (.ofBudget (budget + 1) thread) w = j.evaluate (.ofBudget (budget + 1) thread) w)) ∧
    ∀ (scope : ScopeId) (operation : String) (body : Expr) (ctx : Context),
      ((w.scopeAt scope).destroyed = true → ∃ message,
        scope.fork operation body ctx w = .error (.assertion message) w) ∧
      ((w.scopeAt scope).destroyed = false →
        scope.fork operation body ctx w =
          .value ⟨⟨w.forks.size⟩, .lambda ⟨w.lambdas.size⟩⟩ (scope.withFork operation body w) ∧
        (scope.withFork operation body w).StandsFor ⟨w.forks.size⟩ ⟨w.lambdas.size⟩ ∧
        ((scope.withFork operation body w).scopeAt w.nextScope).pure = (w.scopeAt scope).pure) := by
  obtain ⟨orderly, lead⟩ := hs.orderly.after steps
  intro w
  have stays : (w.forkAt fork).outcome = some outcome := lead.outcome h
  refine ⟨stays, fun timeout ctx => ?_, ?completed, ?failed, ?refused⟩
  · exact ⟨fork.await_of_outcome stays timeout ctx, ForkState.completed_iff stays timeout ctx⟩
  case completed =>
    rintro v rfl hall
    obtain ⟨none, marked⟩ := orderly.lambdas_of_completed stays hall
    have settled : v.lambda? = .none := Value.lambda?_eq_none_of_lambdas none
    refine ⟨none, fun k hk hkept => ?_⟩
    have delivers : w.Delivers fork k v := ⟨lead.stands hk, stays, hkept _⟩
    exact ⟨fun observer _ hctx => delivers.look settled marked hctx observer,
      fun _ _ hseen => hseen.tells delivers settled marked⟩
  case failed =>
    rintro e rfl k hk
    have body : (w.lambdaAt k).body = .await fork := (lead.stands hk).body
    refine ⟨fun ctx hopens hdepth => LambdaId.force_of_failed body stays hopens hdepth, fun j hj budget thread => ?_⟩
    exact ⟨LambdaId.force_of_fail hj,
      fun hscope hsource => LambdaId.evaluate_of_failed body stays hj hscope hsource budget thread⟩
  case refused =>
    intro scope operation body ctx
    refine ⟨fun hdestroyed => ⟨_, scope.fork_of_destroyed hdestroyed operation body ctx⟩, fun halive => ?_⟩
    exact ⟨scope.fork_of_alive halive operation body ctx, scope.standsFor_withFork operation body w,
      scope.pure_withFork operation body w⟩

theorem after_nil (s : Session) : s.after [] = s :=
  rfl

/-- In some session a fork of the root scope has given the number 7, and its lambda keeps nothing yet. A step destroys
the scope. -/
theorem reaches_seven : ∃ (s : Session) (step : Step), s.Reachable ∧
    (s.world.forkAt ⟨0⟩).outcome = some (.ok (.integer 7)) ∧ s.world.StandsFor ⟨0⟩ ⟨0⟩ ∧
    (s.world.lambdaAt ⟨0⟩).cache = .empty ∧ 0 < s.world.config.maxDepth ∧
    (s.world.scopeAt ⟨0⟩).destroyed = false ∧ ((s.after [step]).world.scopeAt ⟨0⟩).destroyed = true :=
  ⟨(start {} [] default).after [.mk "root" (.fork "seven" (.integer 7) "seven")], .mk "root" .destroy,
    ⟨_, _, _, _, rfl⟩, by cbv, ⟨by cbv, by cbv⟩, by cbv, by decide +kernel, by decide +kernel, by decide +kernel⟩

/-- In some session a fork has failed, and a lambda of the same scope and source has a script that fails so too. -/
theorem reaches_failure : ∃ (s : Session) (e : Error), s.Reachable ∧
    (s.world.forkAt ⟨0⟩).outcome = some (.error e) ∧ s.world.StandsFor ⟨0⟩ ⟨1⟩ ∧
    (s.world.lambdaAt ⟨0⟩).body = .script (.fail e) ∧ (s.world.lambdaAt ⟨0⟩).cache = .empty ∧
    (s.world.lambdaAt ⟨1⟩).cache = .empty ∧ 0 < s.world.config.maxDepth ∧
    (s.world.lambdaAt ⟨0⟩).scope = (s.world.lambdaAt ⟨1⟩).scope ∧
    (s.world.lambdaAt ⟨0⟩).source = (s.world.lambdaAt ⟨1⟩).source :=
  ⟨(start {} [] default).after
      [.mk "root" (.eval (.lambda "script" [] (.fail (.exception "boom")) none true) none),
        .mk "root" (.fork "failure" (.fail (.exception "boom")) "failure")], .exception "boom",
    ⟨_, _, _, _, rfl⟩, by cbv, ⟨by cbv, by cbv⟩, by cbv, by cbv, by cbv, by decide +kernel, by decide +kernel,
    by decide +kernel⟩

/-- All observers are told of the number, and whoever waits for it also gets it when the scope has been destroyed. From
then on no other fork is begun. The lambda of the fork that has failed is forced and computed as if its own script had
failed. -/
theorem fork_outcomes_agree_on_seven_and_failure : ∃ (s t : Session) (step : Step) (e : Error),
    let ctx := Context.ofThread mainThread
    let later := (s.after [step]).world
    (∀ observer : Observer, ∃ u, observer.look ⟨0⟩ ⟨0⟩ ctx s.world = .value (observer.told (.integer 7)) u) ∧
    (∃ u, ForkId.await ⟨0⟩ none ctx later = .value (.integer 7) u) ∧
    (∃ forked u, ScopeId.fork ⟨0⟩ "other" .void ctx s.world = .value forked u) ∧
    (∃ message, ScopeId.fork ⟨0⟩ "other" .void ctx later = .error (.assertion message) later) ∧
    LambdaId.force ⟨1⟩ ctx t.world = LambdaId.failing ⟨1⟩ e ctx t.world ∧
    LambdaId.force ⟨0⟩ ctx t.world = LambdaId.failing ⟨0⟩ e ctx t.world ∧
    LambdaId.evaluate ⟨1⟩ ctx t.world = LambdaId.evaluate ⟨0⟩ ctx t.world := by
  obtain ⟨s, step, reached, seven, stands, empty, deep, alive, destroyed⟩ := reaches_seven
  obtain ⟨t, e, reached', failure, stands', body, idle, idle', deep', scope, source⟩ := reaches_failure
  have thread : (Context.ofThread mainThread).thread = mainThread := Context.thread_ofBudget _ _
  obtain ⟨-, -, told, -, begun⟩ := fork_outcomes_agree reached seven []
  obtain ⟨-, waits, -, -, refused⟩ := fork_outcomes_agree reached seven [step]
  obtain ⟨-, -, -, failed, -⟩ := fork_outcomes_agree reached' failure []
  rw [after_nil] at told begun failed
  obtain ⟨-, told⟩ := told _ rfl nofun
  obtain ⟨looks, -⟩ := told ⟨0⟩ stands fun x hx => by rw [empty] at hx; cases hx
  obtain ⟨forces, scripts⟩ := failed _ rfl ⟨1⟩ stands'
  obtain ⟨script, same⟩ := scripts ⟨0⟩ body 999999 mainThread
  have lets : s.world.LetsForce ⟨0⟩ (Context.ofThread mainThread).thread := by
    rw [thread]
    exact ⟨deep, fun h => by rw [empty] at h; cases h⟩
  refine ⟨s, t, step, e, fun observer => ?_, ⟨_, (waits none _).1⟩, ?_, ?_, ?_, ?_, same scope source⟩
  · obtain ⟨u, run, -⟩ := looks observer _ lets
    exact ⟨u, run⟩
  · exact ⟨_, _, ((begun ⟨0⟩ "other" .void _).2 alive).1⟩
  · exact (refused ⟨0⟩ "other" .void _).1 destroyed
  · exact forces _ (fun _ => .inl idle') (by rwa [thread])
  · exact script (fun _ => .inl idle) deep'

/-- It is not so that a force always gives the value of the fork. Here one level may be open, and a lambda whose script
forces the value is forced. -/
theorem fork_refused_at_limit : ∃ s : Session, s.Reachable ∧
    (s.world.forkAt ⟨0⟩).outcome = some (.ok (.integer 7)) ∧ s.world.StandsFor ⟨0⟩ ⟨0⟩ ∧
    (s.world.lambdaAt ⟨1⟩).body = .script (.call .forced [.register "seven"] none) ∧
    (Entries.get? s.world.desk.registers "seven").bind Value.lambda? = some ⟨0⟩ ∧
    (s.step (.mk "root" (.eval (.call .forced [.register "outer"] none) none))).1.failure? =
      some ((Error.excessiveRecursion 2 1).addSource default) :=
  ⟨(start { maxDepth := 1, failFast := true } [] default).after
      [.mk "root" (.fork "seven" (.integer 7) "seven"),
        .mk "root" (.eval (.lambda "outer" [] (.call .forced [.register "seven"] none) none true) (some "outer"))],
    ⟨_, _, _, _, rfl⟩, by cbv, ⟨by cbv, by cbv⟩, by cbv, by decide +kernel, by decide +kernel⟩

end Session

end Reactor
