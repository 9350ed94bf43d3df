import Reactor.Proofs.Network.Alive
import Reactor.Proofs.Passes.Sweep

/-!
# Notification passes

A pass over a wired network invalidates all lambdas that it reaches before the first callback runs, so the
callbacks find a coherent state, and they leave one (`runAllCallbacks_yields`). In the end the network is
in order again if only lambdas that the pass reaches kept results that were out of date
(`propagate_yields`).
-/

namespace Reactor

/-- No lambda is being computed or notified. -/
structure World.Idle (w : World) : Prop where
  computed (k : LambdaId) (thread : ThreadId) : (w.lambdaAt k).cache ≠ .computing thread
  notified (k : LambdaId) : (w.lambdaAt k).notifying = []

/-- A thread is notifying the lambda. -/
def LambdaRecord.noted (thread : ThreadId) (record : LambdaRecord) : LambdaRecord :=
  { record with notifying := thread :: record.notifying }

/-- The network is wired and coherent, and nothing is under way. -/
structure World.InOrder (scope : ScopeId) (plan : Plan) (need : Nat) (calm : Prop) (w : World) :
    Prop where
  wired : w.Wired scope plan need calm
  idle : w.Idle
  coherent : w.Coherent scope plan

/-- A lambda depends on one of some others, directly or not, or is one of them. -/
inductive World.Reached (w : World) (roots : List LambdaId) : LambdaId → Prop
  | root {k : LambdaId} (h : k ∈ roots) : Reached w roots k
  | dependent {k id : LambdaId} (h : Reached w roots k) (hid : id ∈ w.dependents k) :
    Reached w roots id

namespace World

variable {scope : ScopeId} {plan : Plan} {need : Nat} {calm : Prop} {u v w : World}
  {k : LambdaId} {roots : List LambdaId}

theorem InOrder.warmed (h : w.InOrder scope plan need calm) :
    w.Warmed scope plan w.lambdas.size w :=
  ⟨.refl w, fun _ => rfl, fun _ thread => h.idle.computed _ thread, fun hc => h.coherent hc⟩

/-! ## Collecting lambdas -/

namespace Wired

variable (hw : w.Wired scope plan need calm)
include hw

theorem dependent_lt {id : LambdaId} (hid : id ∈ w.dependents k) : id.index < w.lambdas.size := by
  rcases Nat.lt_or_ge k.index w.lambdas.size with hk | hk
  · exact ((hw.mem_dependents_iff hk).1 hid).1
  · rw [dependents, lambdaAt_of_size_le hk] at hid
    cases hid

/-- All lambdas live, since the host holds them. -/
theorem hasLambda (hk : k.index < w.lambdas.size) (held : List Place) :
    (w.liveness held).hasLambda k = true :=
  hasLambda_of_held (hw.lambda hk).held held

/-- All registrations are those of lambdas that live. -/
theorem isCurrent (held : List Place) {entry : ListenerKey × Listener}
    (hentry : entry ∈ (w.lambdaAt k).listeners) : World.isCurrent (w.liveness held) entry.2 = true := by
  rcases Nat.lt_or_ge k.index w.lambdas.size with hk | hk
  · obtain ⟨key, listener⟩ := entry
    cases (hw.lambda hk).registered hentry with
    | dependent hid _ => exact hw.hasLambda hid held
    | callback _ _ => rfl
  · rw [lambdaAt_of_size_le hk] at hentry
    cases hentry

/-- The lambdas that a notification reaches are marked. -/
theorem enter_eq (hidle : w.Idle) (hroots : ∀ k ∈ roots, k.index < w.lambdas.size)
    (held : List Place) (thread : ThreadId) :
    ∃ reached v, w.enter (w.liveness held) thread roots = (reached, v) ∧
      reached = firsts [] (roots ++ reached.flatMap w.dependents) ∧
      w.Mapped (.noted thread) reached v := by
  have unnoted (k : LambdaId) : w.isNotifying thread k = true ↔ k ∈ [] := by
    rw [isNotifying, hidle.notified]
    simp
  have lives : w.liveDependents (w.liveness held) = w.dependents :=
    funext fun k => List.filter_eq_self.2 fun id hid => hw.hasLambda (hw.dependent_lt hid) held
  have known : w.Known (w.liveness held) thread roots := by
    intro k h
    cases h with
    | root h _ => exact hroots k h
    | dependent _ hid _ =>
      rw [lives] at hid
      exact hw.dependent_lt hid
  have collects := collects_enter w (w.liveness held) thread roots
  have order := collects.eq_firsts known unnoted
  rw [lives] at order
  refine ⟨_, _, rfl, order, (collects.mapped known).2.congr fun k => ?_⟩
  -- Nothing is dropped, since all registrations are current.
  have same := List.filter_eq_self.2 fun entry hentry => hw.isCurrent (k := k) held hentry
  exact congrArg (fun listeners => LambdaRecord.noted thread { w.lambdaAt k with listeners }) same

omit hw in
/-- What is reached is what depends on the lambdas to begin with. -/
theorem mem_of_reached {reached : List LambdaId}
    (heq : reached = firsts [] (roots ++ reached.flatMap w.dependents)) (h : w.Reached roots k) :
    k ∈ reached := by
  have mem (k : LambdaId) (hk : k ∈ roots ++ reached.flatMap w.dependents) : k ∈ reached := by
    rw [heq]
    exact mem_firsts_iff.2 ⟨List.not_mem_nil, hk⟩
  induction h with
  | root h => exact mem _ (List.mem_append_left _ h)
  | dependent _ hid ih =>
    exact mem _ (List.mem_append_right _ (List.mem_flatMap.2 ⟨_, ih, hid⟩))

theorem lt_of_mem_reached {reached : List LambdaId} (hroots : ∀ k ∈ roots, k.index < w.lambdas.size)
    (heq : reached = firsts [] (roots ++ reached.flatMap w.dependents)) (hk : k ∈ reached) :
    k.index < w.lambdas.size := by
  rw [heq] at hk
  rcases List.mem_append.1 (mem_firsts_iff.1 hk).2 with hk | hk
  · exact hroots k hk
  · obtain ⟨j, -, hk⟩ := List.mem_flatMap.1 hk
    exact hw.dependent_lt hk

end Wired

/-- A network with a lambda has at least one level. -/
theorem Wired.one_lt (hw : w.Wired scope plan need calm) (hk : k.index < w.lambdas.size) :
    1 < w.config.maxDepth := by
  have shallow := (hw.lambda hk).shallow
  apply Nat.lt_of_not_le
  intro hle
  rw [show w.config.maxDepth - 1 = 0 by omega] at shallow
  exact shallow

/-! ## Changes of what lambdas keep -/

theorem Mapped.similar {f : LambdaRecord → LambdaRecord} {ks : List LambdaId} (h : w.Mapped f ks v)
    (hf : ∀ k, f (w.lambdaAt k) = { w.lambdaAt k with
      cache := (f (w.lambdaAt k)).cache
      generation := (f (w.lambdaAt k)).generation
      notifying := (f (w.lambdaAt k)).notifying }) : w.Similar v where
  config := by rw [h.rest]
  scopes := by rw [h.rest]
  vars := by rw [h.rest]
  registers := by rw [h.rest]
  size := h.size
  record k := by
    rw [h.record]
    split
    · exact hf k
    · rfl

/-- All results of some lambdas are forgotten. None of them follows another one beside its inputs. -/
theorem Invalidated.mapped {ks : List LambdaId} (h : w.Invalidated ks v)
    (hfollowed : ∀ k, (w.lambdaAt k).followed = none) : w.Mapped dropResult ks v := by
  refine ⟨h.rest, h.size, fun k => ?_⟩
  have nobody : w.followersAmong ks k = [] := List.filter_eq_nil_iff.2 fun j _ => by simp [hfollowed]
  rw [h.record, nobody, unfollowed_nil]

theorem dropResult_eq {record : LambdaRecord} (h : record.followed = none) :
    dropResult record = { record with
      cache := (dropResult record).cache
      generation := (dropResult record).generation
      notifying := (dropResult record).notifying } := by
  cases record
  cases h
  rfl

theorem Wired.followed (hw : w.Wired scope plan need calm) (k : LambdaId) :
    (w.lambdaAt k).followed = none := by
  rcases Nat.lt_or_ge k.index w.lambdas.size with hk | hk
  · exact (hw.lambda hk).followed
  · rw [lambdaAt_of_size_le hk]
    rfl

end World

/-! ## Callbacks -/

/-- Whatever the thread holds, the computation ends, what is kept of the state is kept, and the condition holds of
the result; or it runs out of budget, unless it is sure to end. -/
def Context.Keeps {α : Type} (ctx : Context) (kept : World → Prop) (sure : Prop) (Q : Except Error α → Prop)
    (act : Eval α) : Prop :=
  ∀ ⦃held : List Place⦄ ⦃w : World⦄, kept w →
    (act { ctx with thread := { ctx.thread with held } } w).Ends sure fun r v => kept v ∧ Q r

namespace LambdaId

variable {ctx : Context} {kept : World → Prop} {sure : Prop}

/-- If each callback keeps it, all of them do. What fails is left to handlers. -/
theorem keeps_tellCallbacks {record : LambdaRecord} {value : Value} {callbacks : List Callback}
    (call : ∀ c ∈ callbacks, ctx.Keeps kept sure (fun _ => True) (Eval.evaluate c.body c.scope (some value)))
    (handle : ∀ e, ctx.Keeps kept sure (fun _ => True) (record.scope.handleError e)) :
    ctx.Keeps kept sure (fun _ => True) (tellCallbacks record value callbacks) := by
  intro held w hw
  unfold tellCallbacks
  induction callbacks generalizing w with
  | nil => exact .inr ⟨hw, trivial⟩
  | cons c callbacks ih =>
    obtain ⟨hc, call⟩ := List.forall_mem_cons.1 call
    rw [Eval.inTurn_cons, Eval.bind_apply, Eval.holding_apply, Eval.bind_apply]
    refine Outcome.Ends.bind (P := fun _ v => kept v) ?_ (fun _ v hv => ih call hv) fun _ v hv => ⟨hv, trivial⟩
    refine (hc hw).attempt.bind ?_ ?_
    · rintro r v ⟨r', hr, hv, -⟩
      cases hr
      cases r with
      | ok _ => exact .inr hv
      | error e =>
        dsimp only
        rw [Eval.bind_apply]
        exact (handle _ hv).bind (fun _ v h => .inr h.1) fun _ v h => h.1
    · rintro e v ⟨r', hr, -⟩
      cases hr

/-- If the force of each lambda and each callback keep it, a pass does that runs the callbacks. -/
theorem runAllCallbacks_ends (good : Value → Prop) {ks : List LambdaId}
    (force : ∀ k ∈ ks, ctx.Keeps kept sure (fun r => ∀ x, r = .ok x → good x) (Eval.force k))
    (call : ∀ k ∈ ks, ∀ w, kept w → ∀ c ∈ w.callbacks k, ∀ x, good x →
      ctx.Keeps kept sure (fun _ => True) (Eval.evaluate c.body c.scope (some x)))
    (handle : ∀ k ∈ ks, ∀ w, kept w → ∀ e,
      ctx.Keeps kept sure (fun _ => True) ((w.lambdaAt k).scope.handleError e))
    {w : World} (hw : kept w) : (runAllCallbacks ks ctx w).Ends sure fun _ v => kept v := by
  induction ks generalizing w with
  | nil => exact .inr hw
  | cons k ks ih =>
    obtain ⟨hforce, force⟩ := List.forall_mem_cons.1 force
    obtain ⟨hcall, call⟩ := List.forall_mem_cons.1 call
    obtain ⟨hhandle, handle⟩ := List.forall_mem_cons.1 handle
    rw [runAllCallbacks, Eval.bind_apply]
    refine Outcome.Ends.bind (P := fun _ v => kept v) ?_ (fun _ v hv => ih force call handle hv) fun _ v hv => hv
    unfold runCallbacks
    rw [Eval.bind_apply, Eval.gets_apply, Outcome.bind_value]
    have called := hcall w hw
    generalize w.callbacks k = callbacks at called
    cases callbacks with
    | nil => exact .inr hw
    | cons c callbacks =>
      dsimp only
      rw [Eval.bind_apply, Eval.holding_apply]
      refine (hforce hw).bind (fun x v h => ?_) fun e v h => h.1
      rw [Eval.holding_apply, record, Eval.bind_apply, Eval.gets_apply, Outcome.bind_value]
      exact (keeps_tellCallbacks (fun c hc => called c hc x (h.2 x rfl)) (hhandle v h.1) h.1).mono
        fun _ _ h => h.1

end LambdaId

section Callbacks

variable {scope : ScopeId} {plan : Plan} {need : Nat} {calm : Prop} {u w : World} {k : LambdaId}
  {budget : Nat} {thread : Thread} (hu : u.Wired scope plan need calm)
  (hdepth : thread.depth + (u.config.maxDepth - 1) ≤ u.config.maxDepth)
  (hbudget : 2 * (u.config.maxDepth - 1) + need + 2 ≤ budget)
include hu hdepth hbudget

theorem force_yields (hk : k.index < u.lambdas.size)
    (hw : u.Warmed scope plan u.lambdas.size w) :
    (Eval.force k (.machine LambdaId.force budget thread) w).Yields fun r v =>
      u.Warmed scope plan u.lambdas.size v ∧ Answers r (u.answer scope plan k) := by
  obtain ⟨budget, rfl⟩ : ∃ b, budget = b + 1 := ⟨budget - 1, by omega⟩
  rw [Eval.force_apply, Context.thread_machine]
  exact serves_force _ hu hk (hu.lambda hk).shallow hk hdepth (by omega) hw

/-- A callback keeps results at most, and fails with permitted errors only. -/
theorem callback_yields {c : Callback}
    (hc : c.body.Observes c.scope u.desk.registers need (Permitted calm)) (value : Value)
    (hw : u.Warmed scope plan u.lambdas.size w) :
    (Eval.evaluate c.body c.scope (some value) (.machine LambdaId.force budget thread) w).Yields
      fun r v => u.Warmed scope plan u.lambdas.size v ∧ ∀ e, r = .error e → Permitted calm e := by
  obtain ⟨budget, rfl⟩ : ∃ b, budget = b + 2 := ⟨budget - 2, by omega⟩
  rw [Eval.evaluate_apply, Context.thread_machine]
  have observed : (c.body.eval c.scope (some value) (.machine LambdaId.force (budget + 1) thread)
      w).Yields fun r v => u.Warmed scope plan u.lambdas.size v ∧
        ∀ e, r = .error e → Permitted calm e := by
    refine hc ?_ (fun hw hv => hw.beside hv) (fun {id thread' w'} hthread hw' hid => ?_)
      (fun w' hw' name value hvalue => ?_) value hw
    · rw [Context.budget_machine]
      omega
    · rw [Context.thread_machine] at hthread
      have hid : id.index < u.lambdas.size := hw'.recached.size ▸ hid
      exact (serves_force _ hu hid (hu.lambda hid).shallow hid (by omega) (by omega) hw').mono
        fun r v h => h.1
    · rw [hw'.recached.registers]
      exact hvalue
  exact observed

/-- Callbacks leave what is in order so. -/
theorem runAllCallbacks_yields {ks : List LambdaId} (hks : ∀ k ∈ ks, k.index < u.lambdas.size)
    (hw : u.Warmed scope plan u.lambdas.size w) :
    (LambdaId.runAllCallbacks ks (.machine LambdaId.force budget thread) w).Yields
      fun _ v => u.Warmed scope plan u.lambdas.size v := by
  suffices ends : (LambdaId.runAllCallbacks ks (.machine LambdaId.force budget thread) w).Ends True
      fun _ v => u.Warmed scope plan u.lambdas.size v from ends.yields trivial
  refine LambdaId.runAllCallbacks_ends (fun _ => True) (fun k hk held v hv => ?_)
    (fun k hk v hv c hc x _ held v' hv' => ?_) (fun k hk v hv e held v' hv' => ?_) hw
  all_goals rw [Context.machine_withThread, Context.thread_machine]
  · exact (force_yields hu (by exact hdepth) hbudget (hks k hk) hv).ends.mono fun r v h => ⟨h.1, fun _ _ => trivial⟩
  · obtain ⟨⟨key, listener⟩, hmem, hl⟩ := List.mem_filterMap.1 hc
    rw [hv.recached.similar.listeners] at hmem
    have observes : c.body.Observes c.scope u.desk.registers need (Permitted calm) := by
      cases (hu.lambda (hks k hk)).registered hmem with
      | dependent _ _ => cases hl
      | callback _ ho =>
        cases hl
        exact ho
    exact (callback_yields hu (by exact hdepth) hbudget observes x hv').ends.mono fun r v h => ⟨h.1, trivial⟩
  · have hscope : (v.lambdaAt k).scope = scope :=
      ((hv.wired hu).lambda (hv.recached.size ▸ hks k hk)).scope
    rw [hscope]
    exact (ScopeId.handleError_yields (fun _ => (hv'.wired hu).readable.unhandled) _).ends.mono
      fun r v h => ⟨hv'.beside h.1, trivial⟩

end Callbacks

/-! ## The whole pass -/

namespace World

variable {scope : ScopeId} {plan : Plan} {need : Nat} {calm : Prop} {u v w x : World} {k : LambdaId}
  {roots reached : List LambdaId} {budget : Nat} {thread : Thread} {id : ThreadId}

/-- What holds when all lambdas that a pass reaches have been invalidated: results that are still kept
are up to date. -/
structure Prepared (scope : ScopeId) (plan : Plan) (id : ThreadId) (reached : List LambdaId)
    (w v : World) : Prop where
  similar : w.Similar v
  warmed : v.Warmed scope plan v.lambdas.size v
  notifying (k : LambdaId) : (v.lambdaAt k).notifying = if k ∈ reached then [id] else []
  forgotten {k : LambdaId} (h : k ∈ reached) (x : Value) : (v.lambdaAt k).cache ≠ .holding x

theorem Wired.prepared (hw : w.Wired scope plan need calm) (hidle : w.Idle)
    (hroots : ∀ k ∈ roots, k.index < w.lambdas.size)
    (heq : reached = firsts [] (roots ++ reached.flatMap w.dependents))
    (hv : w.Mapped (.noted id) reached v)
    (hcoherent : ∀ {k : LambdaId} {x : Value}, (w.lambdaAt k).cache = .holding x →
      ¬w.Reached roots k → Answers (.ok x) (w.answer scope plan k)) :
    w.Prepared scope plan id reached (reached.foldl World.invalidate v) := by
  have similar : w.Similar v := hv.similar fun _ => rfl
  have followed := (similar.wired hw).followed
  have nodup : reached.Nodup := heq ▸ nodup_firsts ..
  have invalidated : v.Invalidated reached (reached.foldl World.invalidate v) :=
    .foldl nodup fun k hk => Nat.lt_of_lt_of_eq (hw.lt_of_mem_reached hroots heq hk) hv.size.symm
  have dropped := invalidated.mapped followed
  generalize reached.foldl World.invalidate v = v' at dropped
  have similar' : v.Similar v' := by
    exact dropped.similar fun k => dropResult_eq (followed k)
  have both := similar.trans similar'
  have cache (k : LambdaId) : (v.lambdaAt k).cache = (w.lambdaAt k).cache := by
    rw [hv.record]
    split <;> rfl
  refine ⟨both, ⟨.refl _, fun _ => rfl, fun {k} _ other => ?_, fun {k x} hc => ?_⟩, fun k => ?_,
    fun {k} hk x => ?_⟩
  · rw [dropped.record]
    have hnot := cache k ▸ hidle.computed k other
    split
    · unfold dropResult
      dsimp only
      split
      · intro h
        cases h
      · exact hnot
    · exact hnot
  · rw [both.answer]
    rw [dropped.record] at hc
    split at hc
    · exact absurd hc (cache_dropResult_ne_holding _ _)
    · rename_i hk
      exact hcoherent (cache k ▸ hc) fun h => hk (Wired.mem_of_reached heq h)
  · have notified : (v.lambdaAt k).notifying = if k ∈ reached then [id] else [] := by
      rw [hv.record]
      split
      · show id :: (w.lambdaAt k).notifying = _
        rw [hidle.notified]
      · exact hidle.notified k
    rw [dropped.record, ← notified]
    split <;> rfl
  · rw [dropped.record, if_pos hk]
    exact cache_dropResult_ne_holding _ x

/-- When the callbacks have run, nothing is under way any more. -/
theorem Prepared.inOrder (h : w.Prepared scope plan id reached v)
    (hw : w.Wired scope plan need calm) (hreached : ∀ k ∈ reached, k.index < w.lambdas.size)
    (hnodup : reached.Nodup) (hx : v.Warmed scope plan v.lambdas.size x) :
    w.Similar (reached.foldl (fun w k => w.leaveNotify id k) x) ∧
      (reached.foldl (fun w k => w.leaveNotify id k) x).InOrder scope plan need calm := by
  have size : x.lambdas.size = w.lambdas.size := hx.recached.size.trans h.similar.size
  have left : x.Mapped
      (fun record => { record with notifying := record.notifying.filter (· ≠ id) }) reached
      (reached.foldl (fun w k => w.leaveNotify id k) x) :=
    .foldl hnodup fun k hk => Nat.lt_of_lt_of_eq (hreached k hk) size.symm
  generalize reached.foldl (fun w k => w.leaveNotify id k) x = y at left
  have similar : w.Similar y :=
    (h.similar.trans hx.recached.similar).trans (left.similar fun _ => rfl)
  have cache (k : LambdaId) : (y.lambdaAt k).cache = (x.lambdaAt k).cache := by
    rw [left.record]
    split <;> rfl
  refine ⟨similar, similar.wired hw, ⟨fun k other => ?_, fun k => ?_⟩, fun {k value} hc => ?_⟩
  · rw [cache]
    rcases Nat.lt_or_ge k.index x.lambdas.size with hk | hk
    · exact hx.idle (hx.recached.size ▸ hk) other
    · rw [lambdaAt_of_size_le hk]
      intro h
      cases h
  · have notified : (x.lambdaAt k).notifying = if k ∈ reached then [id] else [] := by
      rw [hx.recached.record]
      exact h.notifying k
    rw [left.record]
    split
    · rename_i hk
      show (x.lambdaAt k).notifying.filter _ = []
      rw [notified, if_pos hk]
      simp
    · rename_i hk
      rw [notified, if_neg hk]
  · rw [cache] at hc
    rw [similar.answer, ← h.similar.answer]
    exact hx.coherent hc

theorem not_reached_nil (h : w.Reached [] k) : False := by
  induction h with
  | root h => cases h
  | dependent _ _ ih => exact ih

/-- A pass marks the lambdas that it reaches, invalidates all of them, and then runs their callbacks. There are
levels enough for what they force. -/
theorem propagate_prepared (hw : w.Wired scope plan need calm) (hidle : w.Idle) (hne : roots ≠ [])
    (hroots : ∀ k ∈ roots, k.index < w.lambdas.size) (hthread : thread.depth = 0)
    (hcoherent : ∀ {k : LambdaId} {x : Value}, (w.lambdaAt k).cache = .holding x →
      ¬w.Reached roots k → Answers (.ok x) (w.answer scope plan k)) :
    ∃ reached v, reached = firsts [] (roots ++ reached.flatMap w.dependents) ∧
      w.Prepared scope plan thread.id reached v ∧
      thread.depth + 1 + (v.config.maxDepth - 1) ≤ v.config.maxDepth ∧
      LambdaId.propagate roots (.ofBudget budget thread) w =
        serve thread.id reached
          (.machine LambdaId.force budget { thread with depth := thread.depth + 1 }) v := by
  obtain ⟨root, hroot⟩ := List.exists_mem_of_ne_nil roots hne
  have hlevels := hw.one_lt (hroots root hroot)
  obtain ⟨reached, v, henter, heq, hmapped⟩ := hw.enter_eq hidle hroots thread.held thread.id
  have prepared := hw.prepared hidle hroots heq hmapped hcoherent
  refine ⟨reached, reached.foldl World.invalidate v, heq, prepared, ?_, ?_⟩
  · rw [prepared.similar.config]
    omega
  · have shallow : (Context.machine LambdaId.force budget thread).thread.depth < w.config.maxDepth := by
      rw [Context.thread_machine]
      omega
    have run := LambdaId.propagate_eq_serve (v := v) hne shallow (by rwa [Context.thread_machine])
    rw [Context.machine_withThread, Context.thread_machine] at run
    rwa [Context.ofBudget_eq_machine]

theorem propagate_yields (hw : w.Wired scope plan need calm) (hidle : w.Idle)
    (hroots : ∀ k ∈ roots, k.index < w.lambdas.size) (hthread : thread.depth = 0)
    (hbudget : 2 * w.config.maxDepth + need ≤ budget)
    (hcoherent : ∀ {k : LambdaId} {x : Value}, (w.lambdaAt k).cache = .holding x →
      ¬w.Reached roots k → Answers (.ok x) (w.answer scope plan k)) :
    (LambdaId.propagate roots (.ofBudget budget thread) w).Yields fun _ v =>
      w.Similar v ∧ v.InOrder scope plan need calm := by
  by_cases hne : roots = []
  · subst hne
    exact ⟨.refl w, hw, hidle, fun hc => hcoherent hc not_reached_nil⟩
  obtain ⟨reached, v, heq, prepared, deep, run⟩ := propagate_prepared hw hidle hne hroots hthread hcoherent
  have hreached := fun k hk => hw.lt_of_mem_reached (k := k) hroots heq hk
  have config : v.config.maxDepth = w.config.maxDepth := by rw [prepared.similar.config]
  rw [run]
  refine Eval.yields_attempt (P := fun _ x => v.Warmed scope plan v.lambdas.size x) ?_ fun r x hx => ?_
  · rw [Eval.holding_apply, Context.machine_withThread, Context.thread_machine]
    exact runAllCallbacks_yields (prepared.similar.wired hw) (by exact deep) (by omega)
      (fun k hk => prepared.similar.size ▸ hreached k hk) prepared.warmed
  · rw [Eval.bind_apply, Eval.modify_apply, Outcome.bind_value]
    exact Eval.yields_ofExcept (prepared.inOrder hw hreached (heq ▸ nodup_firsts ..) hx)

end World

end Reactor
