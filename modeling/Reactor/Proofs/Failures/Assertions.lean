import Reactor.Proofs.Failures.Forces

/-!
# Broken assertions

A broken assertion is not offered to handlers: wherever it meets a scope on its way, it is returned from
there as a failure, without a report. This holds if it was given to a scope in the first place, if a handler
breaks it and there is a scope above that of the handler, and if the computation of a lambda that is forced
breaks it; that lambda then keeps no result.

The one way on which it does not meet a scope is that of a handler of the last scope, the root. The
failure of such a handler has passed all scopes, and all that has is reported and surfaces as the
configuration says, assertions too (`Bubbles.assertion_kept`). So without failing fast a broken assertion
becomes a value (`ScopeId.assertion_becomes_value`).
-/

namespace Reactor

open Outcome (Reaches)

variable {between : World → World → Prop} {ctx : Context} {u v w : World} {k : LambdaId} {e f : Error}

/-- If a handler fails, it was the last one to be called, and its failure is that of all. -/
theorem Tried.eq_of_failed {child : ScopeId} {handlers : List Value} {calls : List HandlerCall}
    {y : Outcome Unit} (h : Tried between ctx child handlers w calls y) {call : HandlerCall}
    (hcall : call ∈ calls) (hf : call.result = .error f u) : y = .error f u := by
  induction h with
  | done => cases hcall
  | skipped _ _ ih => exact ih hcall
  | succeeded _ _ _ ih =>
    rcases List.mem_cons.1 hcall with rfl | hcall
    · cases hf
    · exact ih hcall
  | failed _ _ =>
    obtain rfl := List.mem_singleton.1 hcall
    cases hf
    rfl
  | brokeOff _ _ | exhausted _ _ =>
    obtain rfl := List.mem_singleton.1 hcall
    cases hf

/-- A handler was called when an error was offered to a scope, which ended in some way. -/
def CalledAt (between : World → World → Prop) (scope : ScopeId) (call : HandlerCall)
    (y : Outcome Unit) : Prop :=
  ∃ ctx e w calls, Offered between ctx scope e w calls y ∧ call ∈ calls

/-- The assertion that a handler breaks is returned, unless the handler is one of the last scope. Then
it is reported, and surfaces as other errors do. -/
theorem Bubbles.assertion_kept {scopes : List ScopeId} {calls : List HandlerCall} {y : Outcome Value}
    (h : Bubbles ErrorKind.isBarred between ctx scopes e w calls y) {call : HandlerCall}
    (hcall : call ∈ calls) (hf : call.result = .error f u) (barred : f.kind.isBarred = true) :
    ∃ scope outer v, scope :: outer <:+ scopes ∧ CalledAt between scope call (.error f u) ∧
      v.reports = u.reports ∧
      y = if outer = [] then (v.report f).surface f else .error f v := by
  induction h with
  | reported | stopped _ => cases hcall
  | @moved _ scope scopes _ _ _ _ _ _ _ ih =>
    obtain ⟨inner, outer, v, suffix, called, reports, hy⟩ := ih hcall
    exact ⟨inner, outer, v, suffix.trans (List.suffix_cons scope scopes), called, reports, hy⟩
  | taken _ offered | brokeOff _ offered | exhausted _ offered =>
    cases offered.tried.eq_of_failed hcall hf
  | @passed ctx scope scopes e g t w _ _ y _ offered rest ih =>
    rcases List.mem_append.1 hcall with hcall | hcall
    · have same := offered.tried.eq_of_failed hcall hf
      cases same
      refine ⟨scope, scopes, u.endScope w.nextScope, List.suffix_rfl, ⟨_, _, _, _, offered, hcall⟩,
        rfl, ?_⟩
      cases rest with
      | reported => rfl
      | stopped _ => rfl
      | moved h _ _ | taken h _ | passed h _ _ | brokeOff h _ | exhausted h _ =>
        rw [barred] at h
        cases h
    · obtain ⟨inner, outer, v, suffix, called, reports, hy⟩ := ih hcall
      exact ⟨inner, outer, v, suffix.trans (List.suffix_cons scope scopes), called, reports, hy⟩

/-! ## Scopes -/

namespace ScopeId

/-- A scope returns a broken assertion at once. -/
theorem handleError_of_assertion {scope : ScopeId} (he : e.kind.isRecoverable = false) :
    scope.handleError e ctx w = .error e w := by
  obtain ⟨outer, chain⟩ : ∃ outer, w.ancestors scope = scope :: outer :=
    ⟨_, (List.cons_head?_tail (w.head?_ancestors scope)).symm⟩
  rw [handleError_apply, chain, handleAlong_stopped scope outer he]

end ScopeId

/-! ## Forces -/

/-- When a failure is settled, nothing comes to be held. -/
theorem World.holding_of_closed_error {thread : ThreadId} {j : LambdaId} {value : Value}
    (h : ((w.closed thread k (.error e) u).lambdaAt j).cache = .holding value) :
    (u.lambdaAt j).cache = .holding value := by
  have settled (record : LambdaRecord) (generation : Nat)
      (h : (LambdaId.settle thread generation (.error e) record).cache = .holding value) :
      record.cache = .holding value := by
    unfold LambdaId.settle at h
    split at h
    · contradiction
    · split at h
      · exact h
      · cases h
    · exact h
  unfold closed at h
  split at h
  · rw [lambdaAt_modifyLambda] at h
    split at h
    · exact settled _ _ h
    · exact h
  · exact h

/-- **Broken assertions surface.** A scope that is given one returns it as a failure and changes nothing.
If a handler breaks one, that is what the scope of the error returns, as a failure and without a report;
but if the handler is one of the last scope, the assertion is reported and surfaces as the configuration
says. A force whose computation breaks one returns it with the source of the lambda as a failure, reports
nothing and keeps nothing. -/
theorem ScopeId.assertions_surface (between : World → World → Prop) (ctx : Context) (w : World) :
    (∀ scope e y, e.kind.isBarred = true →
      ((handleError scope e ctx w).Reaches between y ↔ y = .error e w)) ∧
    (∀ scope e y, ((handleError scope e ctx w).Reaches between y ↔
        ∃ calls, Bubbles ErrorKind.isBarred between ctx (w.ancestors scope) e w calls y) ∧
      ∀ calls, Bubbles ErrorKind.isBarred between ctx (w.ancestors scope) e w calls y →
        ∀ call ∈ calls, ∀ f u, call.result = .error f u → f.kind.isBarred = true →
          ∃ inner outer v, inner :: outer <:+ w.ancestors scope ∧
            CalledAt between inner call (.error f u) ∧ v.reports = u.reports ∧
            y = if outer = [] then (v.report f).surface f else .error f v) ∧
    ∀ k e u, (w.lambdaAt k).Opens ctx.thread.id → e.kind.isBarred = true →
      (k.run (w.lambdaAt k).scope ctx (w.opened ctx.thread.id k)).Reaches between (.error e u) →
        ∃ v, (k.force ctx w).Reaches between (.error (e.addSource (w.lambdaAt k).source) v) ∧
          v.reports = u.reports ∧
          ∀ j value, (v.lambdaAt j).cache = .holding value → (u.lambdaAt j).cache = .holding value := by
  have recoverable {e : Error} (he : e.kind.isBarred = true) : e.kind.isRecoverable = false := by
    simpa [ErrorKind.isBarred] using he
  refine ⟨fun scope e y he => ?_, fun scope e y => ⟨?_, fun calls bubbles call hcall f u hf barred => ?_⟩,
    fun k e u opens he run => ?_⟩
  · rw [handleError_of_assertion (recoverable he), Outcome.reaches_error_iff]
  · rw [handleError_apply, reaches_handleAlong_iff]
  · exact bubbles.assertion_kept hcall hf barred
  · refine ⟨_, LambdaId.reaches_force_of_run_error opens run (handleError_of_assertion ?_),
      World.reports_closed, fun j value h => World.holding_of_closed_error h⟩
    rw [Error.addSource_kind, recoverable he]

/-- The handler of the lower of two scopes breaks an assertion, which the scope of the error returns. The
handler of the upper one would have taken an error. So does a force of the handler that breaks it. -/
theorem ScopeId.assertion_surfaces_below :
    let w := World.ofHandlers .void (.fail (.assertion "broken"))
    let ctx := Context.ofBudget 2 { id := 0 }
    let e := Error.assertion "broken"
    e.kind.isBarred = true ∧
      (handleError ⟨1⟩ e ctx w).Reaches (fun _ _ => False) (.error e w) ∧
      (∃ calls u, Bubbles ErrorKind.isBarred (fun _ _ => False) ctx (w.ancestors ⟨1⟩)
          (.new .exception "boom") w calls (.error e u) ∧
        ∃ call ∈ calls, (∃ u, call.result = .error e u) ∧
          ∃ (inner : ScopeId) (outer : List ScopeId) (v : World), inner :: outer <:+ w.ancestors ⟨1⟩ ∧
            Outcome.error e u = if outer = [] then (v.report e).surface e else .error e v) ∧
      ∃ v, (LambdaId.force ⟨1⟩ ctx w).Reaches (fun _ _ => False) (.error (e.addSource default) v) ∧
        v.reports = [] := by
  intro w ctx e
  obtain ⟨given, handled, forced⟩ := assertions_surface (fun _ _ => False) ctx w
  refine ⟨rfl, (given ⟨1⟩ e _ rfl).2 rfl, ?_, ?_⟩
  · have bubbles : Bubbles ErrorKind.isBarred (fun _ _ => False) ctx (w.ancestors ⟨1⟩)
        (.new .exception "boom") w _ (.error e _) :=
      .passed rfl ⟨nofun, rfl, .failed rfl .error⟩ (.stopped rfl)
    obtain ⟨inner, outer, v, suffix, -, -, hy⟩ :=
      (handled ⟨1⟩ _ _).2 _ bubbles _ List.mem_cons_self e _ rfl rfl
    exact ⟨_, _, bubbles, _, List.mem_cons_self, ⟨_, rfl⟩, inner, outer, v, suffix, hy⟩
  · obtain ⟨v, surfaces, reports, -⟩ := forced ⟨1⟩ e _ (fun _ => .inl rfl) rfl .error
    exact ⟨v, surfaces, reports⟩

/-- It is not so that a broken assertion always surfaces as a failure: that of a handler of the root
becomes a value. -/
theorem ScopeId.assertion_becomes_value :
    let w := World.ofHandlers (.fail (.assertion "broken")) .void
    ∃ calls u, handleError ⟨0⟩ (.new .exception "boom") (.ofBudget 2 { id := 0 }) w =
        .value (.failure (.assertion "broken")) u ∧
      Bubbles ErrorKind.isBarred (fun _ _ => False) (.ofBudget 2 { id := 0 }) (w.ancestors ⟨0⟩)
        (.new .exception "boom") w calls (.value (.failure (.assertion "broken")) u) ∧
      ∃ call ∈ calls, ∃ v, call.result = .error (.assertion "broken") v := by
  refine ⟨_, _, rfl, .passed rfl ⟨nofun, rfl, .failed rfl .error⟩ .reported, _, List.mem_cons_self, _, rfl⟩

end Reactor
