import Reactor.Proofs.Reaches

/-!
# Errors on their way through the scopes

`Tried` says how the handlers of one scope run, `Bubbles` how an error goes from scope to scope. Both
are relations with a case for each thing that can happen, and list the handlers that are called. They
hold of exactly what the engine does (`reaches_runHandlers_iff`, `reaches_handleAlong_iff`), whatever
the handlers do, also if they wait.

Which causes are offered to no handler is a parameter of `Bubbles`. For the engine these are the broken
assertions (`ErrorKind.isBarred`), also those that a handler breaks.
-/

namespace Reactor

open Outcome (Reaches)

/-- A handler that was called, with the states in which it began and how it ended. -/
structure HandlerCall where
  lambda : LambdaId
  scope : ScopeId
  before : World
  result : Outcome Value

/-- The number that the next scope takes. -/
def World.nextScope (w : World) : ScopeId :=
  ⟨w.scopes.size⟩

/-- A context in which the thread holds some more places. -/
def Context.hold (ctx : Context) (places : List Place) : Context :=
  { ctx with thread := { ctx.thread with held := places ++ ctx.thread.held } }

/-- The context in which the handlers of a scope run, and in which the failure of one goes on. -/
def Context.offering (ctx : Context) (w : World) (scope : ScopeId) : Context :=
  (ctx.hold (itemsPlaces (w.scopeAt scope).handlers)).hold [.scope w.nextScope]

namespace World

/-- The scope in which the handlers of another one run for an error. -/
def handlerScope (w : World) (scope : ScopeId) (e : Error) : ScopeRecord :=
  { name := "error-handler"
    parent := some scope
    source := (w.scopeAt scope).source
    pure := (w.scopeAt scope).pure
    parameterScope := true
    parameters := [("type", .string e.kind.name), ("msg", .string e.message)] }

/-- A scope for the handlers of another one has been made. -/
def openHandlers (w : World) (scope : ScopeId) (e : Error) : World :=
  { w with scopes := w.scopes.push (w.handlerScope scope e) }

/-- A scope is destroyed. -/
def endScope (w : World) (scope : ScopeId) : World :=
  w.modifyScope scope ScopeRecord.ended

/-- An error is reported. -/
def report (w : World) (e : Error) : World :=
  { w with reports := w.reports ++ [{ error := e }] }

/-- What becomes of an error that passed all scopes and has been reported. -/
def surface (w : World) (e : Error) : Outcome Value :=
  if w.config.failFast then .error e w else .value (.failure e) w

end World

/-- The handlers of a scope are tried in order. Those that are lambdas are computed in a scope, one
after the other, up to the first that does not succeed. -/
inductive Tried (between : World → World → Prop) (ctx : Context) (child : ScopeId) :
    List Value → World → List HandlerCall → Outcome Unit → Prop
  | done {w : World} : Tried between ctx child [] w [] (.value () w)
  | skipped {handler : Value} {handlers : List Value} {w : World} {calls : List HandlerCall}
    {y : Outcome Unit} (h : handler.lambda? = none)
    (rest : Tried between ctx child handlers w calls y) :
    Tried between ctx child (handler :: handlers) w calls y
  | succeeded {handler : Value} {handlers : List Value} {lambda : LambdaId} {u w : World}
    {v : Value} {calls : List HandlerCall} {y : Outcome Unit} (h : handler.lambda? = some lambda)
    (run : (lambda.applyIn child ctx w).Reaches between (.value v u))
    (rest : Tried between ctx child handlers u calls y) :
    Tried between ctx child (handler :: handlers) w (⟨lambda, child, w, .value v u⟩ :: calls) y
  | failed {handler : Value} {handlers : List Value} {lambda : LambdaId} {u w : World} {f : Error}
    (h : handler.lambda? = some lambda)
    (run : (lambda.applyIn child ctx w).Reaches between (.error f u)) :
    Tried between ctx child (handler :: handlers) w [⟨lambda, child, w, .error f u⟩] (.error f u)
  | brokeOff {handler : Value} {handlers : List Value} {lambda : LambdaId} {u w : World}
    {message : Option String} (h : handler.lambda? = some lambda)
    (run : (lambda.applyIn child ctx w).Reaches between (.panic message u)) :
    Tried between ctx child (handler :: handlers) w [⟨lambda, child, w, .panic message u⟩]
      (.panic message u)
  | exhausted {handler : Value} {handlers : List Value} {lambda : LambdaId} {w : World}
    (h : handler.lambda? = some lambda)
    (run : (lambda.applyIn child ctx w).Reaches between .exhausted) :
    Tried between ctx child (handler :: handlers) w [⟨lambda, child, w, .exhausted⟩] .exhausted

/-- The handlers of a scope that is alive are offered an error. They run in a scope that is made for
them, and are held meanwhile. -/
structure Offered (between : World → World → Prop) (ctx : Context) (scope : ScopeId) (e : Error)
    (w : World) (calls : List HandlerCall) (y : Outcome Unit) : Prop where
  handlers : (w.scopeAt scope).handlers ≠ []
  alive : (w.scopeAt scope).destroyed = false
  tried : Tried between (ctx.offering w scope) w.nextScope (w.scopeAt scope).handlers
    (w.openHandlers scope e) calls y

/-- An error goes through scopes, innermost first, until handlers take it. Causes that are barred are
not offered to any scope. -/
inductive Bubbles (barred : ErrorKind → Bool) (between : World → World → Prop) :
    Context → List ScopeId → Error → World → List HandlerCall → Outcome Value → Prop
  /-- The error passed all scopes. -/
  | reported {ctx : Context} {e : Error} {w : World} :
    Bubbles barred between ctx [] e w [] ((w.report e).surface e)
  | stopped {ctx : Context} {scope : ScopeId} {scopes : List ScopeId} {e : Error} {w : World}
    (h : barred e.kind = true) : Bubbles barred between ctx (scope :: scopes) e w [] (.error e w)
  /-- A scope without handlers, or one that has been destroyed. -/
  | moved {ctx : Context} {scope : ScopeId} {scopes : List ScopeId} {e : Error} {w : World}
    {calls : List HandlerCall} {y : Outcome Value} (h : barred e.kind = false)
    (hscope : (w.scopeAt scope).handlers = [] ∨ (w.scopeAt scope).destroyed = true)
    (rest : Bubbles barred between ctx scopes e w calls y) :
    Bubbles barred between ctx (scope :: scopes) e w calls y
  /-- All handlers of a scope succeeded. -/
  | taken {ctx : Context} {scope : ScopeId} {scopes : List ScopeId} {e : Error} {u w : World}
    {calls : List HandlerCall} (h : barred e.kind = false)
    (offered : Offered between ctx scope e w calls (.value () u)) :
    Bubbles barred between ctx (scope :: scopes) e w calls (.value .void (u.endScope w.nextScope))
  /-- A handler of a scope failed. Its failure goes on in place of the error. -/
  | passed {ctx : Context} {scope : ScopeId} {scopes : List ScopeId} {e f : Error} {u w : World}
    {calls calls' : List HandlerCall} {y : Outcome Value} (h : barred e.kind = false)
    (offered : Offered between ctx scope e w calls (.error f u))
    (rest : Bubbles barred between (ctx.offering w scope) scopes f (u.endScope w.nextScope) calls'
      y) :
    Bubbles barred between ctx (scope :: scopes) e w (calls ++ calls') y
  | brokeOff {ctx : Context} {scope : ScopeId} {scopes : List ScopeId} {e : Error} {u w : World}
    {calls : List HandlerCall} {message : Option String} (h : barred e.kind = false)
    (offered : Offered between ctx scope e w calls (.panic message u)) :
    Bubbles barred between ctx (scope :: scopes) e w calls (.panic message u)
  | exhausted {ctx : Context} {scope : ScopeId} {scopes : List ScopeId} {e : Error} {w : World}
    {calls : List HandlerCall} (h : barred e.kind = false)
    (offered : Offered between ctx scope e w calls .exhausted) :
    Bubbles barred between ctx (scope :: scopes) e w calls .exhausted

/-! ## The handlers of one scope -/

variable {between : World → World → Prop} {ctx : Context} {w : World}

namespace ScopeId

theorem runHandlers_of_none {child : ScopeId} {handler : Value} (h : handler.lambda? = none)
    (handlers : List Value) :
    child.runHandlers (handler :: handlers) = child.runHandlers handlers := by
  rw [runHandlers, h]

theorem runHandlers_of_some {child : ScopeId} {handler : Value} {lambda : LambdaId}
    (h : handler.lambda? = some lambda) (handlers : List Value) :
    child.runHandlers (handler :: handlers) =
      lambda.applyIn child >>= fun _ => child.runHandlers handlers := by
  rw [runHandlers, h]

end ScopeId

theorem reaches_runHandlers_iff {child : ScopeId} {handlers : List Value} {y : Outcome Unit} :
    (child.runHandlers handlers ctx w).Reaches between y ↔
      ∃ calls, Tried between ctx child handlers w calls y := by
  induction handlers generalizing w with
  | nil =>
    rw [ScopeId.runHandlers, Eval.pure_apply, Outcome.reaches_value_iff]
    constructor
    · rintro rfl
      exact ⟨[], .done⟩
    · rintro ⟨calls, tried⟩
      cases tried
      rfl
  | cons handler handlers ih =>
    cases h : handler.lambda? with
    | none =>
      rw [ScopeId.runHandlers_of_none h, ih]
      constructor
      · rintro ⟨calls, tried⟩
        exact ⟨calls, .skipped h tried⟩
      · rintro ⟨calls, tried⟩
        cases tried with
        | skipped _ rest => exact ⟨_, rest⟩
        | succeeded h' _ _ | failed h' _ | brokeOff h' _ | exhausted h' _ =>
          rw [h] at h'
          cases h'
    | some lambda =>
      rw [ScopeId.runHandlers_of_some h, Eval.bind_apply, Outcome.reaches_bind_iff]
      constructor
      · rintro ⟨x, run, rest⟩
        cases x with
        | value v u =>
          obtain ⟨calls, tried⟩ := ih.1 rest
          exact ⟨_, .succeeded h run tried⟩
        | error f u =>
          obtain rfl := Outcome.reaches_error_iff.1 rest
          exact ⟨_, .failed h run⟩
        | panic message u =>
          obtain rfl := Outcome.reaches_panic_iff.1 rest
          exact ⟨_, .brokeOff h run⟩
        | exhausted =>
          obtain rfl := Outcome.reaches_exhausted_iff.1 rest
          exact ⟨_, .exhausted h run⟩
        | waiting on u resume => exact (Outcome.not_reaches_waiting run).elim
      · rintro ⟨calls, tried⟩
        cases tried with
        | skipped h' _ =>
          rw [h] at h'
          cases h'
        | succeeded h' run rest =>
          cases h.symm.trans h'
          exact ⟨_, run, ih.2 ⟨_, rest⟩⟩
        | failed h' run =>
          cases h.symm.trans h'
          exact ⟨_, run, .error⟩
        | brokeOff h' run =>
          cases h.symm.trans h'
          exact ⟨_, run, .panic⟩
        | exhausted h' run =>
          cases h.symm.trans h'
          exact ⟨_, run, .exhausted⟩

/-! ## The scope that is made for handlers -/

namespace World

theorem modifyScope_modifyScope (w : World) (scope : ScopeId) (f g : ScopeRecord → ScopeRecord) :
    (w.modifyScope scope f).modifyScope scope g = w.modifyScope scope (g ∘ f) := by
  have twice : (w.scopes.modify scope.index f).modify scope.index g =
      w.scopes.modify scope.index (g ∘ f) := by
    ext i
    · simp
    · grind
  simp only [modifyScope, twice]

/-- The scope that was made last is changed. -/
theorem modifyScope_nextScope (w : World) (record : ScopeRecord) (f : ScopeRecord → ScopeRecord) :
    ({ w with scopes := w.scopes.push record } : World).modifyScope w.nextScope f =
      { w with scopes := w.scopes.push (f record) } := by
  have last : (w.scopes.push record).modify w.scopes.size f = w.scopes.push (f record) := by
    ext i
    · simp
    · grind
  simp only [modifyScope, nextScope, last]

theorem scopeAt_nextScope (w : World) (record : ScopeRecord) :
    ({ w with scopes := w.scopes.push record } : World).scopeAt w.nextScope = record := by
  exact (getD_push ..).trans (if_pos rfl)

end World

namespace ScopeId

/-- A name that is not a number is bound in a live scope. -/
theorem bind_of_alive {scope : ScopeId} {key : String} (value : Value)
    (hscope : (w.scopeAt scope).destroyed = false) (hkey : isPositional key = false) :
    scope.bind key value ctx w = .value value (w.modifyScope scope fun record =>
      { record with
        parameterScope := true, parameters := Entries.insert record.parameters key value }) := by
  unfold bind checkAlive record
  simp only [Eval.bind_apply, Eval.gets_apply, Outcome.bind_value, hscope, hkey]
  exact congrArg (Outcome.value value) (World.modifyScope_modifyScope _ _ _ _)

/-- A handler scope can always be made. -/
theorem child_of_alive {scope : ScopeId} (h : (w.scopeAt scope).destroyed = false) (name : String) :
    scope.child (w.scopeAt scope).pure name ctx w =
      .value w.nextScope { w with
        scopes := w.scopes.push
          { name, parent := some scope, source := (w.scopeAt scope).source
            pure := (w.scopeAt scope).pure } } := by
  unfold child checkAlive record create
  simp [h, World.nextScope]

/-- The handlers run when both parameters have been bound; then their scope ends. -/
theorem offer_apply (scope : ScopeId) (e : Error) (handlers : List Value) :
    w.nextScope.offer handlers e ctx { w with
        scopes := w.scopes.push
          { name := "error-handler", parent := some scope, source := (w.scopeAt scope).source
            pure := (w.scopeAt scope).pure } } =
      (w.nextScope.runHandlers handlers ctx (w.openHandlers scope e)).attempt.bind
        fun outcome u => .value outcome (u.endScope w.nextScope) := by
  have kind : isPositional "type" = false := by decide
  have message : isPositional "msg" = false := by decide
  unfold offer
  rw [Eval.bind_apply, bind_of_alive _ (by rw [World.scopeAt_nextScope]) kind, Outcome.bind_value,
    World.modifyScope_nextScope, Eval.bind_apply,
    bind_of_alive _ (by rw [World.scopeAt_nextScope]) message, Outcome.bind_value,
    World.modifyScope_nextScope, Eval.bind_apply]
  rfl

/-- An error on its way meets a scope whose handlers it is offered to. -/
theorem handleAlong_offering {scope : ScopeId} {e : Error} (scopes : List ScopeId)
    (he : e.kind.isRecoverable = true) (hhandlers : (w.scopeAt scope).handlers ≠ [])
    (alive : (w.scopeAt scope).destroyed = false) :
    handleAlong (scope :: scopes) e ctx w =
      (w.nextScope.runHandlers (w.scopeAt scope).handlers (ctx.offering w scope)
        (w.openHandlers scope e)).attempt.bind fun outcome u =>
          match outcome with
          | .ok () => .value .void (u.endScope w.nextScope)
          | .error f =>
            handleAlong scopes f (ctx.offering w scope) (u.endScope w.nextScope) := by
  have some : (w.scopeAt scope).handlers.isEmpty = false := by simpa using hhandlers
  rw [handleAlong]
  unfold record
  simp only [he, some, alive, Bool.not_true, Bool.false_eq_true, if_false, Bool.or_false,
    Eval.bind_apply, Eval.gets_apply, Outcome.bind_value, Eval.holding_apply]
  rw [child_of_alive alive, Outcome.bind_value, offer_apply, Outcome.bind_assoc]
  congr 1
  funext outcome u
  cases outcome <;> rfl

/-- An error on its way passes a scope without handlers. -/
theorem handleAlong_passing {scope : ScopeId} {e : Error} (scopes : List ScopeId)
    (he : e.kind.isRecoverable = true)
    (hscope : (w.scopeAt scope).handlers = [] ∨ (w.scopeAt scope).destroyed = true) :
    handleAlong (scope :: scopes) e ctx w = handleAlong scopes e ctx w := by
  have none : ((w.scopeAt scope).handlers.isEmpty || (w.scopeAt scope).destroyed) = true := by
    simpa using hscope
  rw [handleAlong]
  unfold record
  simp only [he, Bool.not_true, Bool.false_eq_true, if_false, Eval.bind_apply, Eval.gets_apply,
    Outcome.bind_value]
  rw [if_pos none]

/-- An assertion is not offered. -/
theorem handleAlong_stopped (scope : ScopeId) {e : Error} (scopes : List ScopeId)
    (he : e.kind.isRecoverable = false) :
    handleAlong (scope :: scopes) e ctx w = .error e w := by
  rw [handleAlong, he]
  rfl

/-- An error that passed all scopes is reported. -/
theorem handleAlong_nil (e : Error) : handleAlong [] e ctx w = (w.report e).surface e := by
  unfold handleAlong reportError World.surface
  simp only [Eval.bind_apply, Eval.modify_apply, Eval.gets_apply, Outcome.bind_value]
  show _ = if w.config.failFast then _ else _
  split <;> rfl

/-- An error is offered to its scope and those above. -/
theorem handleError_apply (scope : ScopeId) (e : Error) :
    scope.handleError e ctx w = handleAlong (w.ancestors scope) e ctx w := rfl

end ScopeId

/-! ## All scopes -/

/-- Broken assertions are what the engine does not offer to handlers. -/
def ErrorKind.isBarred (kind : ErrorKind) : Bool :=
  !kind.isRecoverable

theorem Offered.not_passing {scope : ScopeId} {e : Error} {calls : List HandlerCall}
    {y : Outcome Unit} (h : Offered between ctx scope e w calls y) :
    ¬ ((w.scopeAt scope).handlers = [] ∨ (w.scopeAt scope).destroyed = true) := by
  simp [h.handlers, h.alive]

theorem Offered.reaches {scope : ScopeId} {e : Error} {calls : List HandlerCall} {x : Outcome Unit}
    (h : Offered between ctx scope e w calls x) :
    (w.nextScope.runHandlers (w.scopeAt scope).handlers (ctx.offering w scope)
      (w.openHandlers scope e)).attempt.Reaches between x.attempt :=
  Outcome.reaches_attempt_iff.2 ⟨x, reaches_runHandlers_iff.2 ⟨calls, h.tried⟩, rfl⟩

theorem reaches_handleAlong_iff {scopes : List ScopeId} {e : Error} {y : Outcome Value} :
    (ScopeId.handleAlong scopes e ctx w).Reaches between y ↔
      ∃ calls, Bubbles ErrorKind.isBarred between ctx scopes e w calls y := by
  induction scopes generalizing e ctx w with
  | nil =>
    rw [ScopeId.handleAlong_nil]
    have final : ((w.report e).surface e).Reaches between y ↔ y = (w.report e).surface e := by
      unfold World.surface
      split
      · exact Outcome.reaches_error_iff
      · exact Outcome.reaches_value_iff
    rw [final]
    constructor
    · rintro rfl
      exact ⟨[], .reported⟩
    · rintro ⟨calls, bubbles⟩
      cases bubbles
      rfl
  | cons scope scopes ih =>
    cases he : e.kind.isRecoverable with
    | false =>
      have barred : e.kind.isBarred = true := by rw [ErrorKind.isBarred, he]; rfl
      rw [ScopeId.handleAlong_stopped scope scopes he, Outcome.reaches_error_iff]
      constructor
      · rintro rfl
        exact ⟨[], .stopped barred⟩
      · rintro ⟨calls, bubbles⟩
        cases bubbles with
        | stopped _ => rfl
        | moved h _ _ | taken h _ | passed h _ _ | brokeOff h _ | exhausted h _ =>
          rw [barred] at h
          cases h
    | true =>
      have offerable : e.kind.isBarred = false := by rw [ErrorKind.isBarred, he]; rfl
      by_cases hscope : (w.scopeAt scope).handlers = [] ∨ (w.scopeAt scope).destroyed = true
      · rw [ScopeId.handleAlong_passing scopes he hscope, ih]
        constructor
        · rintro ⟨calls, bubbles⟩
          exact ⟨calls, .moved offerable hscope bubbles⟩
        · rintro ⟨calls, bubbles⟩
          cases bubbles with
          | moved _ _ rest => exact ⟨_, rest⟩
          | stopped h =>
            rw [offerable] at h
            cases h
          | taken _ offered | passed _ offered _ | brokeOff _ offered | exhausted _ offered =>
            exact (offered.not_passing hscope).elim
      · obtain ⟨hhandlers, alive⟩ := not_or.1 hscope
        rw [Bool.not_eq_true] at alive
        rw [ScopeId.handleAlong_offering scopes he hhandlers alive, Outcome.reaches_bind_iff]
        constructor
        · rintro ⟨_, attempted, rest⟩
          obtain ⟨x, run, rfl⟩ := Outcome.reaches_attempt_iff.1 attempted
          obtain ⟨calls, tried⟩ := reaches_runHandlers_iff.1 run
          have offered : Offered between ctx scope e w calls x := ⟨hhandlers, alive, tried⟩
          cases x with
          | value a u =>
            obtain rfl := Outcome.reaches_value_iff.1 rest
            exact ⟨calls, .taken offerable offered⟩
          | error f u =>
            obtain ⟨calls', bubbles⟩ := ih.1 rest
            exact ⟨_, .passed offerable offered bubbles⟩
          | panic message u =>
            obtain rfl := Outcome.reaches_panic_iff.1 rest
            exact ⟨calls, .brokeOff offerable offered⟩
          | exhausted =>
            obtain rfl := Outcome.reaches_exhausted_iff.1 rest
            exact ⟨calls, .exhausted offerable offered⟩
          | waiting on u resume => exact (Outcome.not_reaches_waiting run).elim
        · rintro ⟨calls, bubbles⟩
          cases bubbles with
          | stopped h =>
            rw [offerable] at h
            cases h
          | moved _ h _ => exact (hscope h).elim
          | taken _ offered => exact ⟨_, offered.reaches, .value⟩
          | passed _ offered rest => exact ⟨_, offered.reaches, ih.2 ⟨_, rest⟩⟩
          | brokeOff _ offered => exact ⟨_, offered.reaches, .panic⟩
          | exhausted _ offered => exact ⟨_, offered.reaches, .exhausted⟩

/-! ## Reports and handler scopes -/

/-- Scopes that had been destroyed still are. -/
structure World.Steady (u w : World) : Prop where
  size : u.scopes.size ≤ w.scopes.size
  destroyed {scope : ScopeId} (hscope : scope.index < u.scopes.size)
    (h : (u.scopeAt scope).destroyed = true) : (w.scopeAt scope).destroyed = true

theorem World.Steady.trans {u v : World} (h : u.Steady v) (h' : v.Steady w) : u.Steady w :=
  ⟨Nat.le_trans h.size h'.size, fun hscope hd =>
    h'.destroyed (Nat.lt_of_lt_of_le hscope h.size) (h.destroyed hscope hd)⟩

/-- Besides, nothing has been reported. -/
structure World.Calm (u w : World) : Prop extends u.Steady w where
  reports : w.reports = u.reports

namespace World.Calm

theorem refl : w.Calm w :=
  ⟨⟨Nat.le_refl _, fun _ h => h⟩, rfl⟩

theorem trans {u v : World} (h : u.Calm v) (h' : v.Calm w) : u.Calm w :=
  ⟨h.toSteady.trans h'.toSteady, h'.reports.trans h.reports⟩

theorem openHandlers (scope : ScopeId) (e : Error) : w.Calm (w.openHandlers scope e) := by
  refine ⟨⟨?_, fun {other} hother h => ?_⟩, rfl⟩
  · simp [World.openHandlers]
  · have same : (w.openHandlers scope e).scopeAt other = w.scopeAt other :=
      (World.getD_push ..).trans (if_neg (Nat.ne_of_lt hother))
    rw [same, h]

theorem endScope (scope : ScopeId) : w.Calm (w.endScope scope) := by
  refine ⟨⟨?_, fun {other} _ h => ?_⟩, rfl⟩
  · simp [World.endScope, World.modifyScope]
  · rw [World.endScope, World.scopeAt_modifyScope]
    split
    · rw [ScopeRecord.ended, if_pos h, h]
    · exact h

end World.Calm

/-- A scope that has been destroyed is so at the end. -/
theorem World.destroyed_endScope (w : World) (scope : ScopeId) :
    ((w.endScope scope).scopeAt scope).destroyed = true := by
  rw [endScope, scopeAt_modifyScope]
  split
  · unfold ScopeRecord.ended
    split
    · assumption
    · rfl
  · next h =>
    have missing : w.scopes.size ≤ scope.index := by simpa using h
    rw [scopeAt, Array.getD_eq_getD_getElem?, Array.getElem?_eq_none missing]
    rfl

/-- The computation has returned, in a state with some property. -/
def Outcome.Returned {α : Type} (P : World → Prop) : Outcome α → Prop
  | .value _ w => P w
  | .error _ w => P w
  | _ => False

/-- A handler that returned, reported nothing and brought no scope back. -/
def HandlerCall.Quiet (call : HandlerCall) : Prop :=
  call.result.Returned call.before.Calm

theorem Tried.returned {child : ScopeId} {handlers : List Value} {calls : List HandlerCall}
    {y : Outcome Unit} (h : Tried between ctx child handlers w calls y)
    (hcalls : ∀ call ∈ calls, call.Quiet) :
    y.Returned w.Calm ∧ ∀ call ∈ calls, call.scope = child := by
  induction h with
  | done => exact ⟨.refl, nofun⟩
  | skipped _ _ ih => exact ih hcalls
  | @succeeded _ _ _ _ _ _ calls y _ _ _ ih =>
    obtain ⟨quiet, hcalls⟩ := List.forall_mem_cons.1 hcalls
    obtain ⟨returned, scopes⟩ := ih hcalls
    refine ⟨?_, List.forall_mem_cons.2 ⟨rfl, scopes⟩⟩
    cases y with
    | value | error => exact quiet.trans returned
    | _ => exact returned
  | failed _ _ =>
    exact ⟨(List.forall_mem_singleton.1 hcalls : HandlerCall.Quiet _),
      List.forall_mem_singleton.2 rfl⟩
  | brokeOff _ _ | exhausted _ _ => exact (List.forall_mem_singleton.1 hcalls).elim

/-- What has become of an error in the end, and what has been reported since a state. -/
inductive World.Settles (w : World) : Outcome Value → World → Prop
  | handled {u : World} (h : u.reports = w.reports) : w.Settles (.value .void u) u
  /-- A broken assertion, which no handler was offered. -/
  | stopped {f : Error} {u : World} (hf : f.kind.isRecoverable = false)
    (h : u.reports = w.reports) : w.Settles (.error f u) u
  | kept {f : Error} {u : World} (hu : u.config.failFast = false)
    (h : u.reports = w.reports ++ [{ error := f }]) : w.Settles (.value (.failure f) u) u
  | surfaced {f : Error} {u : World} (hu : u.config.failFast = true)
    (h : u.reports = w.reports ++ [{ error := f }]) : w.Settles (.error f u) u

theorem World.Settles.ofCalm {u v : World} {y : Outcome Value} (h : w.Calm v)
    (h' : v.Settles y u) : w.Settles y u := by
  cases h' with
  | handled hr => exact .handled (hr.trans h.reports)
  | stopped hf hr => exact .stopped hf (hr.trans h.reports)
  | kept hu hr => exact .kept hu (h.reports ▸ hr)
  | surfaced hu hr => exact .surfaced hu (h.reports ▸ hr)

theorem World.settles_surface (w : World) (e : Error) :
    w.Settles ((w.report e).surface e) (w.report e) := by
  unfold World.surface
  split
  · next h => exact .surfaced h rfl
  · next h => exact .kept (Bool.eq_false_iff.2 h) rfl

/-- Handlers that are quiet leave a calm state in the end, in which their scope is destroyed. -/
theorem Offered.calm {scope : ScopeId} {e : Error} {calls : List HandlerCall} {x : Outcome Unit}
    (h : Offered between ctx scope e w calls x) (hcalls : ∀ call ∈ calls, call.Quiet) :
    x.Returned fun u => w.Calm (u.endScope w.nextScope) ∧ ∀ call ∈ calls,
      call.scope.index < (u.endScope w.nextScope).scopes.size ∧
        ((u.endScope w.nextScope).scopeAt call.scope).destroyed = true := by
  obtain ⟨returned, scopes⟩ := h.tried.returned hcalls
  have ends {u : World} (calm : (w.openHandlers scope e).Calm u) :
      w.Calm (u.endScope w.nextScope) ∧ ∀ call ∈ calls,
        call.scope.index < (u.endScope w.nextScope).scopes.size ∧
          ((u.endScope w.nextScope).scopeAt call.scope).destroyed = true := by
    have calm' := calm.trans (.endScope w.nextScope)
    refine ⟨(World.Calm.openHandlers scope e).trans calm', fun call hcall => ?_⟩
    rw [scopes call hcall]
    refine ⟨Nat.lt_of_lt_of_le ?_ calm'.size, u.destroyed_endScope _⟩
    simp [World.openHandlers, World.nextScope]
  cases x with
  | value | error => exact ends returned
  | _ => exact returned

/-- If the handlers are quiet, an error comes to the end of its way. It is reported at most once, and
no scope that was made for handlers is left. -/
theorem Bubbles.settles {scopes : List ScopeId} {e : Error} {calls : List HandlerCall}
    {y : Outcome Value} (h : Bubbles ErrorKind.isBarred between ctx scopes e w calls y)
    (hcalls : ∀ call ∈ calls, call.Quiet) :
    ∃ u, w.Settles y u ∧ w.Steady u ∧ ∀ call ∈ calls, (u.scopeAt call.scope).destroyed = true := by
  induction h with
  | @reported _ e w => exact ⟨_, w.settles_surface e, ⟨Nat.le_refl _, fun _ h => h⟩, nofun⟩
  | stopped h =>
    exact ⟨_, .stopped (by simpa [ErrorKind.isBarred] using h) rfl, World.Calm.refl.toSteady, nofun⟩
  | moved _ _ _ ih => exact ih hcalls
  | taken _ offered =>
    obtain ⟨calm, ended⟩ := offered.calm hcalls
    exact ⟨_, .handled calm.reports, calm.toSteady, fun call hcall => (ended call hcall).2⟩
  | passed _ offered _ ih =>
    obtain ⟨quiet, quiet'⟩ := List.forall_mem_append.1 hcalls
    obtain ⟨calm, ended⟩ := offered.calm quiet
    obtain ⟨u, settles, steady, ended'⟩ := ih quiet'
    refine ⟨u, settles.ofCalm calm, calm.toSteady.trans steady,
      List.forall_mem_append.2 ⟨fun call hcall => ?_, ended'⟩⟩
    exact steady.destroyed (ended call hcall).1 (ended call hcall).2
  | brokeOff _ offered | exhausted _ offered => exact (offered.calm hcalls).elim

/-- **Errors bubble.** A scope offers an error to the handlers along the scopes above it. If these are
quiet, the error is settled: handled, or returned because an assertion broke, or reported once; and
the scopes that were made for handlers are destroyed. -/
theorem ScopeId.errors_bubble (between : World → World → Prop) (ctx : Context) (w : World)
    (scope : ScopeId) (e : Error) (y : Outcome Value) :
    ((scope.handleError e ctx w).Reaches between y ↔
        ∃ calls, Bubbles ErrorKind.isBarred between ctx (w.ancestors scope) e w calls y) ∧
      ∀ calls, Bubbles ErrorKind.isBarred between ctx (w.ancestors scope) e w calls y →
        (∀ call ∈ calls, call.Quiet) →
          ∃ u, w.Settles y u ∧ ∀ call ∈ calls, (u.scopeAt call.scope).destroyed = true := by
  refine ⟨?_, fun calls bubbles hcalls => ?_⟩
  · unfold handleError
    rw [Eval.bind_apply, Eval.gets_apply, Outcome.bind_value, reaches_handleAlong_iff]
  · obtain ⟨u, settles, -, ended⟩ := bubbles.settles hcalls
    exact ⟨u, settles, ended⟩

/-- Two scopes, one below the other, with a handler each. -/
def World.ofHandlers (outer inner : Expr) : World :=
  let handler (scope : ScopeId) (body : Expr) : LambdaRecord :=
    { operation := "handler", source := default, scope, inputs := [], body := .script body
      fixable := true }
  let scope (parent : Option ScopeId) (handler : LambdaId) : ScopeRecord :=
    { name := "scope", parent, source := default, pure := false, handlers := [.lambda handler] }
  { scopes := #[scope none ⟨0⟩, scope (some ⟨0⟩) ⟨1⟩]
    lambdas := #[handler ⟨0⟩ outer, handler ⟨1⟩ inner] }

/-- The inner handler fails, and the outer one takes its failure. -/
theorem ScopeId.failure_taken_outside :
    let w := World.ofHandlers .void (.fail (.new .timeout "late"))
    let ctx := Context.ofBudget 2 default
    let x := ScopeId.handleError ⟨1⟩ (.new .exception "boom") ctx w
    ∃ (calls : List HandlerCall) (u v : World), x.Reaches (fun _ _ => False) (.value .void u) ∧
      calls.map (·.lambda) = [⟨1⟩, ⟨0⟩] ∧ w.Settles (.value .void u) v ∧
        ∀ call ∈ calls, (v.scopeAt call.scope).destroyed = true := by
  intro w ctx x
  obtain ⟨u, calls, bubbles, called, quiet⟩ : ∃ u calls,
      Bubbles ErrorKind.isBarred (fun _ _ => False) ctx (w.ancestors ⟨1⟩)
        (.new .exception "boom") w calls (.value .void u) ∧
      calls.map (·.lambda) = [⟨1⟩, ⟨0⟩] ∧ ∀ call ∈ calls, call.Quiet := by
    refine ⟨_, _, .passed rfl ⟨nofun, rfl, .failed rfl .error⟩
      (.taken rfl ⟨nofun, rfl, .succeeded rfl .value .done⟩), rfl, ?_⟩
    exact List.forall_mem_cons.2 ⟨World.Calm.refl, List.forall_mem_singleton.2 World.Calm.refl⟩
  obtain ⟨bubble, settle⟩ := errors_bubble (fun _ _ => False) ctx w ⟨1⟩ _ (.value .void u)
  obtain ⟨v, settles, ended⟩ := settle calls bubbles quiet
  exact ⟨calls, u, v, bubble.2 ⟨calls, bubbles⟩, called, settles, ended⟩

/-- A handler that breaks an assertion ends the way of an error: the handler of the scope above is not
called, as it would be if no cause were barred. -/
theorem ScopeId.assertion_not_passed_on :
    let w := World.ofHandlers (.log (.string "outer ran")) (.fail (.assertion "broken"))
    let ctx := Context.ofBudget 2 default
    let e := Error.new .exception "boom"
    ∃ u, ScopeId.handleError ⟨1⟩ e ctx w = .error (.assertion "broken") u ∧ u.desk.log = [] ∧
      ∀ between calls, ¬ Bubbles (fun _ => false) between ctx (w.ancestors ⟨1⟩) e w calls
        (.error (.assertion "broken") u) := by
  intro w ctx e
  refine ⟨_, rfl, rfl, fun between calls bubbles => ?_⟩
  have chain : w.ancestors ⟨1⟩ = [⟨1⟩, ⟨0⟩] := rfl
  rw [chain] at bubbles
  generalize hy : Outcome.error _ _ = y at bubbles
  cases bubbles with
  | stopped h => cases h
  | moved _ h _ => exact h.elim nofun nofun
  | taken _ _ | brokeOff _ _ | exhausted _ _ => cases hy
  | passed _ offered rest =>
    have inner := offered.tried
    cases inner with
    | skipped h _ => cases h
    | succeeded h run _ =>
      cases h
      cases run
    | failed h run =>
      cases h
      cases run
      cases rest with
      | stopped h => cases h
      | moved _ h _ => exact h.elim nofun nofun
      | taken _ _ | brokeOff _ _ | exhausted _ _ => cases hy
      | passed _ offered _ =>
        have outer := offered.tried
        cases outer with
        | skipped h _ => cases h
        | succeeded _ _ rest => cases rest
        | failed h run =>
          cases h
          cases run

end Reactor
