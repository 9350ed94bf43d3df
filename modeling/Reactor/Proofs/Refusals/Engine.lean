import Reactor.Engine.Variable
import Reactor.Proofs.Refusals.Mimicry

/-!
# What writes check and what the engine leaves behind

A call that assigns or declares a variable or binds a parameter first checks what it is asked to store
(`Write.checks`). Then it stores what has passed, and all are notified who follow it (`Write.Checked.store`). Nothing
is checked after that (`Write.run_eq`).

When the engine forces lambdas, handles errors and checks what is to be stored it leaves no trace of its own: scopes
that are made for conditions and for handlers are destroyed when these have run, whatever has come of them
(`World.Traceless.child`). A pass leaves scopes and variables alone. All that scripts do is left to the machine.
-/

namespace Reactor

/-- A call that writes into a scope. -/
inductive Write where
  | set (name : String) (value : Value)
  | declare (name : String) (value : Value) (declaration : Declaration)
  | parameter (key : String) (value : Value)

/-- What a call stores when all has been checked. -/
inductive Write.Checked where
  | declared (name : String) (proposal : ScopeId.Proposal)
  | assigned (owner : ScopeId) (id : VariableId) (name : String) (value : Value)
  | bound (key : String) (value : Value)

namespace Write

/-- What a call does in a scope. -/
def run (scope : ScopeId) : Write → Eval Value
  | set name value => scope.set name value
  | declare name value declaration => scope.declare name value declaration
  | parameter key value => scope.bind key value

/-- The checks of a call. -/
def checks (scope : ScopeId) : Write → Eval Checked
  | set name value => do
    scope.checkAlive
    if isPositional name then
      Eval.fail (.assertion ("Cannot set positional parameter '" ++ name ++ "'"))
    else
      match ← Eval.gets fun w => w.findVariable? scope name with
      | some (owner, id) => return .assigned owner id name (← scope.proposeValue owner id name value)
      | none => return .declared name (← scope.propose name value {})
  | declare name value declaration => do return .declared name (← scope.propose name value declaration)
  | parameter key value => do
    scope.checkAlive
    Eval.modify fun w => w.modifyScope scope fun record => { record with parameterScope := true }
    if isPositional key && Entries.contains (← scope.record).parameters key then
      Eval.fail (.assertion ("Cannot change positional parameter '" ++ key ++ "' in " ++ (← scope.text)))
    else return .bound key value

/-- Stores what has been checked, and notifies all who follow it. -/
def Checked.store (scope : ScopeId) : Checked → Eval Value
  | declared name proposal => do
    Eval.modify fun w => w.bindVariable scope name proposal.record
    let value := proposal.record.value
    Eval.holding (value.places ++ proposal.held) (scope.notify name)
    return value
  | assigned owner id name value => do
    Eval.modify fun w => w.storeValue id value
    Eval.holding (value.places ++ [.variable id]) (owner.notify name)
    return value
  | bound key value => do
    Eval.modify fun w => w.modifyScope scope fun record =>
      { record with parameters := Entries.insert record.parameters key value }
    return value

/-- A call checks everything before it stores anything. -/
theorem run_eq (scope : ScopeId) (write : Write) : write.run scope = write.checks scope >>= Checked.store scope := by
  cases write with
  | declare name value declaration =>
    simp only [run, checks, bind_assoc, pure_bind]
    rfl
  | parameter key value =>
    simp only [run, checks, ScopeId.bind, bind_assoc]
    refine congrArg (scope.checkAlive >>= ·) (funext fun _ => congrArg (Eval.modify _ >>= ·) (funext fun _ => ?_))
    refine congrArg (scope.record >>= ·) (funext fun record => ?_)
    split
    · rw [bind_assoc]
      rfl
    · rfl
  | set name value =>
    simp only [run, checks, ScopeId.set, bind_assoc]
    refine congrArg (scope.checkAlive >>= ·) (funext fun _ => ?_)
    split
    · rfl
    · rw [bind_assoc]
      refine congrArg (Eval.gets _ >>= ·) (funext fun found => ?_)
      cases found with
      | none =>
        simp only [bind_assoc, pure_bind]
        rfl
      | some found =>
        simp only [bind_assoc, pure_bind]
        rfl

end Write

namespace World

/-! ## Changes of lambdas -/

/-- Scopes and variables have not changed. -/
structure SameScopes (w v : World) : Prop where
  scopes : v.scopes = w.scopes
  vars : v.vars = w.vars

variable {u v w : World}

namespace SameScopes

theorem refl (w : World) : w.SameScopes w :=
  ⟨rfl, rfl⟩

theorem trans (h : u.SameScopes v) (h' : v.SameScopes w) : u.SameScopes w :=
  ⟨h'.scopes.trans h.scopes, h'.vars.trans h.vars⟩

theorem foldl {α : Type} {g : World → α → World} (h : ∀ w a, SameScopes w (g w a)) (items : List α) (w : World) :
    w.SameScopes (items.foldl g w) := by
  induction items generalizing w with
  | nil => exact refl w
  | cons item items ih => exact (h w item).trans (ih _)

theorem addDependent (w : World) (source dependent : LambdaId) :
    w.SameScopes (w.addDependent source dependent).1 := by
  unfold World.addDependent
  split <;> exact ⟨rfl, rfl⟩

theorem follow (w : World) (lambda inner : LambdaId) : w.SameScopes (w.follow lambda inner) := by
  have added := addDependent w inner lambda
  unfold World.follow
  dsimp only
  split
  · exact refl w
  · split
    · rename_i v hadd
      rw [hadd] at added
      exact added
    · rename_i v hadd
      rw [hadd] at added
      split <;> exact ⟨added.scopes, added.vars⟩

theorem withLambda (w : World) (record : LambdaRecord) : w.SameScopes (w.withLambda record) := by
  have pushed : w.SameScopes { w with lambdas := w.lambdas.push record } := ⟨rfl, rfl⟩
  refine pushed.trans (foldl (fun w input => ?_) _ _)
  cases input.lambda? with
  | some source => exact addDependent w source _
  | none => exact refl w

theorem invalidate (w : World) (k : LambdaId) : w.SameScopes (w.invalidate k) := by
  rw [rest_invalidate]
  exact ⟨rfl, rfl⟩

theorem discover (live : Holders) (thread : ThreadId) (steps : Nat) (w : World) (pending : List LambdaId) :
    w.SameScopes (World.discover live thread steps w pending).2 := by
  induction steps generalizing w pending with
  | zero => exact refl w
  | succ steps ih =>
    cases pending with
    | nil => exact refl w
    | cons first pending =>
      rw [World.discover]
      split
      · exact ih w pending
      · have visited : w.SameScopes ((w.enterNotify thread first).pruneListeners live first) := ⟨rfl, rfl⟩
        exact visited.trans (ih _ _)

/-- If notifications are allowed nothing is asked of lambdas. -/
theorem untouched (h : w.SameScopes v) : w.Untouched true v :=
  .ofSame h.scopes h.vars nofun

end SameScopes

namespace Untouched

variable {notifying : Bool}

theorem modifyLambda (w : World) (k : LambdaId) {f : LambdaRecord → LambdaRecord}
    (hf : ∀ r : LambdaRecord, (f r).generation = r.generation) : w.Untouched notifying (w.modifyLambda k f) := by
  refine .ofSame rfl rfl fun _ j => ?_
  rw [lambdaAt_modifyLambda]
  split
  · exact hf _
  · rfl

theorem follow (w : World) (k inner : LambdaId) : w.Untouched notifying (w.follow k inner) :=
  .rewired (.follow w k inner) (SameScopes.follow w k inner).scopes (SameScopes.follow w k inner).vars

/-- A new lambda has not been invalidated, as if it were not there. -/
theorem withLambda (w : World) {record : LambdaRecord} (h : record.generation = 0) :
    w.Untouched notifying (w.withLambda record) := by
  have same := SameScopes.withLambda w record
  refine .ofSame same.scopes same.vars fun _ k => ?_
  rw [(Rewired.withLambda w record).record k]
  show (({ w with lambdas := w.lambdas.push record } : World).lambdaAt k).generation = _
  rw [lambdaAt, getD_push]
  split
  · rename_i hk
    rw [h, lambdaAt_of_size_le hk.ge]
    rfl
  · rfl

end Untouched

end World

theorem LambdaId.generation_settle (thread : ThreadId) (generation : Nat) (outcome : Except Error Value)
    (record : LambdaRecord) : (settle thread generation outcome record).generation = record.generation := by
  unfold settle
  split
  · split <;> rfl
  · split <;> rfl
  · rfl

/-- The scope in which the condition of a constraint is computed. -/
def World.conditionScope (w : World) (scope : ScopeId) (value previous : Value) : ScopeRecord :=
  { name := "constraint"
    parent := some scope
    source := (w.scopeAt scope).source
    pure := (w.scopeAt scope).pure
    parameterScope := true
    parameters := [("it", value), ("previous", previous)] }

namespace ScopeId

variable {scope : ScopeId} {name : String} {constraint : Constraint} {lambda : LambdaId} {ctx : Context} {w : World}

/-- No condition is computed below a scope that has been destroyed. -/
theorem verdict_of_destroyed (name : String) (hl : constraint.predicate.lambda? = some lambda)
    (h : (w.scopeAt scope).destroyed = true) (value previous : Value) :
    ∃ e, ∀ ctx, scope.verdict name constraint value previous ctx w = .error e w := by
  refine ⟨.assertion ("Scope " ++ w.scopeText scope ++ " has been destroyed"), fun ctx => ?_⟩
  have parent : scope.record ctx w = .value (w.scopeAt scope) w := rfl
  unfold verdict child
  rw [hl]
  dsimp only
  rw [Eval.bind_apply, parent, Outcome.bind_value, Eval.bind_apply, Eval.bind_apply,
    checkAlive_of_destroyed h]
  rfl

/-- A condition is computed in a scope that is made for it, and this one is destroyed whatever it says. -/
theorem verdict_of_alive (hl : constraint.predicate.lambda? = some lambda)
    (h : (w.scopeAt scope).destroyed = false) (value previous : Value) :
    scope.verdict name constraint value previous ctx w =
      (Eval.holding [.scope w.nextScope] (lambda.applyIn w.nextScope) ctx
        { w with scopes := w.scopes.push (w.conditionScope scope value previous) }).attempt.bind fun outcome u =>
          match outcome with
          | .ok verdict => .value verdict (u.endScope w.nextScope)
          | .error e => .error (constraintFailed name constraint.source e.describe) (u.endScope w.nextScope) := by
  have it : isPositional "it" = false := by decide
  have previously : isPositional "previous" = false := by decide
  have parent : scope.record ctx w = .value (w.scopeAt scope) w := rfl
  unfold verdict
  rw [hl]
  dsimp only
  rw [Eval.bind_apply, parent, Outcome.bind_value, Eval.bind_apply, child_of_alive h, Outcome.bind_value,
    Eval.bind_apply, bind_of_alive value (by rw [World.scopeAt_nextScope]) it, Outcome.bind_value,
    World.modifyScope_nextScope, Eval.bind_apply,
    bind_of_alive previous (by rw [World.scopeAt_nextScope]) previously, Outcome.bind_value,
    World.modifyScope_nextScope, Eval.bind_apply]
  refine congrArg (Outcome.bind _) ?_
  funext outcome u
  cases outcome <;> rfl

end ScopeId

namespace Eval

variable {between : World → World → Prop} {notifying : Bool}

/-! ## Lambdas and their handlers -/

theorem mimics_compute (lambda : LambdaId) (scope : ScopeId) :
    (lambda.compute scope).Mimics between notifying (lambda.compute scope) := by
  refine (mimics_gets _).bind fun record => ?_
  cases record.body with
  | script e => exact mimics_evaluate e scope none
  | lookup name => exact Trait.has_getName (T := mimicking between notifying) scope name true
  | await fork => exact Trait.has_awaitFork (T := mimicking between notifying) fork none

theorem mimics_forced (v : Value) : v.forced.Mimics between notifying v.forced :=
  Trait.has_forced (T := mimicking between notifying) v

theorem mimics_applyIn (lambda : LambdaId) (scope : ScopeId) :
    (lambda.applyIn scope).Mimics between notifying (lambda.applyIn scope) :=
  .nested ((mimics_compute lambda scope).bind fun v => (mimics_forced v).holding _)

theorem mimics_runHandlers (scope : ScopeId) (handlers : List Value) :
    (scope.runHandlers handlers).Mimics between notifying (scope.runHandlers handlers) := by
  induction handlers with
  | nil => exact mimics_pure ()
  | cons handler handlers ih =>
    cases h : handler.lambda? with
    | none => rwa [ScopeId.runHandlers_of_none h]
    | some lambda =>
      rw [ScopeId.runHandlers_of_some h]
      exact (mimics_applyIn lambda scope).bind fun _ => ih

/-- The scopes that are made for handlers are gone when the error has been handled. -/
theorem mimics_handleAlong (scopes : List ScopeId) (e : Error) :
    (ScopeId.handleAlong scopes e).Mimics between notifying (ScopeId.handleAlong scopes e) := by
  induction scopes generalizing e with
  | nil => exact Trait.has_reportError (T := mimicking between notifying) e
  | cons scope scopes ih =>
    intro ctx ctx' hctx w
    cases he : e.kind.isRecoverable with
    | false =>
      rw [ScopeId.handleAlong_stopped scope scopes he, ScopeId.handleAlong_stopped scope scopes he]
      exact .error (.refl w)
    | true =>
      by_cases hscope : (w.scopeAt scope).handlers = [] ∨ (w.scopeAt scope).destroyed = true
      · rw [ScopeId.handleAlong_passing scopes he hscope, ScopeId.handleAlong_passing scopes he hscope]
        exact ih e ctx ctx' hctx w
      · obtain ⟨hhandlers, alive⟩ := not_or.1 hscope
        have offered : (ctx.offering w scope).Mimics between notifying (ctx'.offering w scope) :=
          ⟨by simp only [Context.offering, Context.hold, hctx.thread], hctx.budget, hctx.evaluate, hctx.force⟩
        rw [ScopeId.handleAlong_offering scopes he hhandlers (by simpa using alive),
          ScopeId.handleAlong_offering scopes he hhandlers (by simpa using alive)]
        refine (mimics_runHandlers _ _ _ _ offered (w.openHandlers scope e)).caught fun result u ran => ?_
        have gone : w.Traceless between notifying (u.endScope w.nextScope) := .child ran
        cases result with
        | ok _ => exact .value gone
        | error failure => exact (ih failure _ _ offered _).after gone

theorem mimics_handleError (scope : ScopeId) (e : Error) :
    (scope.handleError e).Mimics between notifying (scope.handleError e) :=
  (mimics_gets _).bind fun scopes => mimics_handleAlong scopes e

theorem mimics_run (lambda : LambdaId) (scope : ScopeId) :
    (lambda.run scope).Mimics between notifying (lambda.run scope) := by
  refine .nested ((mimics_compute lambda scope).bind fun value => ?_)
  cases value.lambda? with
  | none => exact (mimics_pure ()).bind fun _ => (mimics_forced value).holding _
  | some inner =>
    exact (mimics_modify fun w => .follow w lambda inner).bind fun _ => (mimics_forced value).holding _

theorem mimics_evaluateLambda (lambda : LambdaId) : lambda.evaluate.Mimics between notifying lambda.evaluate := by
  refine (mimics_gets _).bind fun record => (mimics_run lambda record.scope).attempt.bind fun outcome => ?_
  cases outcome with
  | ok value =>
    have shared : value.share.Mimics between notifying value.share :=
      Trait.has_share (T := mimicking between notifying) value
    refine shared.bind fun _ => Eval.Mimics.bind (mimics_modify fun _ => ?_) fun _ => mimics_pure _
    exact .ofRest rfl rfl rfl
  | error e => exact mimics_handleError _ _

theorem mimics_forceLambda (lambda : LambdaId) : lambda.force.Mimics between notifying lambda.force := by
  have evaluated : lambda.evaluate.Mimics between notifying lambda.evaluate := mimics_evaluateLambda lambda
  refine (mimics_gets _).bind fun record => .ite evaluated ?_
  refine Eval.Mimics.bind (mimicking between notifying).has_thread fun thread => ?_
  cases record.cache with
  | holding value => exact mimics_pure value
  | computing owner => exact .ite evaluated ((mimics_gets _).bind fun _ => mimics_fail _)
  | empty =>
    refine Eval.Mimics.bind (mimics_modify fun w => ?_) fun _ => evaluated.attempt.bind fun outcome => ?_
    · exact .modifyLambda w lambda fun _ => rfl
    · refine Eval.Mimics.bind (mimics_modify fun w => ?_) fun _ =>
        Trait.has_ofExcept (T := mimicking between notifying) outcome
      exact .modifyLambda w lambda (LambdaId.generation_settle _ _ _)

/-- The scope in which a condition is computed is gone when it has given its verdict. -/
theorem mimics_verdict (scope : ScopeId) (name : String) (constraint : Constraint) (value previous : Value) :
    (scope.verdict name constraint value previous).Mimics between notifying
      (scope.verdict name constraint value previous) := by
  intro ctx ctx' hctx w
  cases hl : constraint.predicate.lambda? with
  | none =>
    unfold ScopeId.verdict
    rw [hl]
    exact .value (.refl w)
  | some lambda =>
    cases h : (w.scopeAt scope).destroyed with
    | true =>
      obtain ⟨e, run⟩ := ScopeId.verdict_of_destroyed name hl h value previous
      rw [run, run]
      exact .error (.refl w)
    | false =>
      rw [ScopeId.verdict_of_alive hl h, ScopeId.verdict_of_alive hl h]
      have computed : (lambda.applyIn w.nextScope).Mimics between notifying (lambda.applyIn w.nextScope) :=
        mimics_applyIn lambda w.nextScope
      refine (computed.holding [.scope w.nextScope] ctx ctx' hctx _).caught fun outcome u ran => ?_
      have gone : w.Traceless between notifying (u.endScope w.nextScope) := .child ran
      cases outcome with
      | ok verdict => exact .value gone
      | error e => exact .error gone

/-! ## Passes -/

theorem mimics_runCallbacks (lambda : LambdaId) :
    lambda.runCallbacks.Mimics between true lambda.runCallbacks := by
  refine (mimics_gets _).bind fun callbacks => ?_
  cases callbacks with
  | nil => exact mimics_pure ()
  | cons first rest =>
    refine ((mimics_force lambda).holding _).bind fun value => Eval.Mimics.holding ?_ _
    refine (mimics_gets _).bind fun record => mimics_inTurn (fun _ callback => ?_) _ _ _ _
    refine (mimics_evaluate _ _ _).attempt.bind fun result => ?_
    cases result with
    | ok _ => exact mimics_pure ()
    | error e => exact (mimics_handleError _ _).bind fun _ => mimics_pure ()

theorem mimics_runAllCallbacks (lambdas : List LambdaId) :
    (LambdaId.runAllCallbacks lambdas).Mimics between true (LambdaId.runAllCallbacks lambdas) := by
  induction lambdas with
  | nil => exact mimics_pure ()
  | cons lambda lambdas ih => exact (mimics_runCallbacks lambda).bind fun _ => ih

/-- A pass leaves scopes and variables alone, apart from what its callbacks do. -/
theorem mimics_propagate (lambdas : List LambdaId) :
    (LambdaId.propagate lambdas).Mimics between true (LambdaId.propagate lambdas) := by
  refine .ite (mimics_pure ()) (.nested ?_)
  refine Eval.Mimics.bind (mimicking between true).has_thread fun thread => Eval.Mimics.bind ?_ fun live => ?_
  · intro ctx ctx' hctx w
    unfold Eval.liveness
    rw [hctx.thread]
    exact .value (.refl w)
  refine (mimics_modifyGet fun w => (World.SameScopes.discover live _ _ w _).untouched).bind fun affected => ?_
  refine (mimics_modify fun w => (World.SameScopes.foldl .invalidate affected w).untouched).bind fun _ => ?_
  refine ((mimics_runAllCallbacks affected).holding _).attempt.bind fun outcome => ?_
  refine Eval.Mimics.bind (mimics_modify fun w => ?_) fun _ => Trait.has_ofExcept (T := mimicking between true) outcome
  have left (w : World) (k : LambdaId) : w.SameScopes (w.leaveNotify thread.id k) := ⟨rfl, rfl⟩
  exact (World.SameScopes.foldl left affected w).untouched

theorem mimics_notify (v : Value) : v.notify.Mimics between true v.notify := by
  unfold Value.notify
  cases v.lambda? with
  | none => exact (mimics_pure ()).bind fun _ => mimics_pure v
  | some lambda => exact (mimics_propagate [lambda]).bind fun _ => mimics_pure v

/-- What is no lambda reaches nobody. -/
theorem mimics_notify_of_none {v : Value} (h : v.lambda? = none) : v.notify.Mimics between notifying v.notify := by
  unfold Value.notify
  rw [h]
  exact (mimics_pure ()).bind fun _ => mimics_pure v

end Eval

/-- What is checked leaves no trace before it is stored. -/
theorem Write.mimics_checks {between : World → World → Prop} {notifying : Bool} (scope : ScopeId) (write : Write) :
    (write.checks scope).Mimics between notifying (write.checks scope) := by
  have judges : (Eval.mimicking between notifying).Judges := ⟨Eval.mimics_verdict⟩
  have alive : scope.checkAlive.Mimics between notifying scope.checkAlive :=
    Trait.has_checkAlive (T := Eval.mimicking between notifying) scope
  cases write with
  | declare name value declaration => exact .andReturn (Trait.has_propose judges scope name value declaration) _
  | parameter key value =>
    refine alive.bind fun _ => Eval.Mimics.bind (Eval.mimics_modify fun w => ?_) fun _ => ?_
    · exact .noteParameters w scope
    · refine (Eval.mimics_gets _).bind fun record => .ite ?_ (Eval.mimics_pure _)
      exact .bind (Trait.has_text (T := Eval.mimicking between notifying) scope) fun _ => Eval.mimics_fail _
  | set name value =>
    refine alive.bind fun _ => .ite (Eval.mimics_fail _) ((Eval.mimics_gets _).bind fun found => ?_)
    cases found with
    | none => exact .andReturn (Trait.has_propose judges scope name value {}) _
    | some found => exact .andReturn (Trait.has_proposeValue judges scope found.1 found.2 name value) _

end Reactor
