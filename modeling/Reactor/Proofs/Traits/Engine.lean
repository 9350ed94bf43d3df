import Reactor.Engine.Variable
import Reactor.Proofs.Traits.Resources

/-!
# Traits of the engine

What the engine does with scopes, conditions, handlers and variables is put together from work with values
and a few steps of its own. Where a trait allows those steps in scopes and the computation of lambdas
(`Trait.Runs`), conditions are computed, handlers are run and new values of variables are checked with the
trait. Where it allows passes (`Trait.Notifies`) and that variables are stored (`Trait.Writes`), variables are
declared and assigned with it.

What names mean, which places live and what is known of a value is the same with another learner.
-/

namespace Reactor

namespace World

variable (w : World) (learner : Learner)

/-! ## Names -/

theorem ancestorsUpTo_withLearner (n : Nat) (id : ScopeId) :
    (w.withLearner learner).ancestorsUpTo n id = w.ancestorsUpTo n id := by
  induction n generalizing id with
  | zero => rfl
  | succ n ih =>
    rw [ancestorsUpTo, ancestorsUpTo, show (w.withLearner learner).scopeAt id = w.scopeAt id from rfl]
    cases (w.scopeAt id).parent with
    | none => rfl
    | some parent => exact congrArg (id :: ·) (ih parent)

theorem ancestors_withLearner (id : ScopeId) :
    (w.withLearner learner).ancestors id = w.ancestors id :=
  ancestorsUpTo_withLearner w learner _ id

theorem findVariable?_withLearner (id : ScopeId) (name : String) :
    (w.withLearner learner).findVariable? id name = w.findVariable? id name := by
  rw [findVariable?, ancestors_withLearner]
  rfl

theorem parameterScopes_withLearner (id : ScopeId) :
    (w.withLearner learner).parameterScopes id = w.parameterScopes id := by
  rw [parameterScopes, ancestors_withLearner]
  rfl

theorem findParameter?_withLearner (id : ScopeId) (key : String) :
    (w.withLearner learner).findParameter? id key = w.findParameter? id key := by
  rw [findParameter?, parameterScopes_withLearner]
  rfl

theorem parameters_withLearner (id : ScopeId) :
    (w.withLearner learner).parameters id = w.parameters id := by
  rw [parameters, parameterScopes_withLearner]
  rfl

theorem hasName_withLearner (id : ScopeId) (name : String) :
    (w.withLearner learner).hasName id name = w.hasName id name := by
  rw [hasName, findVariable?_withLearner, findParameter?_withLearner]
  rfl

theorem isAbove_withLearner (ancestor id : ScopeId) :
    (w.withLearner learner).isAbove ancestor id = w.isAbove ancestor id := by
  rw [isAbove, ancestors_withLearner]
  rfl

/-! ## Lives and shapes -/

theorem held_withLearner : (w.withLearner learner).held = w.held := by
  funext place
  cases place <;> rfl

theorem release_withLearner (steps : Nat) (holders : Holders) (places : List Place) :
    (w.withLearner learner).release steps holders places = w.release steps holders places := by
  induction steps generalizing holders places with
  | zero => rfl
  | succ steps ih =>
    cases places with
    | nil => rfl
    | cons place places =>
      rw [release, release, held_withLearner]
      exact ih _ _

theorem liveness_withLearner (held : List Place) :
    (w.withLearner learner).liveness held = w.liveness held := by
  have holders : (w.withLearner learner).holders held = w.holders held := by
    unfold World.holders
    rw [held_withLearner]
    rfl
  unfold liveness
  rw [release_withLearner, holders]
  rfl

theorem inputShape_withLearner (nesting : Nat) (v : Value) :
    (w.withLearner learner).inputShape nesting v = w.inputShape nesting v := by
  induction nesting generalizing v with
  | zero =>
    rw [inputShape, inputShape]
    cases v.lambda? with
    | none => rfl
    | some id =>
      dsimp only
      rw [show (w.withLearner learner).lambdaAt id = w.lambdaAt id from rfl]
      cases (w.lambdaAt id).cache <;> rfl
  | succ nesting ih =>
    rw [inputShape, inputShape]
    cases v.lambda? with
    | none => rfl
    | some id =>
      dsimp only
      rw [show (w.withLearner learner).lambdaAt id = w.lambdaAt id from rfl]
      cases (w.lambdaAt id).cache with
      | holding _ => rfl
      | empty => exact congrArg (InputShape.pending _) (List.map_congr_left fun v _ => ih v)
      | computing _ => exact congrArg (InputShape.pending _) (List.map_congr_left fun v _ => ih v)

theorem inputShapes_withLearner (inputs : List Value) :
    (w.withLearner learner).inputShapes inputs = w.inputShapes inputs :=
  List.map_congr_left fun v _ => inputShape_withLearner w learner _ v

end World

/-- A change of a scope that leaves its variables, its purity and its parent alone. -/
structure ScopeRecord.Tame (old new : ScopeRecord) : Prop where
  parent : new.parent = old.parent
  pure : new.pure = old.pure
  vars : new.vars = old.vars

namespace Trait

variable {T : Trait} {α : Type}

/-! ## Scopes -/

theorem has_scopeRecord (scope : ScopeId) : T.Has scope.record :=
  T.has_gets fun _ _ => rfl

theorem has_text (scope : ScopeId) : T.Has scope.text :=
  T.has_gets fun _ _ => rfl

theorem has_checkAlive (scope : ScopeId) : T.Has scope.checkAlive :=
  (has_scopeRecord scope).bind fun _ => .ite ((has_text scope).bind fun _ => T.has_fail _) (T.has_pure _)

theorem has_findVariable (scope : ScopeId) (name : String) :
    T.Has (Eval.gets fun w => w.findVariable? scope name) :=
  T.has_gets fun w l => w.findVariable?_withLearner l scope name

theorem has_findParameter (scope : ScopeId) (key : String) :
    T.Has (Eval.gets fun w => w.findParameter? scope key) :=
  T.has_gets fun w l => w.findParameter?_withLearner l scope key

theorem has_variableAt (id : VariableId) : T.Has (Eval.gets fun w => w.variableAt id) :=
  T.has_gets fun _ _ => rfl

theorem has_getParameter (scope : ScopeId) (key : String) : T.Has (scope.getParameter key) :=
  (has_checkAlive scope).bind fun _ => (has_findParameter scope key).andReturn _

theorem has_getName (scope : ScopeId) (name : String) (must : Bool) : T.Has (scope.get name must) := by
  refine (has_checkAlive scope).bind fun _ => .ite (has_getParameter scope name) ?_
  refine (has_findVariable scope name).bind fun found => ?_
  cases found with
  | some found =>
    exact (has_variableAt found.2).bind fun _ => (has_scopeRecord scope).bind fun _ =>
      .ite ((has_text scope).bind fun _ => T.has_fail _) (T.has_pure _)
  | none =>
    refine (has_findParameter scope name).bind fun found => ?_
    cases found with
    | some value => exact T.has_pure value
    | none => exact .ite ((has_text scope).bind fun _ => T.has_fail _) (T.has_pure _)

theorem has_awaitFork (fork : ForkId) (timeout : Option Nat) : T.Has (fork.await timeout) := by
  have outcome : T.Has (Eval.gets fun w => (w.forkAt fork).outcome) := T.has_gets fun _ _ => rfl
  refine outcome.bind fun found => ?_
  cases found with
  | some outcome => exact has_ofExcept outcome
  | none =>
    refine has_now.bind fun _ => (T.has_wait _).bind fun _ => outcome.bind fun found => ?_
    cases found with
    | some outcome => exact has_ofExcept outcome
    | none => exact T.has_fail _

/-! ## Conditions and handlers -/

/-- The trait allows the steps of the engine in scopes, and computations of what lambdas hold. A scope that
has been made may be destroyed by whoever made it. -/
structure Runs (T : Trait) : Prop where
  nested {α : Type} {act : Eval α} (h : T.Has act) : T.Has (Eval.nested act)
  liveness : T.Has Eval.liveness
  modifyScope (scope : ScopeId) {f : ScopeRecord → ScopeRecord} (h : ∀ r : ScopeRecord, r.Tame (f r)) :
    T.Has (Eval.modify fun w => w.modifyScope scope f)
  child {α : Type} (scope : ScopeId) (pure : Bool) (name : String) {f : ScopeId → Eval α}
    (h : ∀ child : ScopeId, T.Has child.destroy → T.Has (f child)) : T.Has (scope.child pure name >>= f)
  compute (lambda : LambdaId) (scope : ScopeId) : T.Has (lambda.compute scope)

theorem has_reportError (e : Error) : T.Has (reportError e) := by
  refine Has.bind (has_modify (fun _ _ => rfl) fun _ => .aside ⟨⟨rfl, rfl, rfl, rfl⟩, rfl, rfl⟩) fun _ => ?_
  exact Has.bind (T.has_gets fun _ _ => rfl) fun _ => .ite (T.has_fail e) (T.has_pure _)

section Runs

variable (hT : T.Runs)
include hT

theorem has_bindParameter (scope : ScopeId) (key : String) (value : Value) : T.Has (scope.bind key value) := by
  refine (has_checkAlive scope).bind fun _ => Has.bind (hT.modifyScope scope ?_) fun _ => ?_
  · exact fun _ => ⟨rfl, rfl, rfl⟩
  · refine (has_scopeRecord scope).bind fun _ => .ite ((has_text scope).bind fun _ => T.has_fail _)
      (Has.bind (hT.modifyScope scope ?_) fun _ => T.has_pure _)
    exact fun _ => ⟨rfl, rfl, rfl⟩

theorem has_applyIn (lambda : LambdaId) (scope : ScopeId) : T.Has (lambda.applyIn scope) :=
  hT.nested ((hT.compute lambda scope).bind fun v => (has_forced v).holding _)

theorem has_runHandlers (scope : ScopeId) (handlers : List Value) : T.Has (scope.runHandlers handlers) := by
  induction handlers with
  | nil => exact T.has_pure _
  | cons handler handlers ih =>
    unfold ScopeId.runHandlers
    cases handler.lambda? with
    | none => exact ih
    | some lambda => exact (has_applyIn hT lambda scope).bind fun _ => ih

theorem has_offer {scope : ScopeId} (h : T.Has scope.destroy) (handlers : List Value) (e : Error) :
    T.Has (scope.offer handlers e) :=
  (has_bindParameter hT scope _ _).bind fun _ => (has_bindParameter hT scope _ _).bind fun _ =>
    (has_runHandlers hT scope handlers).attempt.bind fun _ => h.bind fun _ => T.has_pure _

theorem has_handleAlong (scopes : List ScopeId) (e : Error) : T.Has (ScopeId.handleAlong scopes e) := by
  induction scopes generalizing e with
  | nil => exact has_reportError e
  | cons scope scopes ih =>
    refine .ite (T.has_fail e) ((has_scopeRecord scope).bind fun record => .ite (ih e) ?_)
    refine Has.holding (hT.child scope _ _ fun child hchild => Has.holding ?_ _) _
    refine (has_offer hT hchild _ e).bind fun outcome => ?_
    cases outcome with
    | ok _ => exact T.has_pure _
    | error failure => exact ih failure

theorem has_handleError (scope : ScopeId) (e : Error) : T.Has (scope.handleError e) :=
  Has.bind (T.has_gets fun w l => w.ancestors_withLearner l scope) fun scopes => has_handleAlong hT scopes e

theorem has_verdict (scope : ScopeId) (name : String) (constraint : Constraint) (value previous : Value) :
    T.Has (scope.verdict name constraint value previous) := by
  unfold ScopeId.verdict
  cases constraint.predicate.lambda? with
  | none => exact T.has_pure _
  | some lambda =>
    refine (has_scopeRecord scope).bind fun _ => hT.child scope _ _ fun child hchild => ?_
    refine (has_bindParameter hT child _ _).bind fun _ => (has_bindParameter hT child _ _).bind fun _ => ?_
    refine ((has_applyIn hT lambda child).holding _).attempt.bind fun outcome => hchild.bind fun _ => ?_
    cases outcome with
    | ok verdict => exact T.has_pure verdict
    | error e => exact T.has_fail _

end Runs

/-! ## New values of variables -/

/-- The trait allows that conditions are computed. -/
structure Judges (T : Trait) : Prop where
  verdict (scope : ScopeId) (name : String) (constraint : Constraint) (value previous : Value) :
    T.Has (scope.verdict name constraint value previous)

theorem Runs.judges (hT : T.Runs) : T.Judges :=
  ⟨has_verdict hT⟩

section Judges

variable (hT : T.Judges)
include hT

theorem has_checkConstraint (scope : ScopeId) (name : String) (constraint : Constraint)
    (value previous : Value) : T.Has (scope.checkConstraint name constraint value previous) :=
  ((hT.verdict scope name constraint value previous).bind fun verdict =>
    (has_isTrue verdict).bind fun _ =>
      .ite ((has_human value).bind fun _ => T.has_fail _) (T.has_pure _)).holding _

omit hT in
theorem has_checkThread (name : String) (record : VariableRecord) :
    T.Has (ScopeId.checkThread name record) :=
  Has.bind T.has_thread fun _ => .ite (T.has_fail _) (T.has_pure _)

omit hT in
theorem has_prepare (name : String) (value : Value) (flags : VariableFlags) :
    T.Has (ScopeId.prepare name value flags) := by
  have checked (value : Value) : T.Has (do
      if flags.numeric && !value.isLambda && !value.tag.isNumeric then
        Eval.fail (.new .invalidCast
          ("Variable '" ++ name ++ "' is numeric and cannot hold " ++ value.tag.name))
      else value.share) :=
    .ite (T.has_fail _) (has_share value)
  exact .ite (((has_fixDeep value false).holding _).bind checked) (Has.bind (T.has_pure value) checked)

theorem has_constrain (scope : ScopeId) (name : String) (constraint : Option Constraint) (value : Value)
    {previous : World → Value} (h : ∀ w l, previous (w.withLearner l) = previous w) :
    T.Has (scope.constrain name constraint value previous) := by
  cases constraint with
  | none => exact T.has_pure value
  | some constraint =>
    refine Has.bind (T.has_gets h) fun before => ?_
    exact (has_checkConstraint hT scope name constraint value before).bind fun _ =>
      (has_ofExcept _).bind fun value => has_share value

theorem has_storable (scope : ScopeId) (name : String) (value : Value) (flags : VariableFlags)
    (constraint : Option Constraint) {previous : World → Value}
    (h : ∀ w l, previous (w.withLearner l) = previous w) :
    T.Has (scope.storable name value flags constraint previous) :=
  (has_prepare name value flags).bind fun value => has_constrain hT scope name constraint value h

omit hT in
theorem has_declaredFlags (scope : ScopeId) (name : String) (flags : VariableFlags) :
    T.Has (scope.declaredFlags name flags) :=
  (has_scopeRecord scope).bind fun _ => .ite (T.has_pure _) (.ite (T.has_fail _) (T.has_pure _))

theorem has_propose (scope : ScopeId) (name : String) (value : Value) (declaration : Declaration) :
    T.Has (scope.propose name value declaration) := by
  refine (has_checkAlive scope).bind fun _ => .ite (T.has_fail _) ?_
  refine (has_declaredFlags scope name _).bind fun flags => ?_
  refine Has.bind (T.has_gets fun _ _ => rfl) fun existing => Has.bind ?_ fun constraint => Has.holding ?_ _
  · cases existing with
    | none => exact T.has_pure _
    | some existing =>
      exact .ite (T.has_fail _) ((has_checkThread name existing).bind fun _ => has_ofExcept _)
  · refine (has_storable hT scope name value flags constraint fun _ _ => rfl).bind fun value => ?_
    exact Has.bind T.has_thread fun thread => T.has_pure _

omit hT in
theorem has_checkReach (scope owner : ScopeId) (name : String) :
    T.Has (ScopeId.checkReach scope owner name) := by
  refine T.has_world (fun w l => ?_) fun w => ?_
  · rw [World.ancestors_withLearner]
    rfl
  · split
    · exact T.has_fail _
    · exact T.has_pure ()

theorem has_proposeValue (scope owner : ScopeId) (id : VariableId) (name : String) (value : Value) :
    T.Has (scope.proposeValue owner id name value) := by
  refine (has_checkReach scope owner name).bind fun _ => (has_variableAt id).bind fun record => ?_
  refine .ite (T.has_fail _) ((has_checkThread name record).bind fun _ => Has.holding ?_ _)
  exact has_storable hT scope name value _ _ fun _ _ => rfl

end Judges

theorem has_liveListeners (hT : T.Runs) (scope : ScopeId) (name : String) : T.Has (scope.liveListeners name) := by
  refine (has_scopeRecord scope).bind fun record => ?_
  split
  · exact T.has_pure _
  · exact Has.bind hT.liveness fun _ => T.has_pure _

/-! ## Variables -/

/-- The trait allows passes. -/
structure Notifies (T : Trait) : Prop extends T.Runs where
  propagate (lambdas : List LambdaId) : T.Has (LambdaId.propagate lambdas)

/-- The trait allows that variables are stored. -/
structure Writes (T : Trait) : Prop extends T.Notifies where
  bindVariable (scope : ScopeId) (name : String) (record : VariableRecord) :
    T.Has (Eval.modify fun w => w.bindVariable scope name record)
  storeValue (id : VariableId) (value : Value) : T.Has (Eval.modify fun w => w.storeValue id value)

theorem has_notify (hT : T.Notifies) (v : Value) : T.Has v.notify := by
  unfold Value.notify
  cases v.lambda? with
  | none => exact Has.bind (T.has_pure ()) fun _ => T.has_pure v
  | some lambda => exact Has.bind (hT.propagate [lambda]) fun _ => T.has_pure v

theorem has_notifyName (hT : T.Notifies) (scope : ScopeId) (name : String) : T.Has (scope.notify name) := by
  refine (has_liveListeners hT.toRuns scope name).bind fun listeners =>
    Has.bind (hT.modifyScope scope ?_) fun _ => hT.propagate listeners
  exact fun _ => ⟨rfl, rfl, rfl⟩

section Writes

variable (hT : T.Writes)
include hT

theorem has_declare (scope : ScopeId) (name : String) (value : Value) (declaration : Declaration) :
    T.Has (scope.declare name value declaration) := by
  refine (has_propose hT.toRuns.judges scope name value declaration).bind fun proposal => ?_
  refine Has.bind (hT.bindVariable scope name proposal.record) fun _ => ?_
  exact ((has_notifyName hT.toNotifies scope name).holding _).bind fun _ => T.has_pure _

theorem has_assign (scope owner : ScopeId) (id : VariableId) (name : String) (value : Value) :
    T.Has (scope.assign owner id name value) := by
  refine (has_proposeValue hT.toRuns.judges scope owner id name value).bind fun value => ?_
  refine Has.bind (hT.storeValue id value) fun _ => ?_
  exact ((has_notifyName hT.toNotifies owner name).holding _).bind fun _ => T.has_pure _

theorem has_set (scope : ScopeId) (name : String) (value : Value) : T.Has (scope.set name value) := by
  refine (has_checkAlive scope).bind fun _ => .ite (T.has_fail _) ?_
  refine (has_findVariable scope name).bind fun found => ?_
  cases found with
  | some found => exact has_assign hT scope found.1 found.2 name value
  | none => exact has_declare hT scope name value {}

end Writes

end Trait

end Reactor
