import Reactor.Engine.Fork
import Reactor.Proofs.Discipline.Changes
import Reactor.Proofs.Discipline.Values

/-!
# The engine and disciplines

Scopes, error handlers, forced lambdas, notifications, variables and forks keep every discipline. The
scripts that they evaluate are those that the state holds. A forced lambda shows its result to the
learner and reads candidates for the type of an input, and neither reaches a result.
-/

namespace Reactor.Discipline

variable {D : Discipline} {α : Type}

/-! ## Scopes -/

theorem keeps_scopeRecord (scope : ScopeId) : D.Keeps scope.record :=
  Trait.has_scopeRecord (T := D.trait) scope

theorem keeps_text (scope : ScopeId) : D.Keeps scope.text :=
  Trait.has_text (T := D.trait) scope

theorem keeps_modifyScope (scope : ScopeId) {f : ScopeRecord → ScopeRecord}
    (h : ∀ r : ScopeRecord, r.Tame (f r)) : D.Keeps (Eval.modify fun w => w.modifyScope scope f) :=
  keeps_modify ⟨fun _ _ => rfl, fun hw => D.scope scope h hw⟩

theorem keeps_checkAlive (scope : ScopeId) : D.Keeps scope.checkAlive :=
  Trait.has_checkAlive (T := D.trait) scope

theorem keeps_getParameter (scope : ScopeId) (key : String) : D.Keeps (scope.getParameter key) :=
  Trait.has_getParameter (T := D.trait) scope key

theorem keeps_getName (scope : ScopeId) (name : String) (must : Bool) : D.Keeps (scope.get name must) :=
  Trait.has_getName (T := D.trait) scope name must

/-- A scope of the engine's own, which it may destroy. -/
def Own (D : Discipline) (scope : ScopeId) (_ : World) : Prop :=
  D.firstScope ≤ scope.index

/-- A scope is created, as far as the discipline permits. -/
theorem alike_create {record : ScopeRecord} {w v : World}
    (h : D.holds { w with scopes := w.scopes.push record } ∧
      D.leads w { w with scopes := w.scopes.push record }) (hw : D.Rel w v) (ctx : Context) :
    D.Alike D.Own w (ScopeId.create record ctx w) (ScopeId.create record ctx v) := by
  have size : v.scopes.size = w.scopes.size := by rw [hw.same]; rfl
  have made : ScopeId.create record ctx v =
      .value ⟨w.scopes.size⟩ { v with scopes := v.scopes.push record } := by
    rw [← size]
    rfl
  have next : D.Rel { w with scopes := w.scopes.push record }
      { v with scopes := v.scopes.push record } := by
    refine ⟨?_, fun hs => by rw [hw.alone hs], h.1⟩
    rw [hw.same]
    rfl
  rw [made]
  exact .value next h.2 (D.firstScope_le hw.holds)

/-- What is made of a scope that lives, with its record at hand. -/
theorem Gives.onAlive {P : α → World → Prop} {scope : ScopeId} {f : ScopeRecord → Eval α}
    (h : ∀ {ctx : Context}, D.Admits ctx → ∀ {w v : World}, D.Rel w v →
      (w.scopeAt scope).destroyed = false →
      D.Alike P w (f (w.scopeAt scope) ctx w) (f (w.scopeAt scope) ctx v)) :
    D.Gives P (do scope.checkAlive; f (← scope.record)) := by
  refine ⟨fun {ctx} hctx w v hw => ?_⟩
  have record : v.scopeAt scope = w.scopeAt scope := by rw [hw.same]; rfl
  have text : v.scopeText scope = w.scopeText scope := by rw [hw.same]; rfl
  have onRecord (u : World) : (do scope.checkAlive; f (← scope.record) : Eval α) ctx u =
      if (u.scopeAt scope).destroyed = true then
        .error (.assertion ("Scope " ++ u.scopeText scope ++ " has been destroyed")) u
      else f (u.scopeAt scope) ctx u := by
    unfold ScopeId.checkAlive ScopeId.record ScopeId.text
    simp only [Eval.bind_apply, Eval.gets_apply, Outcome.bind_value]
    split <;> rfl
  rw [onRecord, onRecord, record, text]
  split
  · exact .error hw (D.refl _)
  · rename_i alive
    exact h hctx hw (Bool.not_eq_true _ ▸ alive)

theorem gives_child (scope : ScopeId) (pure : Bool) (name : String) :
    D.Gives D.Own (scope.child pure name) := by
  refine Gives.onAlive fun {ctx} hctx {w v} hw alive => ?_
  by_cases h : ((w.scopeAt scope).pure && !pure) = true
  · rw [if_pos h]
    exact ((keeps_text scope).bind fun _ => gives_fail _).run hctx hw
  · rw [if_neg h]
    refine alike_create (D.newScope rfl ?_ hw.holds) hw ctx
    exact
      { parent_lt := fun {_} h => by
          cases h
          exact World.lt_of_alive alive
        pure := fun {_} hparent habove => by
          cases hparent
          simpa [habove] using h
        known := fun h => nomatch h }

/-- The engine destroys scopes of its own. -/
theorem keeps_destroyOwn {scope : ScopeId} (h : D.firstScope ≤ scope.index) :
    D.Keeps scope.destroy :=
  keeps_modify ⟨fun _ _ => rfl, fun hw => D.destroy h hw⟩

/-! ## Computing lambdas -/

theorem keeps_lambdaRecord (lambda : LambdaId) : D.Keeps lambda.record :=
  keeps_gets fun _ _ => rfl

theorem keeps_awaitFork (fork : ForkId) (timeout : Option Nat) : D.Keeps (fork.await timeout) :=
  Trait.has_awaitFork (T := D.trait) fork timeout

/-- A new lambda is registered with the lambdas among its inputs. -/
theorem Respects.register {record : LambdaRecord} (h : record.Fresh D.allows) (size : Nat) :
    D.Respects fun w => record.inputs.foldl
      (fun v input =>
        match input.lambda? with
        | some source => (v.addDependent source ⟨size⟩).1
        | none => v)
      { w with lambdas := w.lambdas.push record } := by
  have pushed : D.Respects fun w => { w with lambdas := w.lambdas.push record } :=
    ⟨fun _ _ => rfl, fun hw => D.newLambda h hw⟩
  refine (Respects.foldl (fun input => ?_) record.inputs).comp pushed
  cases input.lambda? with
  | some source => exact Respects.addDependent source _
  | none => exact Respects.id

/-- Only an allowed script becomes the body of a lambda. -/
theorem keeps_newLambda {record : LambdaRecord} (h : record.Fresh D.allows) :
    D.Keeps (LambdaId.new record) := by
  have edges := Respects.choose (fun w : World => w.lambdas.size) (fun _ _ => rfl)
    (Respects.register h)
  exact keeps_modifyGet (fun w l => Prod.ext rfl (edges.withLearner w l)) fun _ hw => edges.holds hw

theorem keeps_ofBody (scope : ScopeId) (operation : String) {body : Body}
    (h : ∀ e, body = .script e → D.allows e) : D.Keeps (LambdaId.ofBody scope operation body) :=
  (keeps_scopeRecord scope).bind fun _ => keeps_newLambda ⟨fun {_} hb => h _ hb, rfl, rfl⟩

/-- The body of a lambda is one that the state holds. -/
theorem keeps_compute (lambda : LambdaId) (scope : ScopeId) : D.Keeps (lambda.compute scope) := by
  refine Gives.bindOf (p := fun record => ∀ e, record.body = .script e → D.allows e)
    (gives_gets (fun _ _ => rfl) fun w hw e => D.script hw) fun record h => ?_
  cases hb : record.body with
  | script e => exact keeps_evaluate (h e hb) scope none
  | lookup name => exact keeps_getName scope name true
  | await fork => exact keeps_awaitFork fork none

theorem keeps_liveness : D.Keeps Eval.liveness := by
  refine ⟨fun {ctx} _ w v h => ?_⟩
  have hv : v.liveness ctx.thread.held = w.liveness ctx.thread.held := by
    rw [h.same, World.liveness_withLearner]
  unfold Eval.liveness
  rw [hv]
  exact .value h (D.refl w) trivial

/-- What the engine does in scopes keeps the discipline. -/
theorem runs : D.trait.Runs where
  nested := Gives.nested
  liveness := keeps_liveness
  modifyScope := keeps_modifyScope
  child scope pure name _ h := (gives_child scope pure name).bindOf fun child own => h child (keeps_destroyOwn own)
  compute := keeps_compute

/-! ## Error handlers -/

/-- A reported error becomes an error as a value. -/
theorem gives_reportError (e : Error) : D.Gives Settled (reportError e) := by
  refine keeps_bind (keeps_modifyAside (fun _ => ⟨⟨rfl, rfl, rfl, rfl⟩, rfl, rfl⟩) fun _ _ => rfl) fun _ => ?_
  exact keeps_bind (keeps_gets fun _ _ => rfl) fun _ =>
    .ite (gives_fail e) (gives_pure fun _ _ => rfl)

/-- Whatever becomes of an error is no lambda. -/
theorem gives_handleAlong (scopes : List ScopeId) (e : Error) :
    D.Gives Settled (ScopeId.handleAlong scopes e) := by
  induction scopes generalizing e with
  | nil => exact gives_reportError e
  | cons scope scopes ih =>
    refine .ite (gives_fail e) ((keeps_scopeRecord scope).bind fun record => .ite (ih e) ?_)
    refine Gives.holding ((gives_child scope _ _).bindOf fun child own => Gives.holding ?_ _) _
    refine Gives.bind (Trait.has_offer runs (keeps_destroyOwn own) _ e) fun outcome => ?_
    cases outcome with
    | ok _ => exact gives_pure fun _ _ => rfl
    | error failure => exact ih failure

theorem gives_handleError (scope : ScopeId) (e : Error) : D.Gives Settled (scope.handleError e) :=
  keeps_bind (keeps_gets fun w l => w.ancestors_withLearner l scope) fun scopes =>
    gives_handleAlong scopes e

/-! ## Forcing lambdas -/

theorem gives_run (lambda : LambdaId) (scope : ScopeId) : D.Gives Settled (lambda.run scope) := by
  refine Gives.nested ((keeps_compute lambda scope).bind fun value => ?_)
  cases value.lambda? with
  | none => exact (keeps_pure ()).bind fun _ => (gives_forced value).holding _
  | some inner =>
    exact (keeps_modify (.follow lambda inner)).bind fun _ => (gives_forced value).holding _

theorem keeps_learn (operation : String) (inputs : List Value) (output : ValueType) :
    D.Keeps (Eval.modify fun w => w.learn operation inputs output) :=
  keeps_modifyLearner (fun _ _ => ⟨_, rfl⟩) fun _ => ⟨⟨rfl, rfl, rfl, rfl⟩, rfl, rfl⟩

/-- A marked value is no lambda if the value is none. -/
theorem lambda?_markFrom (n : Nat) (v : Value) : (Value.markFrom n v).1.lambda? = v.lambda? := by
  obtain ⟨data, notes⟩ := v
  unfold Value.markFrom
  split
  · rfl
  · cases data <;> rfl

theorem gives_share {v : Value} (h : v.lambda? = none) : D.Gives Settled v.share := by
  unfold Value.share
  refine Gives.ite ?_ (gives_pure fun _ _ => h)
  exact gives_modifyGet (fun _ _ => rfl)
    (fun _ hw => D.aside ⟨⟨rfl, rfl, rfl, rfl⟩, rfl, rfl⟩ hw)
    fun w _ => (lambda?_markFrom w.marks v).trans h

theorem gives_evaluate (lambda : LambdaId) : D.Gives Settled lambda.evaluate := by
  refine (keeps_lambdaRecord lambda).bind fun record => ?_
  refine (gives_run lambda record.scope).attempt.bindOf
    (p := fun outcome => ∀ v, outcome = .ok v → v.lambda? = none) fun outcome h => ?_
  cases outcome with
  | error e => exact gives_handleError _ _
  | ok value =>
    refine (gives_share (h value rfl)).bindOf fun value hv => ?_
    exact (keeps_learn _ _ _).bind fun _ => gives_pure fun _ _ => hv

theorem tame_settle (thread : ThreadId) (generation : Nat) {outcome : Except Error Value}
    (h : ∀ v, outcome = .ok v → v.lambda? = none) (record : LambdaRecord) :
    record.Tame D.allows (LambdaId.settle thread generation outcome record) := by
  unfold LambdaId.settle
  split
  · split
    · exact tame_refl _
    · refine ⟨rfl, rfl, .inl, fun hc => .inr ?_⟩
      split at hc
      · cases hc
        exact h _ rfl
      · cases hc
  · split
    · exact tame_refl _
    · exact ⟨rfl, rfl, .inl, fun hc => nomatch hc⟩
  · exact tame_refl _

/-- A thread that may take the mark of a computation away settles what became of it. -/
theorem marked_settle {lets : Mark → Prop} (h : ∀ owner, lets (.computing owner)) (thread : ThreadId)
    (generation : Nat) (outcome : Except Error Value) (record : LambdaRecord) :
    record.Marked lets (LambdaId.settle thread generation outcome record) := by
  intro mark hmark hbears
  cases mark with
  | computing owner => exact absurd (h owner) hmark
  | notifying other =>
    show other ∈ (LambdaId.settle thread generation outcome record).notifying
    rw [LambdaId.notifying_settle]
    exact hbears

/-- The result of a lambda is no lambda, whether it was kept or is new. -/
theorem gives_forceLambda (lambda : LambdaId) : D.Gives Settled lambda.force := by
  refine Gives.bindOf (p := fun record => (∀ v, record.cache = .holding v → v.lambda? = none) ∧
      (record.cache = .empty → ∀ owner, D.lets lambda (.computing owner)))
    (gives_gets (fun _ _ => rfl) fun w hw => ⟨fun v => D.settled hw, fun hc owner =>
      D.lets_of_not_bears hw fun h => by rw [LambdaRecord.Bears, hc] at h; cases h⟩)
    fun record ⟨h, hlets⟩ => ?_
  refine .ite (gives_evaluate lambda) (keeps_thread.bind fun thread => ?_)
  cases hc : record.cache with
  | holding value => exact gives_pure fun _ _ => h value hc
  | computing owner =>
    exact .ite (gives_evaluate lambda) (keeps_bind (keeps_gets fun _ _ => rfl) fun _ => gives_fail _)
  | empty =>
    have begun (record : LambdaRecord) (owner : ThreadId) :
        record.Marked (D.lets lambda) { record with cache := .computing owner } := by
      intro mark hmark hbears
      cases mark with
      | computing owner => exact absurd (hlets hc owner) hmark
      | notifying thread => exact hbears
    refine keeps_bind (keeps_modify (.ofTame lambda (fun _ =>
      ⟨rfl, rfl, .inl, fun h => nomatch h⟩) fun record => begun record _)) fun _ => ?_
    refine (gives_evaluate lambda).attempt.bindOf
      (p := fun outcome => ∀ v, outcome = .ok v → v.lambda? = none) fun outcome ho => ?_
    refine keeps_bind (keeps_modify (.ofTame lambda (tame_settle _ _ ho)
      (marked_settle (hlets hc) _ _ _))) fun _ => ?_
    cases outcome with
    | ok value => exact gives_pure fun _ _ => ho value rfl
    | error e => exact gives_fail e

/-! ## Notification -/

theorem keeps_tellCallbacks (record : LambdaRecord) (value : Value) {callbacks : List Callback}
    (h : ∀ c ∈ callbacks, D.allows c.body) :
    D.Keeps (LambdaId.tellCallbacks record value callbacks) := by
  refine keeps_inTurn (fun _ c hc => ?_) _ _ _
  refine (keeps_evaluate (h c hc) _ _).attempt.bind fun result => ?_
  cases result with
  | ok _ => exact keeps_pure _
  | error e => exact (gives_handleError _ _).keeps.bind fun _ => keeps_pure _

/-- The callbacks of a lambda are those that the state holds. -/
theorem allows_of_mem_callbacks {w : World} (hw : D.holds w) {lambda : LambdaId} {c : Callback}
    (h : c ∈ w.callbacks lambda) : D.allows c.body := by
  obtain ⟨⟨key, listener⟩, hmem, hc⟩ := List.mem_filterMap.1 h
  cases listener with
  | dependent id => cases hc
  | callback found =>
    cases hc
    exact D.callback hw hmem

theorem keeps_runCallbacks (lambda : LambdaId) : D.Keeps lambda.runCallbacks := by
  refine Gives.bindOf (p := fun callbacks => ∀ c ∈ callbacks, D.allows c.body)
    (gives_gets (fun _ _ => rfl) fun w hw c => allows_of_mem_callbacks hw) fun callbacks h => ?_
  cases callbacks with
  | nil => exact keeps_pure _
  | cons first rest =>
    refine ((gives_force lambda).holding _).bind fun value => Gives.holding ?_ _
    exact (keeps_lambdaRecord lambda).bind fun record => keeps_tellCallbacks record value h

theorem keeps_runAllCallbacks (lambdas : List LambdaId) :
    D.Keeps (LambdaId.runAllCallbacks lambdas) := by
  induction lambdas with
  | nil => exact keeps_pure _
  | cons lambda lambdas ih => exact (keeps_runCallbacks lambda).bind fun _ => ih

/-- The lambdas that a pass reaches are those that it marks. -/
theorem gives_enter (live : Holders) (thread : ThreadId) (lambdas : List LambdaId) :
    D.Gives (fun affected _ => ∀ k ∈ affected, D.lets k (.notifying thread))
      (Eval.modifyGet fun w => w.enter live thread lambdas) :=
  gives_modifyGet (fun w l => discover_withLearner live thread _ w l lambdas)
    (fun _ hw => holds_discover live thread _ hw lambdas)
    fun w hw _ hk => D.lets_of_not_bears hw (not_notifying_of_mem_discover live thread _ w lambdas hk)

theorem keeps_propagate (lambdas : List LambdaId) : D.Keeps (LambdaId.propagate lambdas) := by
  refine .ite (keeps_pure _) (Gives.nested ?_)
  refine keeps_thread.bind fun thread => keeps_liveness.bind fun live => ?_
  refine (gives_enter live thread.id lambdas).bindOf fun affected hlets => ?_
  refine keeps_bind (keeps_modify (.foldl .invalidate affected)) fun _ => ?_
  refine ((keeps_runAllCallbacks affected).holding _).attempt.bind fun outcome => ?_
  exact keeps_bind (keeps_modify (.foldlOn fun k hk => .leaveNotify (hlets k hk))) fun _ =>
    keeps_ofExcept outcome

theorem keeps_listenAs (lambda : LambdaId) (key : ListenerKey) {callback : Callback}
    (h : D.allows callback.body) : D.Keeps (lambda.listenAs key callback) := by
  refine keeps_modify (.ofTame lambda (fun record => ?_) fun record => ?_)
  rotate_left
  · split <;> exact .same rfl rfl
  split
  · exact tame_refl _
  · refine ⟨rfl, rfl, fun hc => ?_, .inl⟩
    rcases Entries.mem_insert hc with hc | hc
    · exact .inl hc
    · cases hc
      exact .inr h

theorem keeps_listen (lambda : LambdaId) {callback : Callback} (h : D.allows callback.body) :
    D.Keeps (lambda.listen callback) := by
  refine (keeps_lambdaRecord lambda).bind fun record => ?_
  refine keeps_bind (keeps_modify (.ofTame lambda (fun _ => ⟨rfl, rfl, .inl, .inl⟩)
    fun _ => .same rfl rfl)) fun _ => ?_
  exact (keeps_listenAs lambda _ h).bind fun _ => keeps_pure _

theorem keeps_unlisten (lambda : LambdaId) (key : ListenerKey) : D.Keeps (lambda.unlisten key) :=
  keeps_modifyGet (fun _ _ => rfl) fun _ hw => (Respects.removeListener lambda key).holds hw

/-- Notifications keep the discipline. -/
theorem notifies : D.trait.Notifies where
  toRuns := runs
  propagate := keeps_propagate

theorem keeps_notify (v : Value) : D.Keeps v.notify :=
  Trait.has_notify notifies v

/-! ## Variables -/

theorem keeps_notifyName (scope : ScopeId) (name : String) : D.Keeps (scope.notify name) :=
  Trait.has_notifyName notifies scope name

theorem keeps_prepare (name : String) (value : Value) (flags : VariableFlags) :
    D.Keeps (ScopeId.prepare name value flags) :=
  Trait.has_prepare (T := D.trait) name value flags

theorem keeps_checkConstraint (scope : ScopeId) (name : String) (constraint : Constraint)
    (value previous : Value) :
    D.Keeps (scope.checkConstraint name constraint value previous) :=
  Trait.has_checkConstraint runs.judges scope name constraint value previous

theorem keeps_propose (scope : ScopeId) (name : String) (value : Value)
    (declaration : Declaration) : D.Keeps (scope.propose name value declaration) :=
  Trait.has_propose runs.judges scope name value declaration

theorem keeps_proposeValue (scope owner : ScopeId) (id : VariableId) (name : String)
    (value : Value) : D.Keeps (scope.proposeValue owner id name value) :=
  Trait.has_proposeValue runs.judges scope owner id name value

/-! ## Forks -/

theorem keeps_fork (scope : ScopeId) (operation : String) {body : Expr} (h : D.allows body) :
    D.Keeps (scope.fork operation body) := by
  refine (keeps_scopeRecord scope).bind fun _ => (gives_child scope _ _).bind fun child => ?_
  refine keeps_bind (keeps_modifyGet (fun _ _ => rfl) fun _ hw => D.newFork h rfl hw) fun fork => ?_
  refine (keeps_ofBody scope operation ?_).andReturn _
  exact fun _ h => nomatch h

theorem keeps_runFork (fork : ForkId) : D.Keeps fork.run := by
  refine Gives.bindOf (p := fun record => D.allows record.body)
    (gives_gets (fun _ _ => rfl) fun w hw => D.forked hw fork) fun record h => ?_
  exact (keeps_evaluate h _ none).bind fun value =>
    ((keeps_fixDeep value false).holding _).bind fun result => keeps_share result

/-! ## Variables and scopes at will -/

/-- The discipline does not care for variables, nor for scopes as long as they make a tree. -/
structure Free (D : Discipline) : Prop where
  change {w v : World} (h : w.SameScripts v) (hn : w.Nested → v.Nested) (hw : D.holds w) :
    D.holds v ∧ D.leads w v

section Free

variable (hD : D.Free)
include hD

theorem Free.respects {g : World → World} (hr : ∀ w : World, w.SameScripts (g w))
    (hn : ∀ w : World, w.Nested → (g w).Nested)
    (hg : ∀ w l, g (w.withLearner l) = (g w).withLearner l) : D.Respects g :=
  ⟨hg, fun {w} hw => hD.change (hr w) (hn w) hw⟩

theorem keeps_twin (scope : ScopeId) : D.Keeps scope.twin := by
  refine (Gives.onAlive (P := D.Own) fun {ctx} hctx {w v} hw alive => ?_).keeps
  refine alike_create (hD.change ⟨rfl, rfl, rfl, rfl⟩ (fun hn => ?_) hw.holds) hw ctx
  exact hn.push (hn.opens (World.lt_of_alive alive) rfl rfl fun _ h => h)

theorem keeps_destroy (scope : ScopeId) : D.Keeps scope.destroy :=
  keeps_modify (hD.respects (fun _ => ⟨rfl, rfl, rfl, rfl⟩) (fun _ hn => hn.ended scope)
    fun _ _ => rfl)

theorem keeps_clear (scope : ScopeId) : D.Keeps scope.clear := by
  refine (keeps_scopeRecord scope).bind fun _ => .ite ((keeps_text scope).bind fun _ => gives_fail _)
    ((keeps_checkAlive scope).bind fun _ => keeps_modify ?_)
  refine hD.respects (fun _ => ⟨rfl, rfl, rfl, rfl⟩) (fun w hn => ?_) fun _ _ => rfl
  exact hn.modifyScope scope (fun _ => rfl) ScopeRecord.pure_emptied fun _ _ h => nomatch h

/-- Variables are stored at will. -/
theorem writes : D.trait.Writes where
  toNotifies := notifies
  bindVariable scope name record := keeps_modify (hD.respects (fun _ => ⟨rfl, rfl, rfl, rfl⟩)
    (fun _ hn => hn.bindVariable scope name record) fun _ _ => rfl)
  storeValue id value := keeps_modify (hD.respects (fun _ => ⟨rfl, rfl, rfl, rfl⟩)
    (fun _ hn => hn.storeValue id value) fun _ _ => rfl)

theorem keeps_declare (scope : ScopeId) (name : String) (value : Value)
    (declaration : Declaration) : D.Keeps (scope.declare name value declaration) :=
  Trait.has_declare (writes hD) scope name value declaration

theorem keeps_set (scope : ScopeId) (name : String) (value : Value) :
    D.Keeps (scope.set name value) :=
  Trait.has_set (writes hD) scope name value

end Free

end Reactor.Discipline
