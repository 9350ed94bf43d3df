import Reactor.Proofs.Traits.Engine
import Reactor.Proofs.Traits.Scripts
import Reactor.Session.Run

/-!
# Traits of actions

An action predicts if it brings a script that does (`Action.predicts`). It queries the learner if it
asks that of the runtime for a prediction, its size or a snapshot (`Action.queries`). What a host does is put
together from scripts, from work with values, and from a few steps of its own. Where a trait allows these steps
(`Trait.Acts`) all actions have it that neither predict nor query the learner, and if computations are free to
look at the learner all actions (`Trait.has_action`).
-/

namespace Reactor

mutual

/-- The action brings a script that predicts. -/
def Action.predicts : Action → Bool
  | .eval e _ => e.predicts
  | .define _ body => body.predicts
  | .onThread steps => anyStepPredicts steps
  | .inChildScope _ _ e => e.predicts
  | .declare _ e _ constraint => e.predicts || constraint.any (·.1.predicts)
  | .set _ e => e.predicts
  | .bind _ e => e.predicts
  | .listenVariable _ e => e.predicts
  | .addHandler e => e.predicts
  | .describeLambda e => e.predicts
  | .applyIn e => e.predicts
  | .listen e body _ => e.predicts || body.predicts
  | .listenAs e _ body => e.predicts || body.predicts
  | .unlisten e _ => e.predicts
  | .subscribe e body => e.predicts || body.predicts
  | .fork _ body _ => body.predicts
  | .save _ e _ => e.predicts
  | .storeSet _ e _ => e.predicts
  | .storePush _ e => e.predicts
  | .learn _ _ inputs _ => Expr.anyPredicts inputs
  | .predict _ _ inputs => Expr.anyPredicts inputs
  | _ => false

/-- The action of the step brings a script that predicts. -/
def Step.predicts : Step → Bool
  | .mk _ action => action.predicts

/-- Some step brings a script that predicts. -/
def anyStepPredicts : List Step → Bool
  | [] => false
  | step :: steps => step.predicts || anyStepPredicts steps

end

mutual

/-- The action asks the learner of the runtime for what it has seen. -/
def Action.queries : Action → Bool
  | .onThread steps => anyStepQueries steps
  | .predict learner _ _ => learner.isNone
  | .learnerSize learner => learner.isNone
  | .saveLearner learner _ => learner.isNone
  | .loadLearner learner _ _ => learner.isNone
  | _ => false

/-- The action of the step asks the learner of the runtime. -/
def Step.queries : Step → Bool
  | .mk _ action => action.queries

/-- Some step asks the learner of the runtime. -/
def anyStepQueries : List Step → Bool
  | [] => false
  | step :: steps => step.queries || anyStepQueries steps

end

theorem Value.viewAt_withLearner (w : World) (learner : Learner) (depth : Nat) (v : Value) :
    v.viewAt (w.withLearner learner) depth = v.viewAt w depth := by
  induction depth generalizing v with
  | zero => rfl
  | succ depth ih =>
    have same : Value.viewAt (w.withLearner learner) depth = Value.viewAt w depth := funext ih
    rw [Value.viewAt, Value.viewAt, same]
    rfl

theorem Value.view_withLearner (w : World) (learner : Learner) (v : Value) :
    v.view (w.withLearner learner) = v.view w :=
  viewAt_withLearner w learner _ v

/-- The trait allows the steps of a host. Those that bring scripts which predict, or that ask the learner of the
runtime, are considered only if they are free to look at the learner. -/
structure Trait.Acts (T : Trait) (free : Prop) : Prop extends T.Writes, T.Hosts free where
  root (source : Segment) :
    T.Has (ScopeId.create { name := "root", parent := none, source, pure := false })
  twin (scope : ScopeId) : T.Has scope.twin
  clear (scope : ScopeId) : T.Has scope.clear
  destroy (scope : ScopeId) : T.Has scope.destroy
  define (name : String) {body : Expr} (h : free ∨ body.predicts = false) :
    T.Has (Eval.modifyDesk fun desk =>
      { desk with definitions := Entries.insert desk.definitions name body })
  lookup (scope : ScopeId) (operation name : String) : T.Has (LambdaId.ofBody scope operation (.lookup name))
  listen (lambda : LambdaId) (callback : Callback) (h : free ∨ callback.body.predicts = false) :
    T.Has (lambda.listen callback)
  listenAs (lambda : LambdaId) (key : ListenerKey) (callback : Callback)
    (h : free ∨ callback.body.predicts = false) : T.Has (lambda.listenAs key callback)
  unlisten (lambda : LambdaId) (key : ListenerKey) : T.Has (lambda.unlisten key)
  subscribe (v : Value) (callback : Callback) (h : free ∨ callback.body.predicts = false) :
    T.Has (v.subscribe callback)
  fork (scope : ScopeId) (operation : String) {body : Expr} (h : free ∨ body.predicts = false) :
    T.Has (scope.fork operation body)
  setLearner (learner : Option String) (f : World → Learner → Learner)
    (hf : ∀ w l m, f (w.withLearner l) m = f w m) :
    T.Has (Eval.modify fun w => w.setLearner (f w (w.learnerNamed learner)) learner)
  askLearner {α : Type} {learner : Option String} (h : free ∨ learner.isNone = false)
    {f : World → Learner → α} (hf : ∀ w l m, f (w.withLearner l) m = f w m) :
    T.Has (Eval.gets fun w => f w (w.learnerNamed learner))
  loadSnapshot {learner : Option String} (h : free ∨ learner.isNone = false) (bytes : List UInt8) :
    T.Has (Reactor.loadSnapshot learner bytes)

namespace Trait

variable {T : Trait} {free : Prop} {α β : Type}

/-! ## Parts of actions -/

theorem Has.map {act : Eval α} (h : T.Has act) (f : α → β) : T.Has (f <$> act) := by
  rw [map_eq_pure_bind]
  exact h.andReturn f

theorem has_forIn {f : α → PUnit → Eval (ForInStep PUnit)} (h : ∀ a b, T.Has (f a b)) (items : List α)
    (first : PUnit) : T.Has (forIn items first f) := by
  induction items generalizing first with
  | nil =>
    rw [List.forIn_nil]
    exact T.has_pure first
  | cons item items ih =>
    rw [List.forIn_cons]
    refine (h item first).bind fun step => ?_
    cases step with
    | done b => exact T.has_pure b
    | yield b => exact ih b

theorem has_editDesk {f : Desk → Desk} (h : ∀ desk, (f desk).definitions = desk.definitions) :
    T.Has (Eval.modifyDesk f) :=
  has_modify (fun _ _ => rfl) fun _ => .aside ⟨⟨rfl, rfl, rfl, h _⟩, rfl, rfl⟩

theorem has_keepValue (register : Option String) (v : Value) : T.Has (keepValue register v) := by
  cases register with
  | none => exact T.has_pure ()
  | some name =>
    refine has_editDesk fun _ => ?_
    rfl

theorem has_showValue (v : Value) (register : Option String) : T.Has (showValue v register) :=
  (has_share v).bind fun v => (has_keepValue register v).bind fun _ =>
    Has.andReturn (T.has_gets fun w l => v.view_withLearner w l) _

theorem has_keepScope (scope : ScopeId) (name : String) : T.Has (keepScope scope name) := by
  refine Has.bind (has_editDesk fun _ => ?_) fun _ => (has_text scope).andReturn _
  rfl

theorem has_root (hT : T.Acts free) (source : Segment) : T.Has (ScopeId.root source) := by
  refine (hT.root source).bind fun scope => Has.bind (T.has_gets fun _ _ => rfl) fun globals => ?_
  refine (has_forIn (fun global _ => ?_) globals _).bind fun _ => T.has_pure scope
  exact (has_declare hT.toWrites scope global.1 global.2 _).attempt.bind fun _ => T.has_pure _

theorem has_requireLambda (v : Value) : T.Has v.requireLambda := by
  unfold Value.requireLambda
  split
  · exact T.has_pure _
  · exact T.has_fail _

theorem has_useStore (f : Store → Nat → Except Error (α × Store)) : T.Has (useStore f) := by
  refine T.has_world (fun _ _ => rfl) fun w => ?_
  refine (has_ofExcept _).bind fun result => Has.bind ?_ fun _ => T.has_pure _
  exact has_modify (fun _ _ => rfl) fun _ => .aside ⟨⟨rfl, rfl, rfl, rfl⟩, rfl, rfl⟩

theorem has_popStore (key : String) (millis : Nat) : T.Has (popStore key millis) := by
  refine (has_useStore _).bind fun found => ?_
  cases found with
  | some item => exact T.has_pure item
  | none =>
    exact .ite (has_now.bind fun _ => Has.bind (T.has_wait _) fun _ => T.has_pure _) (T.has_pure _)

theorem has_writeFile (name : String) (bytes : List UInt8) : T.Has (writeFile name bytes) := by
  refine .ite (has_editDesk fun _ => ?_) (T.has_fail _)
  rfl

theorem has_takeFile (name : String) : T.Has (takeFile name) := by
  refine Has.bind (T.has_gets fun _ _ => rfl) fun found => ?_
  cases found with
  | none => exact T.has_fail _
  | some bytes =>
    refine Has.bind (has_editDesk fun _ => ?_) fun _ => T.has_pure bytes
    rfl

theorem has_describe (lambda : LambdaId) : T.Has lambda.describe := by
  refine Has.bind (T.has_gets fun _ _ => rfl) fun record => ?_
  have rest (cached : Option View) : T.Has (do
      return { record, cached, scope := ← record.scope.text : LambdaInfo }) :=
    (has_text record.scope).andReturn _
  refine Has.bind ?_ rest
  cases record.cache with
  | holding v => exact Has.andReturn (T.has_gets fun w l => v.view_withLearner w l) _
  | _ => exact T.has_pure none

theorem has_listenName (hT : T.Runs) (scope : ScopeId) (name : String) (listener : Value) :
    T.Has (scope.listen name listener) := by
  refine (has_checkAlive scope).bind fun _ => ?_
  cases listener.lambda? with
  | none => exact T.has_pure _
  | some lambda =>
    refine Has.bind (T.has_gets fun w l => ?_) fun target => hT.modifyScope target fun r => ?_
    · rw [World.findVariable?_withLearner]
    · dsimp only
      split <;> exact ⟨rfl, rfl, rfl⟩

theorem has_addHandler (hT : T.Runs) (scope : ScopeId) (handler : Value) : T.Has (scope.addHandler handler) :=
  (has_checkAlive scope).bind fun _ => hT.modifyScope scope fun _ => ⟨rfl, rfl, rfl⟩

theorem has_ofVariable (hT : T.Acts free) (scope : ScopeId) (name : String) :
    T.Has (LambdaId.ofVariable scope name) :=
  (hT.lookup scope _ name).bind fun lambda =>
    (has_listenName hT.toRuns scope name _).bind fun _ => T.has_pure lambda

/-! ## Actions -/

mutual

/-- An action that neither predicts nor asks the learner gives the same, whatever that has seen. -/
theorem has_action (hT : T.Acts free) (scope : ScopeId) (action : Action) (h : free ∨ action.predicts = false)
    (hq : free ∨ action.queries = false) : T.Has (Action.run scope action) := by
  have shown {act : Eval Value} (hact : T.Has act) (register : Option String) :
      T.Has (do showValue (← act) register) :=
    hact.bind fun v => has_showValue v register
  match action with
  | .eval e name =>
    unfold Action.run
    refine (has_reply hT.toHosts scope none e h).bind fun reply => ?_
    cases reply with
    | value v => exact has_showValue v name
    | _ => exact T.has_pure _
  | .define name body =>
    unfold Action.run
    exact (hT.define name h).bind fun _ => T.has_pure _
  | .drop name =>
    unfold Action.run
    refine Has.bind (T.has_gets fun _ _ => rfl) fun found => Has.bind ?_ fun _ => T.has_pure _
    exact has_editDesk fun _ => by rfl
  | .counter name =>
    unfold Action.run
    exact Has.bind (T.has_gets fun _ _ => rfl) fun _ => T.has_pure _
  | .onThread steps =>
    unfold Action.run
    rw [← bind_assoc]
    exact (T.has_onNewThread (has_runAll hT steps h hq) false).andReturn _
  | .rootScope source file name =>
    unfold Action.run
    exact (has_root hT _).bind fun scope => has_keepScope scope name
  | .childScope pure label name =>
    unfold Action.run
    exact hT.child scope pure label fun child _ => has_keepScope child name
  | .twinScope name =>
    unfold Action.run
    exact (hT.twin scope).bind fun twin => has_keepScope twin name
  | .inChildScope pure label e =>
    unfold Action.run
    exact hT.child scope pure label fun child _ =>
      shown ((has_eval hT.toHosts e h child none).holding _) none
  | .describeScope =>
    unfold Action.run
    refine (has_scopeRecord scope).bind fun record => Has.bind ?_ fun parent =>
      (has_text scope).andReturn _
    cases record.parent with
    | none => exact T.has_pure none
    | some parent => exact (has_text parent).map _
  | .isBelow other =>
    unfold Action.run
    exact Has.bind (T.has_gets fun w l => w.isAbove_withLearner l _ scope) fun _ => T.has_pure _
  | .clear =>
    unfold Action.run
    exact (hT.clear scope).bind fun _ => T.has_pure _
  | .destroy =>
    unfold Action.run
    exact (hT.destroy scope).bind fun _ => T.has_pure _
  | .declare name e flags constraint =>
    unfold Action.run
    obtain ⟨h₁, h₂⟩ := may_or h
    refine (has_eval hT.toHosts e h₁ scope none).bind fun v => Has.bind (Has.holding ?_ _) fun constraint =>
      shown (has_declare hT.toWrites scope name v _) none
    cases constraint with
    | none => exact T.has_pure none
    | some constraint => exact (has_eval hT.toHosts constraint.1 h₂ scope none).andReturn _
  | .set name e =>
    unfold Action.run
    exact (has_eval hT.toHosts e h scope none).bind fun v => shown (has_set hT.toWrites scope name v) none
  | .get name must register =>
    unfold Action.run
    exact shown (has_getName scope name must) register
  | .bind name e =>
    unfold Action.run
    exact (has_eval hT.toHosts e h scope none).bind fun v => shown (has_bindParameter hT.toRuns scope name v) none
  | .getParameter name =>
    unfold Action.run
    exact shown (has_getParameter scope name) none
  | .parameters =>
    unfold Action.run
    exact Has.bind (T.has_gets fun w l => w.parameters_withLearner l scope) fun items =>
      has_showValue _ none
  | .hasName name =>
    unfold Action.run
    exact Has.bind (T.has_gets fun w l => w.hasName_withLearner l scope name) fun _ => T.has_pure _
  | .describeVariable name =>
    unfold Action.run
    refine T.has_world (fun w l => ?_) fun w => ?_
    · rw [World.findVariable?_withLearner]
      simp only [Value.view_withLearner]
      rfl
    · split
      · exact T.has_pure _
      · exact T.has_pure _
  | .listenVariable name e =>
    unfold Action.run
    exact (has_eval hT.toHosts e h scope none).bind fun v => (has_listenName hT.toRuns scope name v).bind fun _ =>
      T.has_pure _
  | .notifyVariable name =>
    unfold Action.run
    exact (has_notifyName hT.toNotifies scope name).bind fun _ => T.has_pure _
  | .countListeners name =>
    unfold Action.run
    exact (has_liveListeners hT.toRuns scope name).andReturn _
  | .addHandler e =>
    unfold Action.run
    exact (has_eval hT.toHosts e h scope none).bind fun v => (has_addHandler hT.toRuns scope v).bind fun _ =>
      T.has_pure _
  | .handleError error register =>
    unfold Action.run
    exact shown (has_handleError hT.toRuns scope error) register
  | .reports forget =>
    unfold Action.run
    refine Has.bind (T.has_gets fun _ _ => rfl) fun reports =>
      .ite (Has.bind ?_ fun _ => T.has_pure _) (T.has_pure _)
    exact has_modify (fun _ _ => rfl) fun _ => .aside ⟨⟨rfl, rfl, rfl, rfl⟩, rfl, rfl⟩
  | .report error =>
    unfold Action.run
    refine Has.bind ?_ fun _ => T.has_pure _
    exact has_modify (fun _ _ => rfl) fun _ => .aside ⟨⟨rfl, rfl, rfl, rfl⟩, rfl, rfl⟩
  | .reference name register =>
    unfold Action.run
    exact (has_ofVariable hT scope name).bind fun lambda => has_showValue _ _
  | .describeLambda e =>
    unfold Action.run
    exact (has_eval hT.toHosts e h scope none).bind fun v => (has_requireLambda v).bind fun lambda =>
      (has_describe lambda).andReturn _
  | .applyIn e =>
    unfold Action.run
    exact (has_eval hT.toHosts e h scope none).bind fun v => (has_requireLambda v).bind fun lambda =>
      shown ((has_applyIn hT.toRuns lambda scope).holding _) none
  | .listen e body name =>
    unfold Action.run
    obtain ⟨h₁, h₂⟩ := may_or h
    refine (has_eval hT.toHosts e h₁ scope none).bind fun v => Has.bind ?_ fun handle =>
      Has.bind (has_editDesk fun _ => by rfl) fun _ => T.has_pure _
    cases v.lambda? with
    | none => exact T.has_pure _
    | some lambda => exact (hT.listen lambda _ h₂).andReturn _
  | .listenAs e key body =>
    unfold Action.run
    obtain ⟨h₁, h₂⟩ := may_or h
    exact (has_eval hT.toHosts e h₁ scope none).bind fun v => (has_requireLambda v).bind fun lambda =>
      (hT.listenAs lambda _ _ h₂).bind fun _ => T.has_pure _
  | .unlisten e name =>
    unfold Action.run
    refine (has_eval hT.toHosts e h scope none).bind fun v => Has.bind (T.has_gets fun _ _ => rfl) fun found => ?_
    dsimp only
    split
    · exact (hT.unlisten _ _).andReturn _
    · exact T.has_pure _
  | .subscribe e body =>
    unfold Action.run
    obtain ⟨h₁, h₂⟩ := may_or h
    exact (has_eval hT.toHosts e h₁ scope none).bind fun v => ((hT.subscribe v _ h₂).holding _).andReturn _
  | .fork operation body name =>
    unfold Action.run
    refine (hT.fork scope operation h).bind fun forked =>
      Has.bind (has_editDesk fun _ => by rfl) fun _ => has_showValue _ _
  | .awaitFork name millis =>
    unfold Action.run
    exact Has.bind (T.has_gets fun _ _ => rfl) fun forked =>
      shown (has_awaitFork forked.fork _) none
  | .forkState name =>
    unfold Action.run
    exact Has.bind (T.has_gets fun _ _ => rfl) fun _ => T.has_pure _
  | .configure change =>
    unfold Action.run
    refine Has.bind ?_ fun _ => Has.bind (T.has_gets fun _ _ => rfl) fun _ => T.has_pure _
    exact has_modify (fun _ _ => rfl) fun _ => .aside ⟨⟨rfl, rfl, rfl, rfl⟩, rfl, rfl⟩
  | .resolve text register =>
    unfold Action.run
    exact (has_resolve text).bind fun uri => has_showValue _ register
  | .hasScheme name =>
    unfold Action.run
    exact T.has_pure _
  | .load key register =>
    unfold Action.run
    exact shown (has_useStore _) register
  | .save key e ttl =>
    unfold Action.run
    exact (has_eval hT.toHosts e h scope none).bind fun v => ((has_fixDeep v false).holding _).bind fun v =>
      (has_share v).bind fun v => (has_useStore _).bind fun _ => has_showValue v none
  | .storeSet key e ttl =>
    unfold Action.run
    exact (has_eval hT.toHosts e h scope none).bind fun v => (has_useStore _).bind fun _ => T.has_pure _
  | .storePush key e =>
    unfold Action.run
    exact (has_eval hT.toHosts e h scope none).bind fun v => (has_useStore _).bind fun _ => T.has_pure _
  | .storePop key millis =>
    unfold Action.run
    exact shown (has_popStore key millis) none
  | .storeRemove key =>
    unfold Action.run
    exact (has_useStore _).andReturn _
  | .storeSize =>
    unfold Action.run
    exact Has.bind (T.has_gets fun _ _ => rfl) fun _ => T.has_pure _
  | .newLearner name expiry =>
    unfold Action.run
    refine Has.bind ?_ fun _ => T.has_pure _
    exact has_modify (fun _ _ => rfl) fun _ => .aside ⟨⟨rfl, rfl, rfl, rfl⟩, rfl, rfl⟩
  | .learn learner operation inputs output =>
    unfold Action.run
    refine (has_evalAll hT.toHosts scope none inputs h).bind fun inputs => Has.bind ?_ fun _ => T.has_pure _
    refine hT.setLearner learner
      (fun w l => l.learn w.now operation (w.inputShapes inputs) output) fun w l m => ?_
    rw [World.inputShapes_withLearner]
    rfl
  | .predict learner operation inputs =>
    unfold Action.run
    refine (has_evalAll hT.toHosts scope none inputs h).bind fun inputs => Has.bind ?_ fun _ => T.has_pure _
    refine hT.askLearner hq (f := fun w l => l.predict operation (w.inputShapes inputs))
      fun w l m => ?_
    rw [World.inputShapes_withLearner]
  | .learnerSize learner =>
    unfold Action.run
    exact (hT.askLearner hq (f := fun _ l => l.entries.length) fun _ _ _ => rfl).andReturn _
  | .clearLearner learner =>
    unfold Action.run
    refine Has.bind ?_ fun _ => T.has_pure _
    exact hT.setLearner learner (fun _ l => l.clear) fun _ _ _ => rfl
  | .saveLearner learner file =>
    unfold Action.run
    exact (hT.askLearner hq (f := fun _ l => Snapshot.encode l) fun _ _ _ => rfl).bind fun bytes =>
      (has_writeFile file bytes).bind fun _ => T.has_pure _
  | .loadLearner learner file bytes =>
    unfold Action.run
    have load : T.Has (do
        return Result.reply (.integer (← loadSnapshot learner (← takeFile file)))) :=
      (has_takeFile file).bind fun bytes => (hT.loadSnapshot hq bytes).andReturn _
    cases bytes with
    | none => exact load
    | some bytes => exact (has_writeFile file bytes).bind fun _ => load

/-- The answer of such a step is the same too. -/
theorem has_runStep (hT : T.Acts free) (step : Step) (h : free ∨ step.predicts = false)
    (hq : free ∨ step.queries = false) :
    T.Has (Action.runStep step) := by
  match step with
  | .mk name action =>
    unfold Action.runStep
    refine Has.bind (T.has_gets fun _ _ => rfl) fun scope => ?_
    refine (has_action hT scope action h hq).attempt.bind fun outcome => ?_
    refine Has.bind (T.has_gets fun _ _ => rfl) fun log => Has.bind ?_ fun _ => T.has_pure _
    exact has_editDesk fun _ => by rfl

theorem has_runAll (hT : T.Acts free) (steps : List Step) (h : free ∨ anyStepPredicts steps = false)
    (hq : free ∨ anyStepQueries steps = false) : T.Has (Action.runAll steps) := by
  match steps with
  | [] => unfold Action.runAll; exact T.has_pure []
  | step :: steps =>
    unfold Action.runAll
    obtain ⟨h₁, h₂⟩ := may_or h
    obtain ⟨hq₁, hq₂⟩ := may_or hq
    exact (has_runStep hT step h₁ hq₁).bind fun _ => (has_runAll hT steps h₂ hq₂).andReturn _

end


end Trait

end Reactor
