import Reactor.Proofs.Discipline.Scripts
import Reactor.Proofs.Traits.Actions

/-!
# Actions of a host

An action that neither predicts nor queries the learner keeps to scripts that do not predict, and its
answer does not depend on what the learner has seen (`Discipline.keeps_action`). A query has an answer of its
own, and still no influence on the state (`Discipline.upholds_action`).
-/

namespace Reactor

namespace Discipline

variable {D : Discipline}

/-! ## Parts of actions -/

theorem keeps_editDesk {f : Desk → Desk} (h : ∀ desk, (f desk).definitions = desk.definitions) :
    D.Keeps (Eval.modifyDesk f) :=
  Trait.has_editDesk (T := D.trait) h

theorem keeps_keepScope (scope : ScopeId) (name : String) : D.Keeps (keepScope scope name) :=
  Trait.has_keepScope (T := D.trait) scope name

theorem keeps_writeFile (name : String) (bytes : List UInt8) : D.Keeps (writeFile name bytes) :=
  Trait.has_writeFile (T := D.trait) name bytes

theorem keeps_takeFile (name : String) : D.Keeps (takeFile name) :=
  Trait.has_takeFile (T := D.trait) name

/-- A scope without a parent and without variables always fits in. -/
theorem keeps_createFirst {record : ScopeRecord} (hparent : record.parent = none)
    (hvars : record.vars = []) : D.Keeps (ScopeId.create record) := by
  refine ⟨fun {ctx} _ {w v} hw => (alike_create (D.newScope hvars ?_ hw.holds) hw ctx).mono
    fun _ _ _ _ => trivial⟩
  exact
    { parent_lt := fun h => nomatch hparent ▸ h
      pure := fun h _ => nomatch hparent ▸ h
      known := fun h => nomatch hvars ▸ h }

/-- The learner of the runtime is asked only if there is one run. -/
theorem keeps_askLearner {α : Type} {learner : Option String}
    (h : D.single ∨ learner.isNone = false) {f : World → Learner → α}
    (hf : ∀ w l m, f (w.withLearner l) m = f w m) :
    D.Keeps (Eval.gets fun w => f w (w.learnerNamed learner)) := by
  rcases h with hs | h
  · exact keeps_getsAlone hs _
  · cases learner with
    | none => cases h
    | some name => exact keeps_gets fun w l => hf w l _

theorem keeps_loadSnapshot {learner : Option String} (h : D.single ∨ learner.isNone = false)
    (bytes : List UInt8) : D.Keeps (loadSnapshot learner bytes) := by
  unfold loadSnapshot
  split
  · exact gives_fail _
  · rcases h with hs | h
    · refine keeps_modifyGetAlone hs fun w => ?_
      cases learner <;> exact ⟨⟨rfl, rfl, rfl, rfl⟩, rfl, rfl⟩
    · cases learner with
      | none => cases h
      | some name =>
        exact keeps_modifyGetAside (fun _ _ => rfl) fun _ => ⟨⟨rfl, rfl, rfl, rfl⟩, rfl, rfl⟩

/-- A learner that the desk holds does not depend on that of the runtime, which may change at
will. -/
theorem keeps_setLearner (learner : Option String) (f : World → Learner → Learner)
    (hf : ∀ w l m, f (w.withLearner l) m = f w m) :
    D.Keeps (Eval.modify fun w => w.setLearner (f w (w.learnerNamed learner)) learner) := by
  cases learner with
  | none => exact keeps_modifyLearner (fun _ _ => ⟨_, rfl⟩) fun _ => ⟨⟨rfl, rfl, rfl, rfl⟩, rfl, rfl⟩
  | some name =>
    refine keeps_modifyAside (fun _ => ⟨⟨rfl, rfl, rfl, rfl⟩, rfl, rfl⟩) fun w l => ?_
    rw [hf]
    rfl

/-- A new definition that is allowed. -/
theorem keeps_define (hD : D.Hosts) (name : String) {body : Expr}
    (h : D.single ∨ body.predicts = false) :
    D.Keeps (Eval.modifyDesk fun desk =>
      { desk with definitions := Entries.insert desk.definitions name body }) :=
  keeps_modify ⟨fun _ _ => rfl, fun hw => hD.define hw name (hD.allows_iff.2 h)⟩

/-! ## Actions -/

/-- What a host does keeps the discipline. -/
theorem acts (hD : D.Hosts) : D.trait.Acts D.single where
  toWrites := writes hD.toFree
  toHosts := hosts hD
  root _ := keeps_createFirst rfl rfl
  twin := keeps_twin hD.toFree
  clear := keeps_clear hD.toFree
  destroy := keeps_destroy hD.toFree
  define name _ h := keeps_define hD name h
  lookup scope operation _ := keeps_ofBody scope operation fun _ h => nomatch h
  listen lambda _ h := keeps_listen lambda (hD.allows_iff.2 h)
  listenAs lambda _ _ h := keeps_listenAs lambda _ (hD.allows_iff.2 h)
  unlisten := keeps_unlisten
  subscribe v _ h := keeps_subscribe v (hD.allows_iff.2 h)
  fork scope operation _ h := keeps_fork scope operation (hD.allows_iff.2 h)
  setLearner := keeps_setLearner
  askLearner := keeps_askLearner
  loadSnapshot := keeps_loadSnapshot

theorem keeps_root (hD : D.Hosts) (source : Segment) : D.Keeps (ScopeId.root source) :=
  Trait.has_root (acts hD) source

/-- An action that neither predicts nor asks the learner gives the same, whatever that has seen. -/
theorem keeps_action (hD : D.Hosts) (scope : ScopeId) (action : Action)
    (h : D.single ∨ action.predicts = false) (hq : D.single ∨ action.queries = false) :
    D.Keeps (Action.run scope action) :=
  Trait.has_action (acts hD) scope action h hq

/-- The answer of such a step is the same too. -/
theorem keeps_runStep (hD : D.Hosts) (step : Step) (h : D.single ∨ step.predicts = false)
    (hq : D.single ∨ step.queries = false) : D.Keeps (Action.runStep step) :=
  Trait.has_runStep (acts hD) step h hq

/-! ## Queries -/

/-- Every state of the outcome is one that the discipline holds of. -/
inductive Upheld {α : Type} : Outcome α → Prop
  | value {a : α} {w : World} (h : unpredicting.holds w) : Upheld (.value a w)
  | error {e : Error} {w : World} (h : unpredicting.holds w) : Upheld (.error e w)
  | panic {message : Option String} {w : World} (h : unpredicting.holds w) :
    Upheld (.panic message w)
  | waiting {on : Wait} {w : World} {f : World → Outcome α} (h : unpredicting.holds w)
    (hf : ∀ {w}, unpredicting.holds w → Upheld (f w)) : Upheld (.waiting on w f)
  | exhausted : Upheld .exhausted

/-- The computation keeps to scripts that do not predict, whatever its value depends on. -/
structure Upholds {α : Type} (act : Eval α) : Prop where
  run {ctx : Context} (hctx : unpredicting.Admits ctx) {w : World} (h : unpredicting.holds w) :
    Upheld (act ctx w)

section Upholds

variable {α β : Type}

theorem Alike.upheld {P : α → World → Prop} {u : World} {x y : Outcome α}
    (h : unpredicting.Alike P u x y) : Upheld x := by
  induction h with
  | value h _ _ => exact .value h.holds
  | error h _ => exact .error h.holds
  | panic h _ => exact .panic h.holds
  | waiting h _ _ ih => exact .waiting h.holds fun hw => ih (.refl hw) trivial
  | exhausted => exact .exhausted

theorem Gives.upholds {P : α → World → Prop} {act : Eval α} (h : unpredicting.Gives P act) :
    Upholds act :=
  ⟨fun hctx _ hw => (h.run hctx (.refl hw)).upheld⟩

theorem Upheld.bind {x : Outcome α} {f : α → World → Outcome β} (h : Upheld x)
    (hf : ∀ a w, unpredicting.holds w → Upheld (f a w)) : Upheld (x.bind f) := by
  induction h with
  | value h => exact hf _ _ h
  | error h => exact .error h
  | panic h => exact .panic h
  | waiting h _ ih => exact .waiting h fun hw => ih hw
  | exhausted => exact .exhausted

theorem Upheld.attempt {x : Outcome α} (h : Upheld x) : Upheld x.attempt := by
  induction h with
  | value h => exact .value h
  | error h => exact .value h
  | panic h => exact .panic h
  | waiting h _ ih => exact .waiting h fun hw => ih hw
  | exhausted => exact .exhausted

theorem Upholds.bind {act : Eval α} {f : α → Eval β} (h : Upholds act) (hf : ∀ a, Upholds (f a)) :
    Upholds (act >>= f) := by
  refine ⟨fun hctx w hw => ?_⟩
  rw [Eval.bind_apply]
  exact (h.run hctx hw).bind fun a _ hw => (hf a).run hctx hw

theorem upholds_gets (f : World → α) : Upholds (Eval.gets f) :=
  ⟨fun _ _ hw => .value hw⟩

end Upholds

theorem upholds_loadSnapshot (learner : Option String) (bytes : List UInt8) :
    Upholds (loadSnapshot learner bytes) := by
  unfold loadSnapshot
  split
  · exact (gives_fail (P := fun _ _ => True) _).upholds
  · cases learner <;>
      exact ⟨fun _ _ hw => .value (World.Unpredicting.ofSame hw ⟨rfl, rfl, rfl, rfl⟩)⟩

mutual

/-- An action that brings no script that predicts stores none, even if it asks the learner. -/
theorem upholds_action (scope : ScopeId) (action : Action) (h : action.predicts = false) :
    Upholds (Action.run scope action) := by
  by_cases hq : action.queries = false
  · exact (keeps_action hosts_unpredicting scope action (.inr h) (.inr hq)).upholds
  · cases action with
    | onThread steps =>
      unfold Action.run
      have thread : unpredicting.Keeps (Eval.modifyGet fun w =>
          (w.threads, { w with threads := w.threads + 1 })) :=
        keeps_modifyGetAside (fun _ _ => rfl) fun _ => ⟨⟨rfl, rfl, rfl, rfl⟩, rfl, rfl⟩
      refine thread.upholds.bind fun id => Upholds.bind ?_ fun _ => (keeps_pure _).upholds
      exact ⟨fun hctx _ hw => (upholds_runAll steps h).run (hctx.withThread _) hw⟩
    | predict learner operation inputs =>
      unfold Action.run
      exact (keeps_evalAll hosts_unpredicting scope none inputs (.inr h)).upholds.bind fun _ => (upholds_gets _).bind fun _ =>
        (keeps_pure _).upholds
    | learnerSize learner =>
      unfold Action.run
      exact (upholds_gets _).bind fun _ => (keeps_pure _).upholds
    | saveLearner learner file =>
      unfold Action.run
      exact (upholds_gets _).bind fun bytes => (keeps_writeFile file bytes).upholds.bind fun _ =>
        (keeps_pure _).upholds
    | loadLearner learner file bytes =>
      unfold Action.run
      have load : Upholds (do
          return Result.reply (.integer (← loadSnapshot learner (← takeFile file)))) :=
        (keeps_takeFile file).upholds.bind fun bytes => (upholds_loadSnapshot learner bytes).bind
          fun _ => (keeps_pure _).upholds
      cases bytes with
      | none => exact load
      | some bytes => exact (keeps_writeFile file bytes).upholds.bind fun _ => load
    | _ => exact absurd rfl hq

theorem upholds_runStep (step : Step) (h : step.predicts = false) :
    Upholds (Action.runStep step) := by
  match step with
  | .mk name action =>
    unfold Action.runStep
    refine (upholds_gets _).bind fun scope => Upholds.bind
      ⟨fun hctx _ hw => ((upholds_action scope action h).run hctx hw).attempt⟩ fun outcome => ?_
    refine (upholds_gets _).bind fun log => Upholds.bind (Gives.upholds (keeps_editDesk ?_)) fun _ =>
      (keeps_pure _).upholds
    exact fun _ => rfl

theorem upholds_runAll (steps : List Step) (h : anyStepPredicts steps = false) :
    Upholds (Action.runAll steps) := by
  match steps with
  | [] => unfold Action.runAll; exact (keeps_pure []).upholds
  | step :: steps =>
    unfold Action.runAll
    obtain ⟨h₁, h₂⟩ := Bool.or_eq_false_iff.1 h
    exact (upholds_runStep step h₁).bind fun _ => (upholds_runAll steps h₂).bind fun _ =>
      (keeps_pure _).upholds

end

end Discipline

end Reactor
