import Mathlib.Data.List.Forall2
import Reactor.Proofs.Discipline.Actions
import Reactor.Session.Basic

/-!
# Predictions are advice

The learner of a runtime has no influence on anything but predictions. Two sessions *agree*
(`Session.Agree`) if they differ in the contents of the learner only, hold no script that predicts,
and have forks under way that go on alike. Sessions that agree give the same answers to steps that do
not consult the learner and agree again after them (`Session.advice`).

Each part of a session runs computations that keep to scripts that do not predict
(`Discipline.unpredicting`); what is added here is the bookkeeping of the forks that wait.
-/

namespace Reactor

open Discipline

/-- Two waiting forks wait for the same and go on alike. -/
structure Suspended.Alike (a b : Suspended) : Prop where
  fork : b.fork = a.fork
  on : b.on = a.on
  resume {w v : World} (h : unpredicting.Rel w v) :
    unpredicting.Alike (fun _ _ => True) w (a.resume w) (b.resume v)

namespace Session

/-- The session after some steps. -/
def after (s : Session) (steps : List Step) : Session :=
  steps.foldl (fun s step => (s.step step).2) s

/-- The session with another learner. -/
def withLearner (s : Session) (learner : Learner) : Session :=
  { s with world := s.world.withLearner learner }

/-- Two sessions differ in the learner only, and neither holds a script that predicts. -/
structure Agree (s t : Session) : Prop where
  world : unpredicting.Rel s.world t.world
  started : t.started = s.started
  suspended : List.Forall₂ Suspended.Alike s.suspended t.suspended

theorem Agree.withWorld {s t : Session} (h : s.Agree t) {w v : World}
    (hw : unpredicting.Rel w v) : Agree { s with world := w } { t with world := v } :=
  ⟨hw, h.started, h.suspended⟩

/-! ## Forks under way -/

theorem isOver_eq {w v : World} (h : unpredicting.Rel w v) (on : Wait) :
    v.isOver on = w.isOver on := by
  rw [h.same]
  cases on <;> rfl

theorem finishFork_rel {w v : World} (h : unpredicting.Rel w v) (fork : ForkId)
    (outcome : Except Error Value) :
    unpredicting.Rel (w.finishFork fork outcome) (v.finishFork fork outcome) :=
  Respects.rel (g := fun w => w.finishFork fork outcome)
    ⟨fun _ _ => rfl, fun hw => ⟨World.Unpredicting.finishFork hw fork outcome, trivial⟩⟩ h

theorem Agree.note {s t : Session} (h : s.Agree t) (fork : ForkId) {u : World}
    {x y : Outcome Value} (hxy : unpredicting.Alike (fun _ _ => True) u x y) :
    (s.note fork x).Agree (t.note fork y) := by
  cases hxy with
  | value hw _ _ => exact ⟨finishFork_rel hw fork _, h.started, h.suspended⟩
  | error hw _ => exact ⟨finishFork_rel hw fork _, h.started, h.suspended⟩
  | panic hw _ => exact ⟨finishFork_rel hw fork _, h.started, h.suspended⟩
  | waiting hw _ hfg =>
    refine ⟨hw, h.started, List.rel_append h.suspended (.cons ⟨rfl, rfl, fun h => ?_⟩ .nil)⟩
    exact hfg h trivial
  | exhausted => exact ⟨finishFork_rel h.world fork _, h.started, h.suspended⟩

theorem Agree.startFork {s t : Session} (h : s.Agree t) (fork : ForkId) :
    (s.startFork fork).Agree (t.startFork fork) := by
  have hw : unpredicting.Rel { s.world with threads := s.world.threads + 1 }
      { t.world with threads := t.world.threads + 1 } :=
    Respects.rel (g := fun w => { w with threads := w.threads + 1 })
      (.aside (fun _ => ⟨⟨rfl, rfl, rfl, rfl⟩, rfl, rfl⟩) fun _ _ => rfl) h.world
  have ht : t.world.threads = s.world.threads := by rw [h.world.same]; rfl
  have hst : Agree { s with started := fork.index + 1 } { t with started := fork.index + 1 } :=
    ⟨h.world, rfl, h.suspended⟩
  unfold Session.startFork
  rw [ht] at hw ⊢
  exact hst.note fork ((keeps_runFork fork).run (admits_ofBudget hosts_unpredicting _ _) hw)

theorem Agree.startForks {s t : Session} (h : s.Agree t) : s.startForks.Agree t.startForks := by
  have started (forks : List Nat) {s t : Session} (h : s.Agree t) :
      (forks.foldl (fun s i => if s.suspended.length < workers then s.startFork ⟨i⟩ else s) s).Agree
        (forks.foldl (fun s i => if s.suspended.length < workers then s.startFork ⟨i⟩ else s) t) := by
    induction forks generalizing s t with
    | nil => exact h
    | cons i forks ih =>
      rw [List.foldl_cons, List.foldl_cons, ← h.suspended.length_eq]
      split
      · exact ih (h.startFork ⟨i⟩)
      · exact ih h
  have forks : t.world.forks = s.world.forks := by rw [h.world.same]; rfl
  unfold Session.startForks
  rw [forks, h.started]
  exact started _ h

theorem forall₂_eraseIdx {α β : Type} {R : α → β → Prop} {xs : List α} {ys : List β}
    (h : List.Forall₂ R xs ys) (i : Nat) : List.Forall₂ R (xs.eraseIdx i) (ys.eraseIdx i) := by
  induction h generalizing i with
  | nil => exact .nil
  | cons hab hrest ih =>
    cases i with
    | zero => exact hrest
    | succ i => exact .cons hab (ih i)

theorem Agree.resume {s t : Session} (h : s.Agree t) (i : Nat) {a b : Suspended} (hab : a.Alike b) :
    (s.resume i a).Agree (t.resume i b) := by
  have hst : Agree { s with suspended := s.suspended.eraseIdx i }
      { t with suspended := t.suspended.eraseIdx i } :=
    ⟨h.world, h.started, forall₂_eraseIdx h.suspended i⟩
  unfold Session.resume
  rw [hab.fork]
  exact hst.note _ (hab.resume h.world)

/-- The first waiting fork that can go on is the same in both. -/
theorem find_over {w v : World} (h : unpredicting.Rel w v) {xs ys : List Suspended}
    (hxy : List.Forall₂ Suspended.Alike xs ys) (start : Nat) :
    Option.Rel (fun a b => a.1.Alike b.1 ∧ b.2 = a.2)
      ((xs.zipIdx start).find? fun (waiting, _) => w.isOver waiting.on)
      ((ys.zipIdx start).find? fun (waiting, _) => v.isOver waiting.on) := by
  induction hxy generalizing start with
  | nil => exact .none
  | @cons a b xs ys hab _ ih =>
    rw [List.zipIdx_cons, List.zipIdx_cons, List.find?_cons, List.find?_cons]
    dsimp only
    rw [isOver_eq h, hab.on]
    cases w.isOver a.on with
    | true => exact .some ⟨hab, rfl⟩
    | false => exact ih (start + 1)

theorem Agree.settle {s t : Session} (h : s.Agree t) (rounds : Nat) :
    (s.settle rounds).Agree (t.settle rounds) := by
  induction rounds generalizing s t with
  | zero => exact h
  | succ rounds ih =>
    have started := h.startForks
    unfold Session.settle
    dsimp only
    have found := find_over started.world started.suspended 0
    generalize List.find? _ _ = x at found ⊢
    generalize List.find? _ _ = y at found ⊢
    cases found with
    | none => exact started
    | @some a b hab =>
      obtain ⟨a, i⟩ := a
      obtain ⟨b, j⟩ := b
      obtain ⟨hab, rfl⟩ := hab
      exact ih (started.resume _ hab)

/-! ## Computations of the host -/

theorem nextDeadline_eq {s t : Session} (h : s.Agree t) (on : Wait) :
    t.nextDeadline? on = s.nextDeadline? on := by
  have deadlines : t.suspended.filterMap (·.on.deadline?) = s.suspended.filterMap (·.on.deadline?) := by
    have hst := h.suspended
    generalize s.suspended = xs at hst ⊢
    generalize t.suspended = ys at hst ⊢
    induction hst with
    | nil => rfl
    | cons hab _ ih => rw [List.filterMap_cons, List.filterMap_cons, hab.on, ih]
  unfold Session.nextDeadline?
  rw [deadlines]

theorem Agree.settleAll {s t : Session} (h : s.Agree t) : s.settleAll.Agree t.settleAll :=
  h.settle maxRounds

/-- The host is given the same, and the sessions agree again. -/
theorem Agree.finish {α : Type} {P : α → World → Prop} (rounds : Nat) {s t : Session}
    (h : s.Agree t) {u : World} {x y : Outcome α} (hxy : unpredicting.Alike P u x y) :
    (Session.finish rounds t y).1 = (Session.finish rounds s x).1 ∧
      (Session.finish rounds s x).2.Agree (Session.finish rounds t y).2 := by
  induction rounds generalizing s t u x y with
  | zero =>
    cases hxy with
    | value hw _ _ => exact ⟨rfl, (h.withWorld hw).settleAll⟩
    | error hw _ => exact ⟨rfl, (h.withWorld hw).settleAll⟩
    | panic hw _ => exact ⟨rfl, (h.withWorld hw).settleAll⟩
    | waiting _ _ _ => exact ⟨rfl, h⟩
    | exhausted => exact ⟨rfl, h⟩
  | succ rounds ih =>
    cases hxy with
    | value hw _ _ => exact ⟨rfl, (h.withWorld hw).settleAll⟩
    | error hw _ => exact ⟨rfl, (h.withWorld hw).settleAll⟩
    | panic hw _ => exact ⟨rfl, (h.withWorld hw).settleAll⟩
    | exhausted => exact ⟨rfl, h⟩
    | waiting hw _ hfg =>
      have next := (h.withWorld hw).settleAll
      unfold Session.finish
      dsimp only
      rw [isOver_eq next.world, nextDeadline_eq next]
      split
      · exact ih next (hfg next.world trivial)
      · split
        · rename_i now _
          have later := Respects.rel (g := fun w => { w with now })
            (.aside (fun _ => ⟨⟨rfl, rfl, rfl, rfl⟩, rfl, rfl⟩) fun _ _ => rfl) next.world
          exact ih next (Alike.waiting (u := s.world) later trivial hfg)
        · exact ih next (hfg next.world trivial)

theorem Agree.run {α : Type} {act : Eval α} (hact : unpredicting.Keeps act) {s t : Session}
    (h : s.Agree t) : (t.run act).1 = (s.run act).1 ∧ (s.run act).2.Agree (t.run act).2 :=
  h.finish maxRounds (hact.run (admits_ofBudget hosts_unpredicting _ _) h.world)

/-! ## Steps -/

theorem Agree.step {s t : Session} (h : s.Agree t) {step : Step} (hp : step.predicts = false)
    (hq : step.queries = false) :
    (t.step step).1 = (s.step step).1 ∧ (s.step step).2.Agree (t.step step).2 := by
  obtain ⟨answer, agree⟩ := h.run (keeps_runStep hosts_unpredicting step (.inr hp) (.inr hq))
  unfold Session.step Step.run
  generalize s.run (Action.runStep step) = x at answer agree ⊢
  generalize t.run (Action.runStep step) = y at answer agree ⊢
  obtain ⟨result, s'⟩ := x
  obtain ⟨_, t'⟩ := y
  cases answer
  cases result <;> exact ⟨rfl, agree⟩

/-- What the host prepares does not depend on the learner. -/
theorem keeps_prepare {D : Discipline} (hD : D.Hosts) {globals : List (String × Expr)}
    (h : ∀ entry ∈ globals, D.single ∨ entry.2.predicts = false) (source : Segment) :
    D.Keeps (Session.prepare globals source) := by
  have values : D.Keeps (globals.mapM fun entry => do
      return (entry.1, ← entry.2.eval ⟨0⟩ none)) := by
    induction globals with
    | nil => rw [List.mapM_nil]; exact keeps_pure []
    | cons entry globals ih =>
      rw [List.mapM_cons]
      refine keeps_bind ((keeps_eval hD entry.2 (h entry List.mem_cons_self) _ none).andReturn _)
        fun _ => keeps_bind (ih fun entry hentry => h entry (List.mem_cons_of_mem _ hentry)) fun _ => ?_
      exact keeps_pure _
  refine values.bind fun globals => keeps_bind ?_ fun _ => (keeps_root hD source).bind fun scope =>
    (keeps_keepScope scope "root").bind fun _ => keeps_pure ()
  exact keeps_modifyAside (fun _ => ⟨⟨rfl, rfl, rfl, rfl⟩, rfl, rfl⟩) fun _ _ => rfl

/-- A new runtime agrees with itself if its globals do not predict. -/
theorem agree_start (config : Configuration) {globals : List (String × Expr)}
    (h : ∀ entry ∈ globals, entry.2.predicts = false) (source : Segment) :
    (start config globals source).Agree (start config globals source) := by
  have empty : unpredicting.holds
      { config, learner := { expiry := config.predictionExpiry } } :=
    { script := fun h => by cases h; rfl
      callback := fun h => nomatch h
      settled := fun h => nomatch h
      subscriber := fun h => nomatch h
      forked := fun _ => rfl
      defined := fun h => nomatch h }
  have prepared := keeps_prepare hosts_unpredicting (fun entry he => .inr (h entry he)) source
  exact (Agree.run prepared ⟨.refl empty, rfl, .nil⟩).2

/-- Sessions that agree give the same answers and agree again. -/
theorem Agree.runAll {s t : Session} (h : s.Agree t) {steps : List Step}
    (hsteps : ∀ step ∈ steps, step.predicts = false ∧ step.queries = false) :
    t.runAll steps = s.runAll steps ∧ (s.after steps).Agree (t.after steps) := by
  induction steps generalizing s t with
  | nil => exact ⟨rfl, h⟩
  | cons step steps ih =>
    obtain ⟨hp, hq⟩ := hsteps step List.mem_cons_self
    obtain ⟨answer, next⟩ := h.step hp hq
    obtain ⟨answers, last⟩ := ih next fun step hstep => hsteps step (List.mem_cons_of_mem _ hstep)
    refine ⟨?_, last⟩
    unfold Session.runAll
    dsimp only
    rw [answer, answers]

/-! ## Steps that query the learner -/

theorem Agree.finish_self {α : Type} (rounds : Nat) {s : Session} (h : s.Agree s) {x : Outcome α}
    (hx : Upheld x) :
    (Session.finish rounds s x).2.Agree (Session.finish rounds s x).2 := by
  induction rounds generalizing s x with
  | zero =>
    cases hx with
    | value hw => exact (h.withWorld (.refl hw)).settleAll
    | error hw => exact (h.withWorld (.refl hw)).settleAll
    | panic hw => exact (h.withWorld (.refl hw)).settleAll
    | waiting _ _ => exact h
    | exhausted => exact h
  | succ rounds ih =>
    cases hx with
    | value hw => exact (h.withWorld (.refl hw)).settleAll
    | error hw => exact (h.withWorld (.refl hw)).settleAll
    | panic hw => exact (h.withWorld (.refl hw)).settleAll
    | exhausted => exact h
    | waiting hw hf =>
      have next := (h.withWorld (.refl hw)).settleAll
      unfold Session.finish
      dsimp only
      split
      · exact ih next (hf next.world.holds)
      · split
        · exact ih next (.waiting (World.Unpredicting.ofSame next.world.holds ⟨rfl, rfl, rfl, rfl⟩) hf)
        · exact ih next (hf next.world.holds)

/-- A session that agrees with itself does so after every step without a script that predicts. -/
theorem Agree.step_self {s : Session} (h : s.Agree s) {step : Step} (hp : step.predicts = false) :
    (s.step step).2.Agree (s.step step).2 := by
  have next : (s.run step.run).2.Agree (s.run step.run).2 :=
    h.finish_self maxRounds ((upholds_runStep step hp).run (admits_ofBudget hosts_unpredicting _ _)
      h.world.holds)
  unfold Session.step
  generalize s.run step.run = x at next ⊢
  obtain ⟨result, s'⟩ := x
  cases result <;> exact next

theorem Agree.after_self {s : Session} (h : s.Agree s) {steps : List Step}
    (hsteps : ∀ step ∈ steps, step.predicts = false) : (s.after steps).Agree (s.after steps) := by
  induction steps generalizing s with
  | nil => exact h
  | cons step steps ih =>
    exact ih (h.step_self (hsteps step List.mem_cons_self)) fun step hstep =>
      hsteps step (List.mem_cons_of_mem _ hstep)

/-- **Predictions are advice.** Let a session be reached by any steps that bring no script that
predicts. From there on the contents of the learner have no influence on the answers to steps that
neither predict nor ask the learner, nor on what the session holds in the end beside the learner. -/
theorem predictions_are_advice (config : Configuration) (globals : List (String × Expr))
    (source : Segment) (before steps : List Step) (l m : Learner)
    (hglobals : ∀ entry ∈ globals, entry.2.predicts = false)
    (hbefore : ∀ step ∈ before, step.predicts = false)
    (hsteps : ∀ step ∈ steps, step.predicts = false ∧ step.queries = false) :
    let s := (start config globals source).after before
    (s.withLearner l).runAll steps = (s.withLearner m).runAll steps ∧
      ((s.withLearner l).after steps).Agree ((s.withLearner m).after steps) := by
  intro s
  have reached : s.Agree s := (agree_start config hglobals source).after_self hbefore
  have agree : (s.withLearner l).Agree (s.withLearner m) :=
    ⟨⟨rfl, nofun, World.Unpredicting.ofSame reached.world.holds ⟨rfl, rfl, rfl, rfl⟩⟩, rfl, reached.suspended⟩
  obtain ⟨answers, last⟩ := agree.runAll hsteps
  exact ⟨answers.symm, last⟩

/-- A lambda is made and the learner asked. Then the lambda is forced, with a learner that has seen
nothing and with one that has seen its operation. -/
theorem forced_under_any_advice :
    let before : List Step :=
      [.mk "root" (.eval (.lambda "plus" [.integer 1] (.integer 2) none true) (some "x")),
        .mk "root" (.predict none "plus" [.integer 1])]
    let steps : List Step := [.mk "root" (.eval (.call .forced [.register "x"] none) none)]
    let s := (start {} [("one", .integer 1)] default).after before
    let seen := Learner.learn {} 0 "plus" [.known .integer] .decimal
    (s.withLearner {}).runAll steps = (s.withLearner seen).runAll steps ∧
      ((s.withLearner {}).after steps).Agree ((s.withLearner seen).after steps) :=
  predictions_are_advice {} _ default _ _ _ _ (by decide) (by decide) (by decide)

end Session

end Reactor
