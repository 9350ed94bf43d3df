import Reactor.Proofs.Advice

/-!
# What whole sessions keep

A discipline *reigns* (`Discipline.Reigns`) if it is about one run, allows all scripts and asks only
what holds of each state by itself. Then it is kept by every step of a session, by the forks under way
and by the passing of time (`Session.Held.after`), and so it holds in every state that a session can
reach (`Session.Reachable`).
-/

namespace Reactor

/-- The discipline is about one run and about each state by itself, it allows all scripts, and it does not care
for the outcomes of forks. -/
structure Discipline.Reigns (D : Discipline) : Prop extends D.Hosts where
  single : D.single
  leads (u w : World) : D.leads u w
  finish {w : World} (hw : D.holds w) (fork : ForkId) (outcome : Except Error Value) :
    D.holds (w.finishFork fork outcome)

namespace Session

open Discipline

/-- Some steps lead from a new runtime to the session. -/
def Reachable (s : Session) : Prop :=
  ∃ (config : Configuration) (globals : List (String × Expr)) (source : Segment) (steps : List Step),
    s = (start config globals source).after steps

/-- The discipline holds of the state, and the forks that wait keep it when they go on. -/
structure Held (D : Discipline) (s : Session) : Prop where
  world : D.holds s.world
  suspended {waiting : Suspended} (h : waiting ∈ s.suspended) {w : World} (hw : D.holds w) :
    D.Alike (fun _ _ => True) w (waiting.resume w) (waiting.resume w)

variable {D : Discipline} {s : Session}

theorem Held.withWorld (h : s.Held D) {w : World} (hw : D.holds w) :
    Held D { s with world := w } :=
  ⟨hw, h.suspended⟩

section Reigns

variable (hD : D.Reigns)
include hD

/-! ## Forks -/

theorem Held.note (h : s.Held D) (fork : ForkId) {u : World} {x : Outcome Value}
    (hx : D.Alike (fun _ _ => True) u x x) : (s.note fork x).Held D := by
  cases x with
  | value v w =>
    cases hx with
    | value hw _ _ => exact h.withWorld (hD.finish hw.holds fork _)
  | error e w =>
    cases hx with
    | error hw _ => exact h.withWorld (hD.finish hw.holds fork _)
  | panic message w =>
    cases hx with
    | panic hw _ => exact h.withWorld (hD.finish hw.holds fork _)
  | exhausted => exact h.withWorld (hD.finish h.world fork _)
  | waiting on w resume =>
    cases hx with
    | waiting hw _ hfg =>
      refine ⟨hw.holds, fun {waiting} hwaiting {w'} hw' => ?_⟩
      rcases List.mem_append.1 hwaiting with old | new
      · exact h.suspended old hw'
      · rw [List.mem_singleton.1 new]
        exact hfg (.refl hw') (hD.leads _ _)

theorem Held.startFork (h : s.Held D) (fork : ForkId) : (s.startFork fork).Held D := by
  have counted : Held D { s with started := fork.index + 1 } := ⟨h.world, h.suspended⟩
  have same : s.world.SameRecords { s.world with threads := s.world.threads + 1 } :=
    ⟨⟨rfl, rfl, rfl, rfl⟩, rfl, rfl⟩
  have threads := (D.aside same h.world).1
  exact counted.note hD fork
    ((keeps_runFork fork).run (admits_ofBudget hD.toHosts _ _) (.refl threads))

theorem Held.startForks (h : s.Held D) : s.startForks.Held D := by
  have started (forks : List Nat) {s : Session} (h : s.Held D) :
      (forks.foldl
        (fun s i => if s.suspended.length < workers then s.startFork ⟨i⟩ else s) s).Held D := by
    induction forks generalizing s with
    | nil => exact h
    | cons i forks ih =>
      rw [List.foldl_cons]
      split
      · exact ih (h.startFork hD ⟨i⟩)
      · exact ih h
  exact started _ h

theorem Held.resume (h : s.Held D) (i : Nat) {waiting : Suspended} (hwaiting : waiting ∈ s.suspended) :
    (s.resume i waiting).Held D := by
  have rest : Held D { s with suspended := s.suspended.eraseIdx i } :=
    ⟨h.world, fun hother => h.suspended (List.mem_of_mem_eraseIdx hother)⟩
  exact rest.note hD waiting.fork (h.suspended hwaiting h.world)

theorem Held.settle (h : s.Held D) (rounds : Nat) : (s.settle rounds).Held D := by
  induction rounds generalizing s with
  | zero => exact h
  | succ rounds ih =>
    have started := h.startForks hD
    unfold Session.settle
    dsimp only
    generalize found : List.find? _ _ = next
    cases next with
    | none => exact started
    | some entry =>
      obtain ⟨waiting, i⟩ := entry
      have hwaiting : waiting ∈ s.startForks.suspended :=
        List.fst_mem_of_mem_zipIdx (List.mem_of_find?_eq_some found)
      exact ih (started.resume hD i hwaiting)

/-! ## Computations of the host -/

theorem Held.settleAll (h : s.Held D) : s.settleAll.Held D :=
  h.settle hD maxRounds

theorem Held.finish {α : Type} {P : α → World → Prop} (h : s.Held D) (rounds : Nat) {u : World}
    {x : Outcome α} (hx : D.Alike P u x x) : (Session.finish rounds s x).2.Held D := by
  induction rounds generalizing s u x with
  | zero =>
    cases x with
    | value a w => cases hx with | value hw _ _ => exact (h.withWorld hw.holds).settleAll hD
    | error e w => cases hx with | error hw _ => exact (h.withWorld hw.holds).settleAll hD
    | panic m w => cases hx with | panic hw _ => exact (h.withWorld hw.holds).settleAll hD
    | waiting on w resume => exact h
    | exhausted => exact h
  | succ rounds ih =>
    cases x with
    | value a w => cases hx with | value hw _ _ => exact (h.withWorld hw.holds).settleAll hD
    | error e w => cases hx with | error hw _ => exact (h.withWorld hw.holds).settleAll hD
    | panic m w => cases hx with | panic hw _ => exact (h.withWorld hw.holds).settleAll hD
    | exhausted => exact h
    | waiting on w resume =>
      cases hx with
      | waiting hw hu hfg =>
        have next := (h.withWorld hw.holds).settleAll hD
        have resumed := hfg (.refl next.world) (hD.leads _ _)
        have later (v : World) (hv : D.holds v) (now : Nat) : D.holds { v with now } := by
          have same : v.SameRecords { v with now } := ⟨⟨rfl, rfl, rfl, rfl⟩, rfl, rfl⟩
          exact (D.aside same hv).1
        unfold Session.finish
        dsimp only
        split
        · exact ih next resumed
        · split
          · exact ih next (Alike.waiting (.refl (later _ next.world _)) (hD.leads u _) fun hw _ =>
              hfg hw (hD.leads _ _))
          · exact ih next resumed

theorem Held.run {α : Type} {act : Eval α} (hact : D.Keeps act) (h : s.Held D) :
    (s.run act).2.Held D :=
  h.finish hD maxRounds (hact.run (admits_ofBudget hD.toHosts _ _) (.refl h.world))

theorem Held.step (h : s.Held D) (step : Step) : (s.step step).2.Held D := by
  have next := h.run hD (keeps_runStep hD.toHosts step (.inl hD.single) (.inl hD.single))
  unfold Session.step Step.run
  generalize s.run (Action.runStep step) = x at next ⊢
  obtain ⟨result, s'⟩ := x
  cases result <;> exact next

theorem Held.after (h : s.Held D) (steps : List Step) : (s.after steps).Held D := by
  induction steps generalizing s with
  | nil => exact h
  | cons step steps ih => exact ih (h.step hD step)

/-- What holds of every new runtime holds of all that can be reached. -/
theorem Reachable.held (h : s.Reachable)
    (hstart : ∀ config, D.holds { config, learner := { expiry := config.predictionExpiry } }) :
    s.Held D := by
  obtain ⟨config, globals, source, steps, rfl⟩ := h
  have empty : Held D { world := { config, learner := { expiry := config.predictionExpiry } } } :=
    ⟨hstart config, fun h => (List.not_mem_nil h).elim⟩
  have prepared : D.Keeps (prepare globals source) :=
    keeps_prepare hD.toHosts (fun _ _ => .inl hD.single) source
  exact (empty.run hD prepared).after hD steps

end Reigns

end Session

end Reactor
