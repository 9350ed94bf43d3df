import Reactor.Proofs.Fixing.Course
import Reactor.Proofs.Histories.Engine
import Reactor.Proofs.Histories.Phases

/-!
# What forces give

In each phase of a lambda it is known what a force of it does, and the events say which phase follows
(`LambdaId.force_follows_phases`). A result that is kept is given at once. A lambda that the thread is computing
cannot be forced. Otherwise the lambda is computed, and the result is kept if the lambda has not been
invalidated meanwhile. No result that is given or kept is itself deferred (`Occurrence.Settled`).

This is said of all forces in the course of a run on one thread, also of those that scripts and callbacks begin in
the middle of it (`Action.Forces`).
-/

namespace Reactor

/-! ## Results that are not deferred -/

namespace World.KeepsSettled

variable {u v w : World} {ks : List LambdaId} {thread : ThreadId} {k : LambdaId} {outcome : Except Error Value}

theorem ofHit (hw : w.KeepsSettled) (h : w.Hit ks v) : v.KeepsSettled := by
  intro j x hx
  rw [h.cache j] at hx
  split at hx
  · cases hc : (w.lambdaAt j).cache <;> simp [hc, Cache.dropped] at hx
  · exact hw j x hx

theorem made (hw : w.KeepsSettled) {record : LambdaRecord} (h : record.Blank) :
    (w.withLambda record).KeepsSettled :=
  (hw.newLambda h.cache).ofHit (.ofRewired (.withLambda w record))

theorem ofTakes {happening : Happening} (hw : w.KeepsSettled) (h : happening.Takes thread w v) :
    v.KeepsSettled := by
  by_cases hmade : ∃ j, happening = .made j
  · obtain ⟨j, rfl⟩ := hmade
    cases h with
    | made h => exact hw.made h
  · exact hw.ofHit (.ofRewired (h.rewired fun j hj => hmade ⟨j, hj⟩))

theorem opened (hw : w.KeepsSettled) (thread : ThreadId) (k : LambdaId) : (w.opened thread k).KeepsSettled := by
  intro j x hx
  unfold World.opened at hx
  split at hx
  · rw [lambdaAt_modifyLambda] at hx
    split at hx
    · cases hx
    · exact hw j x hx
  · exact hw j x hx

theorem closed (hv : v.KeepsSettled) (houtcome : ∀ x, outcome = .ok x → x.lambda? = none) :
    (w.closed thread k outcome v).KeepsSettled := by
  intro j x hx
  unfold World.closed at hx
  split at hx
  · rw [lambdaAt_modifyLambda] at hx
    split at hx
    · unfold LambdaId.settle at hx
      split at hx
      · split at hx
        · exact hv j x hx
        · dsimp only at hx
          split at hx
          · cases hx
            exact houtcome _ rfl
          · cases hx
      · split at hx
        · exact hv j x hx
        · cases hx
      · exact hv j x hx
    · exact hv j x hx
  · exact hv j x hx

end World.KeepsSettled

/-- No result is deferred that is kept before or after something happens, or that a force has given. -/
structure Occurrence.Settled (e : Occurrence) : Prop where
  before : e.before.KeepsSettled
  after : e.after.KeepsSettled
  answered {k : LambdaId} {x : Value} (h : e.happening = .answered k x) : x.lambda? = none
  ended {k : LambdaId} {x : Value} (h : e.happening = .ended k (.ok x)) : x.lambda? = none

/-- What is neither the end of a force nor an answer gives no result. -/
theorem Occurrence.Settled.ofStates {happening : Happening} {w v : World} (hw : w.KeepsSettled)
    (hv : v.KeepsSettled) (hanswered : ∀ k x, happening ≠ .answered k x)
    (hended : ∀ k x, happening ≠ .ended k (.ok x)) : Occurrence.Settled ⟨happening, w, v⟩ :=
  ⟨hw, hv, fun h => absurd h (hanswered _ _), fun h => absurd h (hended _ _)⟩

namespace Discipline

variable {D : Discipline} {serve : LambdaId → Eval Value}

/-- A machine keeps a discipline if what it does when a lambda is forced does. -/
theorem admits_machine (hD : D.Hosts) (hserve : ∀ k, D.Gives Settled (serve k)) (budget : Nat) (thread : Thread) :
    D.Admits (.machine serve budget thread) := by
  induction budget generalizing thread with
  | zero =>
    exact
      { evaluate := fun {_} _ _ _ _ {_ _} _ => .exhausted
        force := fun _ _ {_ _} _ => .exhausted }
  | succ budget ih =>
    exact
      { evaluate := fun {e} he scope item thread {_ _} h =>
          (keeps_eval hD e (hD.allows_iff.1 he) scope item).run (ih thread) h
        force := fun id thread {_ _} h => (hserve id).run (ih thread) h }

/-- No force gives a deferred result. -/
theorem spares_still : settling.Spares World.Still :=
  fun hv h => ⟨hv.ofLambdas h.lambdas, .ofLambdas h.lambdas⟩

theorem gives_forceUnless (stop : LambdaId → World → Prop) [∀ k w, Decidable (stop k w)] (k : LambdaId) :
    settling.Gives Settled (k.forceUnless stop) := by
  refine ⟨fun {ctx} hctx w v h => ?_⟩
  obtain rfl := h.alone trivial
  unfold LambdaId.forceUnless
  split
  · exact .panic h (settling.refl _)
  · exact (gives_forceLambda k).run hctx h

end Discipline

namespace World

variable {serve : LambdaId → Eval Value} {thread : ThreadId} {es : List Occurrence} {w v : World}

/-- What the computation of a lambda gives is not deferred. -/
theorem settled_of_evaluate (hserve : ∀ k, Discipline.settling.Gives Discipline.Settled (serve k))
    {budget : Nat} {thread : Thread} {k : LambdaId} {outcome : Except Error Value} (hw : w.KeepsSettled)
    (run : (k.evaluate (.machine serve budget thread) w).attempt.Reaches Still (.value outcome v)) :
    ∀ x, outcome = .ok x → x.lambda? = none := by
  have admits := Discipline.admits_machine Discipline.hosts_settling hserve budget thread
  have alike := (Discipline.gives_evaluate k).attempt.run admits (.refl hw)
  exact (alike.value_of_reaches Discipline.spares_still run).2.2

/-- In the course of a history no deferred result is given or kept. -/
theorem History.settled (hserve : ∀ k, Discipline.settling.Gives Discipline.Settled (serve k))
    (h : History serve Still thread es w v) (hw : w.KeepsSettled) :
    v.KeepsSettled ∧ ∀ e ∈ es, e.Settled := by
  induction h with
  | aside h => exact ⟨hw.ofLambdas h.lambdas, List.forall_mem_nil _⟩
  | others h => exact ⟨hw.ofLambdas h.lambdas, List.forall_mem_nil _⟩
  | trans _ _ ih ih' =>
    obtain ⟨hv, first⟩ := ih hw
    obtain ⟨hu, second⟩ := ih' hv
    exact ⟨hu, List.forall_mem_append.2 ⟨first, second⟩⟩
  | begun _ ih => exact ih (hw.ofLambdas rfl)
  | @took _ happening w v h =>
    have hv := hw.ofTakes h
    refine ⟨hv, List.forall_mem_singleton.2 ⟨hw, hv, ?_, ?_⟩⟩
    · rintro k x rfl
      cases h with
      | answered _ hc => exact hw k x hc
    · rintro k x rfl
      cases h
  | @read _ thread scope k inner value es w v _ _ _ ih =>
    obtain ⟨hv, first⟩ := ih hw
    have followed := hv.ofHit (.ofRewired (.follow v k inner))
    exact ⟨followed, List.forall_mem_append.2 ⟨first,
      List.forall_mem_singleton.2 (.ofStates hv followed (by simp) (by simp))⟩⟩
  | @computed budget thread k outcome es w v _ _ _ run ih =>
    have began := hw.opened thread.id k
    obtain ⟨hv, inside⟩ := ih began
    have houtcome := settled_of_evaluate hserve began run
    have ended : (w.closed thread.id k outcome v).KeepsSettled := hv.closed houtcome
    refine ⟨ended, List.forall_mem_cons.2 ⟨.ofStates hw began (by simp) (by simp),
      List.forall_mem_append.2 ⟨inside, List.forall_mem_singleton.2 ⟨hv, ended, nofun, ?_⟩⟩⟩⟩
    intro j x h
    cases h
    exact houtcome x rfl
  | @unknown budget thread k outcome es w v _ _ run ih =>
    have began := hw.opened thread.id k
    obtain ⟨hv, inside⟩ := ih began
    exact ⟨hv.closed (settled_of_evaluate hserve began run), inside⟩
  | @passed thread held roots es w v _ ih =>
    have swept := hw.ofHit (.swept w thread held roots)
    obtain ⟨hv, inside⟩ := ih swept
    exact ⟨hv.ofHit (.left thread _ v), List.forall_mem_cons.2
      ⟨.ofStates hw swept (by simp) (by simp), inside⟩⟩

theorem Midway.settled (hserve : ∀ k, Discipline.settling.Gives Discipline.Settled (serve k))
    (h : Midway serve Still thread es w v) (hw : w.KeepsSettled) :
    v.KeepsSettled ∧ ∀ e ∈ es, e.Settled := by
  induction h with
  | returned h => exact h.settled hserve hw
  | trans h _ ih =>
    obtain ⟨hv, first⟩ := h.settled hserve hw
    obtain ⟨hu, second⟩ := ih hv
    exact ⟨hu, List.forall_mem_append.2 ⟨first, second⟩⟩
  | begun _ ih => exact ih (hw.ofLambdas rfl)
  | @computing thread k es w v _ _ _ ih =>
    have began := hw.opened thread k
    obtain ⟨hv, inside⟩ := ih began
    exact ⟨hv, List.forall_mem_cons.2 ⟨.ofStates hw began (by simp) (by simp), inside⟩⟩
  | unknown _ _ ih => exact ih (hw.opened _ _)
  | @passing thread held roots es w v _ ih =>
    have swept := hw.ofHit (.swept w thread held roots)
    obtain ⟨hv, inside⟩ := ih swept
    exact ⟨hv, List.forall_mem_cons.2 ⟨.ofStates hw swept (by simp) (by simp), inside⟩⟩

end World

/-! ## What is told of a lambda -/

/-- What some events of a single thread tell of a lambda, and what they have left of it. -/
structure Phase.Tracks (thread : ThreadId) (k : LambdaId) (p : Phase) (es : List Occurrence) (w v : World) : Prop
    extends p.Leads thread k es v where
  /-- A computation that has begun before goes on, and no force gives a result. -/
  forcing {n : Nat} (h : p = .forcing n) :
    p.after k es = .forcing (n + k.hits es) ∧ ∀ e ∈ es, ∀ x, e.happening ≠ .answered k x
  /-- Unless the lambda is invalidated, every force gives the result that is kept. -/
  forced {x : Value} (h : p = .forced x) (hhits : k.hits es = 0) :
    p.after k es = .forced x ∧
      ∀ e ∈ es, e.happening ≠ .began k ∧ ∀ y, e.happening = .answered k y → y = x
  /-- The generation of the lambda tells how often it has been invalidated. -/
  generation (h : p ≠ .unborn) : (v.lambdaAt k).generation = (w.lambdaAt k).generation + k.hits es
  fixable (h : p ≠ .unborn) : (v.lambdaAt k).fixable = (w.lambdaAt k).fixable
  settled : v.KeepsSettled
  events : ∀ e ∈ es, e.Settled

theorem Phase.Leads.tracks {thread : ThreadId} {k : LambdaId} {p : Phase} {es : List Occurrence} {w v : World}
    (h : p.Leads thread k es v) (hp : p.Shows thread k w) (hlasts : w.Lasts k es v)
    (hsettled : v.KeepsSettled ∧ ∀ e ∈ es, e.Settled) : p.Tracks thread k es w v where
  toLeads := h
  forcing hn := by
    subst hn
    exact after_forcing h.accepts (h.inside rfl)
  forced hx hhits := by
    subst hx
    exact after_forced h.accepts hhits
  generation hborn := hlasts.generation (hp.lt hborn)
  fixable hborn := hlasts.fixable (hp.lt hborn)
  settled := hsettled.1
  events := hsettled.2

namespace World

variable {serve : LambdaId → Eval Value} {thread : ThreadId} {k : LambdaId} {p : Phase} {es : List Occurrence}
  {w v : World}

theorem History.tracks (hserve : ∀ k, Discipline.settling.Gives Discipline.Settled (serve k))
    (h : History serve Still thread es w v) (halone : v.threads = w.threads) (hw : w.KeepsSettled)
    (hp : p.Shows thread k w) : p.Tracks thread k es w v :=
  (h.returns halone hp).toLeads.tracks hp (.ofHistory h) (h.settled hserve hw)

theorem Midway.tracks (hserve : ∀ k, Discipline.settling.Gives Discipline.Settled (serve k))
    (h : Midway serve Still thread es w v) (halone : v.threads = w.threads) (hw : w.KeepsSettled)
    (hp : p.Shows thread k w) : p.Tracks thread k es w v :=
  (h.leads halone hp).tracks hp (.ofMidway h) (h.settled hserve hw)

end World

/-! ## Forces in each phase -/

open Classical in
/-- In the course of some steps of a host a lambda is forced in a certain state. There the machine breaks off that
stops at just such forces. -/
def Action.Forces (steps : List Step) (thread : Thread) (k : LambdaId) (w u : World) : Prop :=
  (runAll steps (.machine (LambdaId.forceUnless fun j v => j = k ∧ v = u) Context.sessionBudget thread)
    w).Reaches World.Still (.panic none u)

namespace LambdaId

variable {thread : Thread} {k : LambdaId} {w : World} {p : Phase}

/-- A lambda that the thread is computing cannot be forced. -/
theorem force_of_computing {ctx : Context} (hfix : (w.lambdaAt k).fixable = true)
    (hc : (w.lambdaAt k).cache = .computing ctx.thread.id) :
    k.force ctx w = .error
      ((Error.excessiveRecursion ctx.thread.depth w.config.maxDepth).addSource (w.lambdaAt k).source) w := by
  unfold force record
  rw [Eval.bind_apply, Eval.gets_apply, Outcome.bind_value, hfix, hc]
  simp

/-- A force that computes its lambda has the outcome of the evaluation that it has run. -/
theorem reaches_force_of_opens {ctx : Context} {between : World → World → Prop} {y : Outcome Value} {u : World}
    (opens : (w.lambdaAt k).Opens ctx.thread.id) (run : (k.force ctx w).Reaches between y)
    (hu : y.returned? = some u) :
    ∃ outcome v, (k.evaluate ctx (w.opened ctx.thread.id k)).attempt.Reaches between (.value outcome v) ∧
      u = w.closed ctx.thread.id k outcome v ∧ y = Eval.ofExcept outcome ctx u := by
  rw [force_of_opens opens] at run
  obtain ⟨x, evaluated, run⟩ := Outcome.reaches_bind_iff.1 run
  cases x with
  | value outcome v =>
    refine ⟨outcome, v, evaluated, ?_⟩
    cases outcome with
    | ok x =>
      obtain rfl := Outcome.reaches_value_iff.1 run
      cases hu
      exact ⟨rfl, rfl⟩
    | error e =>
      obtain rfl := Outcome.reaches_error_iff.1 run
      cases hu
      exact ⟨rfl, rfl⟩
  | error e v =>
    obtain ⟨x, -, failed⟩ := Outcome.reaches_attempt_iff.1 evaluated
    cases x <;> cases failed
  | panic message v =>
    obtain rfl := Outcome.reaches_panic_iff.1 run
    cases hu
  | exhausted =>
    obtain rfl := Outcome.reaches_exhausted_iff.1 run
    cases hu
  | waiting => exact absurd evaluated Outcome.not_reaches_waiting

/-- Without a result the lambda is computed, and what has happened meanwhile decides whether the result is kept. -/
theorem computes_of_unforced {budget : Nat} {y : Outcome Value} {u : World} (hw : w.KeepsSettled)
    (hfix : (w.lambdaAt k).fixable = true) (hp : Phase.unforced.Shows thread.id k w)
    (run : (k.force (.ofBudget budget thread) w).Reaches World.Still y) (hu : y.returned? = some u)
    (halone : u.threads = w.threads) :
    ∃ outcome body v,
      World.History force World.Still thread.id body (w.opened thread.id k) v ∧
      (Phase.forcing 0).Tracks thread.id k body (w.opened thread.id k) v ∧
      u = w.closed thread.id k outcome v ∧
      y = Eval.ofExcept outcome (.ofBudget budget thread) u ∧
      ((Phase.forcing (k.hits body)).settled outcome).Shows thread.id k u ∧
      (∀ x, outcome = .ok x → x.lambda? = none) ∧ u.KeepsSettled := by
  have hthread : (Context.ofBudget budget thread).thread = thread := Context.thread_ofBudget budget thread
  obtain ⟨outcome, v, evaluated, rfl, rfl⟩ := reaches_force_of_opens (fun _ => .inl hp.2) run hu
  obtain ⟨body, history⟩ := (Eval.recorded_evaluateLambda k).attempt _
    (Context.records_ofBudget budget thread) _ _ evaluated
  rw [hthread] at evaluated history halone ⊢
  have hkeeps : (w.lambdaAt k).keeps = true := by
    simp [LambdaRecord.keeps, hfix, hp.2]
  have began := hw.opened thread.id k
  have alone : v.threads = (w.opened thread.id k).threads := by
    rw [World.threads_opened, ← halone, World.threads_closed]
  have begins : (Phase.forcing 0).Shows thread.id k (w.opened thread.id k) := by
    have shown := (Phase.Leads.began hp hp.1 hkeeps).shows
    rwa [Phase.after_cons, show Phase.unforced.next k (.began k) = .forcing 0 from if_pos rfl] at shown
  have tracks := history.tracks Discipline.gives_forceLambda alone began begins
  have houtcome : ∀ x, outcome = .ok x → x.lambda? = none := by
    rw [Context.ofBudget_eq_machine] at evaluated
    exact World.settled_of_evaluate Discipline.gives_forceLambda began evaluated
  refine ⟨outcome, body, v, history, tracks, rfl, rfl, ?_, houtcome, tracks.settled.closed houtcome⟩
  have ends := tracks.shows
  rw [(tracks.forcing rfl).1, Nat.zero_add] at ends
  refine Phase.shows_closed hkeeps ?_ ends
  obtain ⟨cache, same⟩ := World.lambdaAt_opened w thread.id k
  rw [tracks.generation (by simp), same]

section Handles

variable {x v : Value} (hfix : (w.lambdaAt k).fixable = true) (hc : (w.lambdaAt k).cache = .holding x)
  (hv : v.lambda? = some k) (budget : Nat) (thread : Thread)
include hfix hc hv

/-- A deferred value whose lambda keeps a result is forced to that. -/
theorem forced_of_holding : v.forced (.ofBudget (budget + 1) thread) w = .value (v.overlaid x) w := by
  have forced : Eval.force k (.ofBudget (budget + 1) thread) w = .value x w :=
    force_of_holding hfix hc (.ofBudget budget thread)
  rw [Value.forced_of_lambda? hv, Eval.bind_apply, forced]
  rfl

/-- To fix one layer of such a value is to force it. -/
theorem fixDepth_of_holding (parallel : Bool) :
    v.fixDepth 1 parallel (.ofBudget (budget + 1) thread) w = .value (v.overlaid x) w := by
  have forced := forced_of_holding hfix hc hv budget thread
  show Value.fixAt (budget + 1) 1 parallel v (.ofBudget (budget + 1) thread) w = _
  rw [Value.fixAt_succ, Value.onForced, hv]
  simp [hfix, forced, Value.fixParts]

end Handles

/-- In every phase of a lambda it is known what a force gives, and so it is for all forces in the course of a run
on one thread. A result that is kept is given at once, by forces and where the value is fixed, and nothing is
computed. A lambda that the thread is computing cannot be forced, and the state stays as it is. Otherwise the
lambda is computed: a failure is not kept, nor is a result if the lambda has been invalidated meanwhile, while
any other result is kept from then on. When a run returns no other force is left open than was before. Results
are never deferred. -/
theorem force_follows_phases (hw : w.KeepsSettled) (hfix : (w.lambdaAt k).fixable = true)
    (hp : p.Shows thread.id k w) :
    (∀ x budget, p = .forced x →
      k.force (.ofBudget budget thread) w = .value x w ∧
      ∀ v : Value, v.lambda? = some k →
        v.forced (.ofBudget (budget + 1) thread) w = .value (v.overlaid x) w ∧
        (∀ parallel, v.fix parallel (.ofBudget (budget + 1) thread) w = .value (v.overlaid x) w) ∧
        ∀ parallel, v.fixDepth 1 parallel (.ofBudget (budget + 1) thread) w = .value (v.overlaid x) w) ∧
    (∀ n budget, p = .forcing n →
      k.force (.ofBudget budget thread) w = .error
        ((Error.excessiveRecursion thread.depth w.config.maxDepth).addSource (w.lambdaAt k).source) w) ∧
    (∀ budget y u, p = .unforced →
      (k.force (.ofBudget budget thread) w).Reaches World.Still y → y.returned? = some u →
      u.threads = w.threads →
      ∃ outcome body v,
        World.History force World.Still thread.id body (w.opened thread.id k) v ∧
        (Phase.forcing 0).Tracks thread.id k body (w.opened thread.id k) v ∧
        u = w.closed thread.id k outcome v ∧
        y = Eval.ofExcept outcome (.ofBudget budget thread) u ∧
        ((Phase.forcing (k.hits body)).settled outcome).Shows thread.id k u ∧
        (∀ x, outcome = .ok x → x.lambda? = none) ∧ u.KeepsSettled) ∧
    (∀ steps y u, (Action.runAll steps (.ofThread thread) w).Reaches World.Still y →
      y.returned? = some u → u.threads = w.threads →
      ∃ es, World.History force World.Still thread.id es w u ∧ p.Tracks thread.id k es w u ∧
        ((∀ n, p ≠ .forcing n) → ∀ n, p.after k es ≠ .forcing n)) ∧
    ∀ steps u, Action.Forces steps thread k w u → u.threads = w.threads →
      ∃ serve es, World.Midway serve World.Still thread.id es w u ∧ p.Tracks thread.id k es w u := by
  refine ⟨?_, ?_, ?_, ?_, ?_⟩
  · rintro x budget rfl
    refine ⟨force_of_holding hfix hp.2 _, fun v hv => ⟨?_, fun parallel => ?_, fun parallel => ?_⟩⟩
    · exact forced_of_holding hfix hp.2 hv budget thread
    · exact fixDepth_of_holding hfix hp.2 hv budget thread parallel
    · exact fixDepth_of_holding hfix hp.2 hv budget thread parallel
  · rintro n budget rfl
    have same : (Context.ofBudget budget thread).thread = thread := Context.thread_ofBudget budget thread
    have computing : (w.lambdaAt k).cache = .computing (Context.ofBudget budget thread).thread.id := by
      rw [same]
      exact hp.2
    have refused := force_of_computing hfix computing
    rwa [same] at refused
  · rintro budget y u rfl run hu halone
    exact computes_of_unforced hw hfix hp run hu halone
  · intro steps y u run hu halone
    unfold Context.ofThread at run
    rw [Context.ofBudget_eq_machine] at run
    obtain ⟨es, history⟩ :=
      (Action.recorded_runAll Eval.recorded_forceLambda steps _ thread w y run).of_returned hu
    exact ⟨es, history, history.tracks Discipline.gives_forceLambda halone hw hp,
      (history.returns halone hp).idle⟩
  · classical
    intro steps u run halone
    obtain ⟨es, midway⟩ := Action.recorded_runAll recorded_forceUnless steps _ thread w _ run
    exact ⟨_, es, midway, midway.tracks (Discipline.gives_forceUnless _) halone hw hp⟩

end LambdaId

/-- A lambda that gives a number, and has not been computed yet. -/
def World.ofNumber : World :=
  { scopes := #[{ name := "root", parent := none, source := default, pure := false }]
    lambdas := #[{ operation := "number", source := Segment.whole "number", scope := ⟨0⟩, inputs := []
                   body := .script (.integer 1), fixable := true }] }

/-- The first force computes the number. From then on every force gives it, in whatever state a host has left the
lambda, unless the lambda has been invalidated. -/
theorem LambdaId.force_follows_phases_ofNumber : ∃ u,
    force ⟨0⟩ (.ofBudget 8 { id := 0 }) .ofNumber = .value (.integer 1) u ∧
    (Phase.forced (.integer 1)).Shows 0 ⟨0⟩ u ∧
    ∀ steps y v, (Action.runAll steps (.ofThread { id := 0 }) u).Reaches World.Still y →
      y.returned? = some v → v.threads = u.threads →
      (v.lambdaAt ⟨0⟩).generation = (u.lambdaAt ⟨0⟩).generation →
      force ⟨0⟩ (.ofBudget 8 { id := 0 }) v = .value (.integer 1) v := by
  have nothing : World.ofNumber.KeepsSettled := by
    intro k x hx
    match k with
    | ⟨0⟩ => cases hx
    | ⟨_ + 1⟩ => cases hx
  have fresh : Phase.unforced.Shows 0 ⟨0⟩ .ofNumber := ⟨by decide, rfl⟩
  obtain ⟨u, run, alone, kept, keeps⟩ : ∃ u,
      force ⟨0⟩ (.ofBudget 8 { id := 0 }) .ofNumber = .value (.integer 1) u ∧
      u.threads = World.ofNumber.threads ∧ (Phase.forced (.integer 1)).Shows 0 ⟨0⟩ u ∧
      (u.lambdaAt ⟨0⟩).fixable = true := ⟨_, rfl, rfl, ⟨by decide, rfl⟩, rfl⟩
  obtain ⟨-, -, computes, -⟩ :=
    @force_follows_phases { id := 0 } ⟨0⟩ .ofNumber .unforced nothing rfl fresh
  have reached : (force ⟨0⟩ (.ofBudget 8 { id := 0 }) .ofNumber).Reaches World.Still
      (.value (.integer 1) u) := by
    rw [run]
    exact .value
  obtain ⟨-, -, -, -, -, -, -, -, -, settled⟩ := computes 8 _ u rfl reached rfl alone
  refine ⟨u, run, kept, fun steps y v run hv halone hgeneration => ?_⟩
  obtain ⟨-, -, -, runs, -⟩ :=
    @force_follows_phases { id := 0 } ⟨0⟩ u (.forced (.integer 1)) settled keeps kept
  obtain ⟨es, -, tracks, -⟩ := runs steps y v run hv halone
  have unhit : hits ⟨0⟩ es = 0 := by
    have counted := tracks.generation (by simp)
    omega
  have still := tracks.shows
  rw [(tracks.forced rfl unhit).1] at still
  have fixable : (v.lambdaAt ⟨0⟩).fixable = true := (tracks.fixable (by simp)).trans keeps
  obtain ⟨gives, -⟩ :=
    @force_follows_phases { id := 0 } ⟨0⟩ v (.forced (.integer 1)) tracks.settled fixable still
  exact (gives _ 8 rfl).1

end Reactor
