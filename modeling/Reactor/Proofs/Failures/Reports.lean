import Reactor.Proofs.Failures.Assertions

/-!
# How often one failure is reported

Let nobody handle errors and the runtime fail fast. A failure then passes the root of the scopes as a
failure, so a force that computes another lambda meets it again, records its own source and offers it to
its own scopes, where it passes the root once more. Hence a failure is reported once for each force that is
open when it arises (`LambdaId.failure_reported_by_level`): once for a lambda that is forced alone, but
`n` times if `n` lambdas are being computed inside one another, as in a tower of lambdas each of which forces
the next one (`World.Tower.reports`). A broken assertion is never reported.

The step is `unhandled_passes`: at one level the failure is reported, and the scopes and the
configuration stay as they were, so that the next level is in the same situation. The run is the induction
on `ForceStack`.
-/

namespace Reactor

namespace Error

/-- A failure that has passed some forces, the innermost one first. -/
def passing (e : Error) : List Level → Error
  | [] => e
  | level :: levels => (e.passing levels).addSource level.source

/-- The forms in which a failure has passed some forces, the first one first. -/
def trail (e : Error) : List Level → List Error
  | [] => []
  | level :: levels => e.trail levels ++ [e.passing (level :: levels)]

/-- What a failure leaves in the sink when it has passed some forces. -/
def reportsAfter (e : Error) (levels : List Level) : List Error :=
  if e.kind.isRecoverable then e.trail levels else []

@[simp] theorem passing_kind (e : Error) (levels : List Level) : (e.passing levels).kind = e.kind := by
  induction levels with
  | nil => rfl
  | cons level levels ih => rw [passing, addSource_kind, ih]

@[simp] theorem length_trail (e : Error) (levels : List Level) :
    (e.trail levels).length = levels.length := by
  induction levels with
  | nil => rfl
  | cons level levels ih => simp [trail, ih]

end Error

namespace World

/-- No scope from a given one upwards has a handler that runs. -/
def Unhandled (w : World) (scope : ScopeId) : Prop :=
  ∀ above ∈ w.ancestors scope, (w.scopeAt above).handlers = [] ∨ (w.scopeAt above).destroyed = true

/-- A later state, in which some errors more have been reported. -/
structure Reported (w : World) (errors : List Error) (v : World) : Prop where
  scopes : v.scopes = w.scopes
  config : v.config = w.config
  reports : v.reports = w.reports ++ errors.map Report.mk

variable {u v w : World} {errors more : List Error}

theorem Unhandled.congr {scope : ScopeId} (h : w.Unhandled scope) (hv : v.scopes = w.scopes) :
    v.Unhandled scope := by
  unfold Unhandled at h ⊢
  rw [ancestors_congr hv]
  simpa only [scopeAt_congr hv] using h

theorem Reported.refl (w : World) : w.Reported [] w :=
  ⟨rfl, rfl, (List.append_nil _).symm⟩

theorem Reported.trans (h : u.Reported errors v) (h' : v.Reported more w) :
    u.Reported (errors ++ more) w :=
  ⟨h'.scopes.trans h.scopes, h'.config.trans h.config, by
    rw [h'.reports, h.reports, List.map_append, List.append_assoc]⟩

theorem reported_report (w : World) (e : Error) : w.Reported [e] (w.report e) :=
  ⟨rfl, rfl, rfl⟩

/-- What becomes of a lambda adds no report. -/
theorem Reported.closed (h : u.Reported errors v) (thread : ThreadId) (k : LambdaId)
    (outcome : Except Error Value) : u.Reported errors (w.closed thread k outcome v) :=
  ⟨scopes_closed.trans h.scopes, config_closed.trans h.config, reports_closed.trans h.reports⟩

end World

variable {between : World → World → Prop} {ctx : Context} {u w : World} {k : LambdaId} {e : Error}

/-- A failure that nobody handles is reported and stays a failure, if the runtime fails fast. -/
theorem ScopeId.handleError_of_unhandled {scope : ScopeId} (he : e.kind.isRecoverable = true)
    (h : w.Unhandled scope) (fast : w.config.failFast = true) :
    scope.handleError e ctx w = .error e (w.report e) := by
  have passes (scopes : List ScopeId) (h : ∀ above ∈ scopes,
      (w.scopeAt above).handlers = [] ∨ (w.scopeAt above).destroyed = true) :
      handleAlong scopes e ctx w = .error e (w.report e) := by
    induction scopes with
    | nil => exact (handleAlong_nil e).trans (if_pos fast)
    | cons above scopes ih =>
      obtain ⟨first, rest⟩ := List.forall_mem_cons.1 h
      rw [handleAlong_passing scopes he first, ih rest]
  rw [handleError_apply]
  exact passes _ h

/-- A failure passes one force. -/
theorem LambdaId.unhandled_passes (hscope : e.kind.isRecoverable = true →
      u.config.failFast = true ∧ u.Unhandled (w.lambdaAt k).scope)
    {levels : List Level} (opens : (w.lambdaAt k).Opens ctx.thread.id)
    {v : World} (hv : u.Reported (e.reportsAfter levels) v)
    (run : (k.run (w.lambdaAt k).scope ctx (w.opened ctx.thread.id k)).Reaches between
      (.error (e.passing levels) v)) :
    ∃ v', (k.force ctx w).Reaches between (.error (e.passing (w.level k :: levels)) v') ∧
      u.Reported (e.reportsAfter (w.level k :: levels)) v' := by
  cases he : e.kind.isRecoverable with
  | true =>
    obtain ⟨fast, unhandled⟩ := hscope he
    refine ⟨_, reaches_force_of_run_error opens run (ScopeId.handleError_of_unhandled ?_
      (unhandled.congr hv.scopes) (hv.config ▸ fast)), .closed ?_ _ _ _⟩
    · rwa [Error.addSource_kind, Error.passing_kind]
    · rw [Error.reportsAfter, if_pos he] at hv ⊢
      exact hv.trans (World.reported_report _ _)
  | false =>
    refine ⟨_, reaches_force_of_run_error opens run (ScopeId.handleError_of_assertion ?_),
      .closed ?_ _ _ _⟩
    · rwa [Error.addSource_kind, Error.passing_kind]
    · rw [Error.reportsAfter, he] at hv ⊢
      exact hv

/-- A failure passes the forces that are open, and each of them reports it. -/
theorem ForceStack.passes {levels : List Level} (stack : ForceStack between (.error e u) k ctx w levels)
    (hu : e.kind.isRecoverable = true → u.config.failFast = true ∧
      ∀ level ∈ levels, u.Unhandled level.scope) :
    ∃ v, (k.force ctx w).Reaches between (.error (e.passing levels) v) ∧
      u.Reported (e.reportsAfter levels) v := by
  induction stack with
  | innermost opens run =>
    have first : u.Reported (e.reportsAfter []) u := by
      unfold Error.reportsAfter
      split <;> exact .refl u
    refine LambdaId.unhandled_passes (fun he => ?_) opens first run
    exact ⟨(hu he).1, (hu he).2 _ List.mem_cons_self⟩
  | within opens comes _ ih =>
    obtain ⟨v, inner, hv⟩ := ih fun he =>
      ⟨(hu he).1, fun level hlevel => (hu he).2 level (List.mem_cons_of_mem _ hlevel)⟩
    refine LambdaId.unhandled_passes (fun he => ?_) opens hv (comes.reaches_error inner)
    exact ⟨(hu he).1, (hu he).2 _ List.mem_cons_self⟩

/-! ## Towers -/

/-- The first lambda fails with an error, and each of the next ones forces the one before it. -/
structure World.Tower (w : World) (height : Nat) (e : Error) : Prop where
  fails : (w.lambdaAt ⟨0⟩).body = .script (.fail e)
  forces {i : Nat} (h : i < height) : ∃ name,
    (w.lambdaAt ⟨i + 1⟩).body = .script (.call .forced [.register name] none) ∧
      Entries.get? w.desk.registers name = some (.lambda ⟨i⟩)
  unforced {i : Nat} (h : i ≤ height) : (w.lambdaAt ⟨i⟩).fixable = true ∧ (w.lambdaAt ⟨i⟩).cache = .empty

namespace World.Tower

variable {height : Nat}

/-- A lambda that is begun leaves those below it as they are. -/
theorem lambdaAt_below {i : Nat} (hi : i ≤ height) (id : ThreadId) (marks : Nat) :
    lambdaAt { w.opened id ⟨height + 1⟩ with marks } ⟨i⟩ = w.lambdaAt ⟨i⟩ := by
  refine lambdaAt_opened_of_ne fun h => ?_
  cases h
  exact absurd hi (Nat.not_succ_le_self _)

theorem below (h : w.Tower (height + 1) e) (id : ThreadId) (marks : Nat) :
    Tower { w.opened id ⟨height + 1⟩ with marks } height e := by
  refine ⟨?_, fun {i} hi => ?_, fun {i} hi => ?_⟩
  · rw [lambdaAt_below (Nat.zero_le _)]
    exact h.fails
  · obtain ⟨name, body, held⟩ := h.forces (Nat.lt_succ_of_lt hi)
    refine ⟨name, ?_, ?_⟩
    · rw [lambdaAt_below hi, body]
    · exact (congrArg (fun desk : Desk => Entries.get? desk.registers name) desk_opened).trans held
  · rw [lambdaAt_below hi]
    exact h.unforced (Nat.le_succ_of_le hi)

/-- To force the highest lambda is to force all of them inside one another. -/
theorem forceStack_levels (h : w.Tower height e) (between : World → World → Prop) {thread : Thread}
    (hdepth : thread.depth + height < w.config.maxDepth) (budget : Nat) :
    ∃ u, ForceStack between (.error e u) ⟨height⟩ (.ofBudget (budget + 2 * height + 1) thread) w
        ((List.range (height + 1)).reverse.map fun i => w.level ⟨i⟩) ∧
      w.Reported [] u := by
  induction height generalizing w thread with
  | zero =>
    refine ⟨w.opened thread.id ⟨0⟩, .innermost (fun _ => .inl (h.unforced (Nat.le_refl 0)).2) ?_,
      ⟨scopes_opened, config_opened, by simp⟩⟩
    rw [Context.thread_ofBudget, LambdaId.run_of_fail (body_lambdaAt_opened.trans h.fails)]
    · exact .error
    · rwa [config_opened]
  | succ height ih =>
    obtain ⟨name, body, held⟩ := h.forces (Nat.lt_succ_self height)
    have begun : ((w.opened thread.id ⟨height + 1⟩).lambdaAt ⟨height + 1⟩).body =
        .script (.call .forced [.register name] none) := body_lambdaAt_opened.trans body
    obtain ⟨later, marks, hid, hlater, comes⟩ := LambdaId.comesTo_run_of_forced between
      (w.lambdaAt ⟨height + 1⟩).scope begun (by rwa [desk_opened])
      (show thread.depth < _ by rw [config_opened]; omega) (budget + 2 * height + 1)
    have shallow : later.depth + height < (w.opened thread.id ⟨height + 1⟩).config.maxDepth := by
      rw [config_opened, hlater]
      omega
    obtain ⟨u, stack, hu⟩ := ih (h.below thread.id marks) shallow
    have opens : (w.lambdaAt ⟨height + 1⟩).Opens thread.id := fun _ =>
      .inl (h.unforced (Nat.le_refl _)).2
    refine ⟨u, ?_, hu.scopes.trans scopes_opened, hu.config.trans config_opened,
      hu.reports.trans (by simp)⟩
    have same : ∀ i ∈ (List.range (height + 1)).reverse,
        World.level { w.opened thread.id ⟨height + 1⟩ with marks } ⟨i⟩ = w.level ⟨i⟩ := fun i hi => by
      have hi : i ≤ height := Nat.lt_succ_iff.1 (List.mem_range.1 (List.mem_reverse.1 hi))
      unfold World.level
      rw [lambdaAt_below hi]
    rw [List.map_congr_left same] at stack
    rw [List.range_succ, List.reverse_append, List.reverse_singleton, List.singleton_append, List.map_cons]
    refine .within (by rwa [Context.thread_ofBudget]) ?_ stack
    rw [Context.thread_ofBudget]
    exact comes

/-- A tower is forced with as many open levels as it has lambdas, each in the scope of its lambda. -/
theorem forceStack (h : w.Tower height e) (between : World → World → Prop) {thread : Thread}
    (hdepth : thread.depth + height < w.config.maxDepth) (budget : Nat) :
    ∃ u levels, ForceStack between (.error e u) ⟨height⟩ (.ofBudget (budget + 2 * height + 1) thread) w
        levels ∧
      levels.length = height + 1 ∧ w.Reported [] u ∧
      ∀ level ∈ levels, ∃ i ≤ height, level.scope = (w.lambdaAt ⟨i⟩).scope := by
  obtain ⟨u, stack, hu⟩ := h.forceStack_levels between hdepth budget
  refine ⟨u, _, stack, by simp, hu, fun level hlevel => ?_⟩
  obtain ⟨i, hi, rfl⟩ := List.mem_map.1 hlevel
  exact ⟨i, Nat.lt_succ_iff.1 (List.mem_range.1 (List.mem_reverse.1 hi)), rfl⟩

/-- A tower of `n` lambdas reports the failure of the lowest one `n` times. -/
theorem reports (h : w.Tower height e) (between : World → World → Prop) (he : e.kind.isRecoverable = true)
    (fast : w.config.failFast = true) (hscopes : ∀ scope, w.Unhandled scope)
    {thread : Thread} (hdepth : thread.depth + height < w.config.maxDepth) (budget : Nat) :
    ∃ f v, (LambdaId.force ⟨height⟩ (.ofBudget (budget + 2 * height + 1) thread) w).Reaches between
        (.error f v) ∧
      v.reports.length = w.reports.length + (height + 1) := by
  obtain ⟨u, levels, stack, hlength, hu, -⟩ := h.forceStack between hdepth budget
  obtain ⟨v, surfaces, hv⟩ := stack.passes fun _ =>
    ⟨hu.config ▸ fast, fun level _ => (hscopes level.scope).congr hu.scopes⟩
  refine ⟨_, v, surfaces, ?_⟩
  rw [hv.reports, hu.reports, Error.reportsAfter, if_pos he]
  simp [hlength]

end World.Tower

/-- **Each open force reports.** If nobody handles errors and the runtime fails fast, a failure that arises
in the innermost of some forces surfaces from the outermost one, and has then been reported by each of
them, unless it is a broken assertion, which is never reported. -/
theorem LambdaId.failure_reported_by_level {levels : List Level}
    (stack : ForceStack between (.error e u) k ctx w levels)
    (hu : e.kind.isRecoverable = true → u.config.failFast = true ∧
      ∀ level ∈ levels, u.Unhandled level.scope) :
    ∃ v, (k.force ctx w).Reaches between (.error (e.passing levels) v) ∧
      v.reports = u.reports ++ (e.reportsAfter levels).map Report.mk ∧
      v.reports.length = u.reports.length + if e.kind.isRecoverable then levels.length else 0 := by
  obtain ⟨v, surfaces, hv⟩ := stack.passes hu
  refine ⟨v, surfaces, hv.reports, ?_⟩
  rw [hv.reports, List.length_append, List.length_map, Error.reportsAfter]
  split <;> simp

/-- A runtime that fails fast, with a scope below another one. A lambda of the lower scope fails, a second
one of that scope forces it, and a third one, of the upper scope, forces the second. -/
def World.ofTower : World :=
  let lambda (operation : String) (scope : ScopeId) (body : Expr) : LambdaRecord :=
    { operation, source := Segment.whole operation, scope, inputs := [], body := .script body
      fixable := true }
  { config := { failFast := true }
    scopes := #[{ name := "root", parent := none, source := default, pure := false },
      { name := "child", parent := some ⟨0⟩, source := default, pure := false }]
    lambdas := #[lambda "inner" ⟨1⟩ (.fail (.exception "boom")),
      lambda "middle" ⟨1⟩ (.call .forced [.register "inner"] none),
      lambda "outer" ⟨0⟩ (.call .forced [.register "middle"] none)]
    desk := { registers := [("inner", .lambda ⟨0⟩), ("middle", .lambda ⟨1⟩)] } }

theorem World.tower_ofTower : World.ofTower.Tower 2 (.exception "boom") := by
  refine ⟨rfl, fun {i} hi => ?_, fun {i} hi => ?_⟩
  · match i, hi with
    | 0, _ => exact ⟨"inner", rfl, rfl⟩
    | 1, _ => exact ⟨"middle", rfl, rfl⟩
  · match i, hi with
    | 0, _ => exact ⟨rfl, rfl⟩
    | 1, _ => exact ⟨rfl, rfl⟩
    | 2, _ => exact ⟨rfl, rfl⟩

theorem World.unhandled_ofTower (scope : ScopeId) : World.ofTower.Unhandled scope := by
  intro above _
  match above with
  | ⟨0⟩ => exact .inl rfl
  | ⟨1⟩ => exact .inl rfl
  | ⟨_ + 2⟩ => exact .inl rfl

/-- The failure of the lowest of three lambdas is reported three times. -/
theorem LambdaId.failure_reported_three_times : ∃ u levels v,
    ForceStack (fun _ _ => False) (.error (.exception "boom") u) ⟨2⟩ (.ofBudget 5 { id := 0 }) .ofTower
        levels ∧
      levels.length = 3 ∧ u.config.failFast = true ∧ (∀ level ∈ levels, u.Unhandled level.scope) ∧
      (LambdaId.force ⟨2⟩ (.ofBudget 5 { id := 0 }) .ofTower).Reaches (fun _ _ => False)
        (.error ((Error.exception "boom").passing levels) v) ∧
      v.reports.length = u.reports.length + 3 := by
  have shallow : ({ id := 0 } : Thread).depth + 2 < World.ofTower.config.maxDepth := by decide
  obtain ⟨u, levels, stack, hlength, hu, -⟩ :=
    World.tower_ofTower.forceStack (fun _ _ => False) shallow 0
  have fast : u.config.failFast = true := hu.config ▸ rfl
  have unhandled (level : Level) (_ : level ∈ levels) : u.Unhandled level.scope :=
    (World.unhandled_ofTower level.scope).congr hu.scopes
  obtain ⟨v, surfaces, -, reports⟩ := failure_reported_by_level stack fun _ => ⟨fast, unhandled⟩
  exact ⟨u, levels, v, stack, hlength, fast, unhandled, surfaces, by rw [reports, hlength]; rfl⟩

/-- It is not so that one failure is reported once. -/
theorem LambdaId.one_failure_many_reports : ∃ f v,
    World.ofTower.Tower 2 (.exception "boom") ∧ World.ofTower.config.failFast = true ∧
      (∀ scope, World.ofTower.Unhandled scope) ∧
      (LambdaId.force ⟨2⟩ (.ofBudget 5 { id := 0 }) .ofTower).Reaches (fun _ _ => False) (.error f v) ∧
      v.reports.length ≠ World.ofTower.reports.length + 1 := by
  have shallow : ({ id := 0 } : Thread).depth + 2 < World.ofTower.config.maxDepth := by decide
  obtain ⟨f, v, surfaces, reports⟩ :=
    World.tower_ofTower.reports (fun _ _ => False) rfl rfl World.unhandled_ofTower shallow 0
  refine ⟨f, v, World.tower_ofTower, rfl, World.unhandled_ofTower, surfaces, ?_⟩
  rw [reports]
  simp

end Reactor
