import Reactor.Proofs.Discipline.Marks
import Reactor.Proofs.Failures.Forces

/-!
# Work that breaks off

A force marks its lambda as being computed and a pass marks the lambdas that it reaches as being notified.
Both take the marks away when the work in between has returned, be it with a value or with a failure, but
not if it broke off. So the marks of all forces and passes that were open stay when a thread breaks off
(`LambdaId.force_clears`, `LambdaId.propagate_clears`), also when the runtime then notes that the fork has
failed, and for ever: whoever finds a mark leaves it (`Discipline.bearing`). A lambda that is marked as
being computed is computed anew by every force, and its result is never kept again.
-/

namespace Reactor

open Outcome (Reaches)
open Discipline (bearing reigns_bearing)

/-- A computation that has ended has taken a mark away, unless it broke off: then the mark is there. -/
def Outcome.Clears {α : Type} (k : LambdaId) (mark : Mark) : Outcome α → Prop
  | .value _ w => ¬ (w.lambdaAt k).Bears mark
  | .error _ w => ¬ (w.lambdaAt k).Bears mark
  | .panic _ w => w.Bearing k mark
  | _ => True

variable {between : World → World → Prop} {w : World} {k : LambdaId} {budget : Nat} {thread : Thread}

/-! ## Forces -/

/-- A force that keeps results computes its lambda. -/
theorem LambdaRecord.opens_of_keeps {record : LambdaRecord} (h : record.keeps = true) (id : ThreadId) :
    record.Opens id :=
  fun _ => .inl (cache_of_keeps h)

/-- When a computation is settled, its mark is taken away. -/
theorem LambdaRecord.not_bears_settle {record : LambdaRecord} {id : ThreadId}
    (h : record.Bears (.computing id)) (generation : Nat) (outcome : Except Error Value) :
    ¬ (LambdaId.settle id generation outcome record).Bears (.computing id) := by
  have cache : record.cache = .computing id := h
  unfold LambdaId.settle Bears
  rw [cache]
  cases outcome with
  | ok value =>
    simp only [ne_eq, not_true_eq_false, if_false]
    split <;> simp
  | error e => simp

namespace World

/-- A lambda that a thread has begun to compute has the mark. -/
theorem bearing_opened (hw : w.KeepsSettled) (hk : k.index < w.lambdas.size)
    (hkeeps : (w.lambdaAt k).keeps = true) (id : ThreadId) :
    (w.opened id k).Bearing k (.computing id) := by
  have tame : LambdaRecord.Tame (fun _ => True) (w.lambdaAt k)
      { w.lambdaAt k with cache := .computing id } := ⟨rfl, rfl, .inl, nofun⟩
  unfold opened
  rw [if_pos hkeeps]
  refine ⟨hw.modifyLambda k tame, ?_⟩
  rw [lambdaAt_modifyLambda, if_pos ⟨rfl, hk⟩]
  rfl

/-- A force that returns takes the mark away. -/
theorem not_bears_closed (hkeeps : (w.lambdaAt k).keeps = true) {id : ThreadId} {u : World}
    (hu : (u.lambdaAt k).Bears (.computing id)) (outcome : Except Error Value) :
    ¬ ((w.closed id k outcome u).lambdaAt k).Bears (.computing id) := by
  unfold closed
  rw [if_pos hkeeps, lambdaAt_modifyLambda, if_pos ⟨rfl, hu.lt⟩]
  exact LambdaRecord.not_bears_settle hu _ _

end World

/-- A force that keeps results leaves its lambda marked as being computed just if it breaks off. -/
theorem LambdaId.force_clears (hw : w.KeepsSettled) (hk : k.index < w.lambdas.size)
    (hkeeps : (w.lambdaAt k).keeps = true)
    (hb : (bearing k (.computing thread.id)).Spares between) {y : Outcome Value}
    (hy : (k.force (.ofBudget budget thread) w).Reaches between y) :
    y.Clears k (.computing thread.id) := by
  have hthread : (Context.ofBudget budget thread).thread.id = thread.id := by
    rw [Context.thread_ofBudget]
  rw [force_of_opens (LambdaRecord.opens_of_keeps hkeeps _), hthread] at hy
  obtain ⟨_, attempted, hy⟩ := Outcome.reaches_bind_iff.1 hy
  obtain ⟨x, hx, rfl⟩ := Outcome.reaches_attempt_iff.1 attempted
  have evaluated := (Discipline.gives_evaluate k).run
    (Discipline.admits_ofBudget (reigns_bearing k (.computing thread.id)).toHosts budget thread)
    (.refl (w.bearing_opened hw hk hkeeps thread.id))
  have marked {u : World} (hu : x.state? = some u) : u.Bearing k (.computing thread.id) :=
    evaluated.holds_of_reaches hb hx hu
  cases x with
  | value a u =>
    rw [Outcome.reaches_value_iff.1 hy]
    exact World.not_bears_closed hkeeps (marked rfl).bears _
  | error e u =>
    rw [Outcome.reaches_error_iff.1 hy]
    exact World.not_bears_closed hkeeps (marked rfl).bears _
  | panic message u =>
    rw [Outcome.reaches_panic_iff.1 hy]
    exact marked rfl
  | exhausted =>
    rw [Outcome.reaches_exhausted_iff.1 hy]
    trivial
  | waiting on u resume => exact absurd hx Outcome.not_reaches_waiting

/-! ## Passes -/

namespace World

variable {id : ThreadId} {live : Holders}

/-- To mark a lambda that a pass reaches does not change its result. -/
theorem KeepsSettled.noted (hw : w.KeepsSettled) (k : LambdaId) :
    ((w.enterNotify id k).pruneListeners live k).KeepsSettled := by
  have tame : LambdaRecord.Tame (fun _ => True) (w.lambdaAt k)
      { w.lambdaAt k with notifying := id :: (w.lambdaAt k).notifying } := ⟨rfl, rfl, .inl, .inl⟩
  have tame' (record : LambdaRecord) : LambdaRecord.Tame (fun _ => True) record
      { record with listeners := record.listeners.filter fun entry => isCurrent live entry.2 } :=
    ⟨rfl, rfl, fun _ => .inr trivial, .inl⟩
  exact (hw.modifyLambda k tame).modifyLambda k (tame' _)

/-- A lambda that a pass reaches is marked from then on. -/
theorem bearing_discover (hw : w.KeepsSettled) {steps : Nat} {pending : List LambdaId}
    (hk : k.index < w.lambdas.size) (h : k ∈ (discover live id steps w pending).1) :
    (discover live id steps w pending).2.Bearing k (.notifying id) := by
  induction steps generalizing w pending with
  | zero => cases h
  | succ steps ih =>
    cases pending with
    | nil => cases h
    | cons first pending =>
      rw [discover] at h ⊢
      split at h
      · rename_i noted
        rw [if_pos noted]
        exact ih hw hk h
      · rename_i new
        rw [if_neg new]
        have size : ((w.enterNotify id first).pruneListeners live first).lambdas.size = w.lambdas.size :=
          (Array.size_modify ..).trans (Array.size_modify ..)
        rcases List.mem_cons.1 h with rfl | h
        · refine (Discipline.holds_discover (D := bearing k (.notifying id)) live id _ ⟨hw.noted k, ?_⟩ _).1
          show id ∈ LambdaRecord.notifying _
          unfold pruneListeners enterNotify
          rw [lambdaAt_modifyLambda, if_pos ⟨rfl, Nat.lt_of_lt_of_eq hk (Array.size_modify ..).symm⟩,
            lambdaAt_modifyLambda, if_pos ⟨rfl, hk⟩]
          exact List.mem_cons_self
        · exact ih (hw.noted first) (Nat.lt_of_lt_of_eq hk size.symm) h

end World

/-- A pass that reaches a lambda leaves it marked as being notified just if it breaks off. -/
theorem LambdaId.propagate_clears (hw : w.KeepsSettled) (hk : k.index < w.lambdas.size)
    {roots : List LambdaId} (hreached : k ∈ (w.enter (w.liveness thread.held) thread.id roots).1)
    (hdepth : thread.depth < w.config.maxDepth)
    (hb : (bearing k (.notifying thread.id)).Spares between) {y : Outcome Unit}
    (hy : (propagate roots (.ofBudget budget thread) w).Reaches between y) :
    y.Clears k (.notifying thread.id) := by
  have hne : roots ≠ [] := by
    rintro rfl
    cases hreached
  have hthread := Context.thread_ofBudget budget thread
  have entered : (w.enter (w.liveness thread.held) thread.id roots).2.Bearing k (.notifying thread.id) :=
    World.bearing_discover hw hk hreached
  obtain ⟨reached, u, henter⟩ :
      ∃ reached u, w.enter (w.liveness thread.held) thread.id roots = (reached, u) := ⟨_, _, rfl⟩
  rw [henter] at hreached entered
  have reigns := reigns_bearing k (.notifying thread.id)
  have forgot := ((Discipline.Respects.foldl .invalidate reached).holds
    (D := bearing k (.notifying thread.id)) entered).1
  have shallow : (Context.ofBudget budget thread).thread.depth < w.config.maxDepth := by rwa [hthread]
  obtain ⟨later, later', run⟩ := propagate_of_enter hne shallow (by rw [hthread, henter])
  rw [run, hthread] at hy
  obtain ⟨_, attempted, hy⟩ := Outcome.reaches_bind_iff.1 hy
  obtain ⟨x, hx, rfl⟩ := Outcome.reaches_attempt_iff.1 attempted
  have served := (Discipline.keeps_runAllCallbacks reached).run
    ((Discipline.admits_ofBudget reigns.toHosts budget thread).withThread later) (.refl forgot)
  cases x with
  | value a u =>
    rw [Outcome.reaches_value_iff.1 hy]
    exact fun h => (World.mem_notifying_left_iff.1 h).2 hreached rfl
  | error e u =>
    rw [Outcome.reaches_error_iff.1 hy]
    exact fun h => (World.mem_notifying_left_iff.1 h).2 hreached rfl
  | panic message u =>
    rw [Outcome.reaches_panic_iff.1 hy]
    exact served.holds_of_reaches hb hx rfl
  | exhausted =>
    rw [Outcome.reaches_exhausted_iff.1 hy]
    trivial
  | waiting on u resume => exact absurd hx Outcome.not_reaches_waiting

/-! ## Threads that break off -/

/-- A computation that marks a lambda while it is under way: a force that keeps the result of the lambda,
or a pass that reaches the lambda. -/
inductive World.Marks (w : World) (budget : Nat) (thread : Thread) (k : LambdaId) :
    {α : Type} → Outcome α → Mark → Prop
  | force (keeps : (w.lambdaAt k).keeps = true) :
    Marks w budget thread k (k.force (.ofBudget budget thread) w) (.computing thread.id)
  | pass {roots : List LambdaId} (reached : k ∈ (w.enter (w.liveness thread.held) thread.id roots).1)
    (depth : thread.depth < w.config.maxDepth) :
    Marks w budget thread k (LambdaId.propagate roots (.ofBudget budget thread) w)
      (.notifying thread.id)

/-- What a mark does to its lambda: other threads compute it in vain, or the thread passes it over. -/
def World.Shuns (w : World) (k : LambdaId) : Mark → Prop
  | .computing owner => ∀ ctx : Context, ctx.thread.id ≠ owner → k.force ctx w = k.evaluate ctx w
  | .notifying thread => ∀ live roots, k ∉ (w.enter live thread roots).1

theorem World.shuns_of_bears {mark : Mark} (h : (w.lambdaAt k).Bears mark) : w.Shuns k mark := by
  cases mark with
  | computing owner =>
    intro ctx hne
    have cache : (w.lambdaAt k).cache = .computing owner := h
    unfold LambdaId.force LambdaId.record
    rw [Eval.bind_apply, Eval.gets_apply, Outcome.bind_value]
    cases (w.lambdaAt k).fixable with
    | false => rfl
    | true => simp [cache, Ne.symm hne]
  | notifying thread =>
    intro live roots hk
    exact Discipline.not_notifying_of_mem_discover live thread _ w roots hk h

variable {α : Type} {mark : Mark}

/-- A computation that marks a lambda leaves the mark just if it breaks off. -/
theorem World.Marks.clears {x : Outcome α} (h : w.Marks budget thread k x mark) (hw : w.KeepsSettled)
    (hk : k.index < w.lambdas.size) (hb : (bearing k mark).Spares between) {y : Outcome α}
    (hy : x.Reaches between y) : y.Clears k mark := by
  cases h with
  | force keeps => exact LambdaId.force_clears hw hk keeps hb hy
  | pass reached depth => exact LambdaId.propagate_clears hw hk reached depth hb hy

/-- The runtime notes that a fork has failed, and changes nothing else. -/
theorem Session.forkAt_note_panic (s : Session) {fork : ForkId} {message : Option String} {u : World}
    (hfork : fork.index < u.forks.size) :
    ((s.note fork (.panic message u)).world.forkAt fork).outcome = some (.error (brokeOff message)) := by
  simp [note, World.finishFork, World.forkAt, Array.getD, hfork, Array.getElem_modify]

/-- **A broken thread leaves its marks.** The work of a fork comes to a force or a pass that marks a
lambda. If that returns, with a value or with a failure, it has taken the mark away. If it breaks off, so
does the work, the fork has failed, and the mark stays whatever the host does from then on: other threads
compute the lambda in vain, or the passes of the thread do not reach it. -/
theorem Session.panic_leaves_marks {s : Session} (hs : s.suspended = []) (fork : ForkId)
    {work : Outcome Value} {inner : Outcome α} (hw : w.KeepsSettled) (hk : k.index < w.lambdas.size)
    (hmarks : w.Marks budget thread k inner mark) (hb : (bearing k mark).Spares between)
    (hcomes : work.ComesTo between inner) :
    (∀ y, inner.Reaches between y → y.Clears k mark) ∧
      ∀ message u, inner.Reaches between (.panic message u) → fork.index < u.forks.size →
        work.Reaches between (.panic message u) ∧
          ((s.note fork (.panic message u)).world.forkAt fork).outcome =
            some (.error (brokeOff message)) ∧
          ∀ steps, let v := ((s.note fork (.panic message u)).after steps).world
            (v.lambdaAt k).Bears mark ∧ v.Shuns k mark := by
  refine ⟨fun y hy => hmarks.clears hw hk hb hy, fun message u hu hfork => ?_⟩
  have marked : u.Bearing k mark := hmarks.clears hw hk hb hu
  have noted : (s.note fork (.panic message u)).world.Bearing k mark := marked.ofLambdas rfl
  refine ⟨hcomes.reaches_panic hu, s.forkAt_note_panic hfork, fun steps => ?_⟩
  have later := bears_after (s := s.note fork (.panic message u)) hs noted steps
  exact ⟨later.bears, World.shuns_of_bears later.bears⟩

/-- A fork on the second thread forces a lambda, the computation of which breaks off. -/
def World.ofBreakingFork (marks : Nat) : World where
  scopes := #[{ name := "root", parent := none, source := default, pure := false },
    { name := "fork", parent := some ⟨0⟩, source := default, pure := false }]
  lambdas := #[{ operation := "work", source := Segment.whole "work", scope := ⟨0⟩, inputs := []
                 body := .script (.panic (some "died")), fixable := true }]
  forks := #[{ scope := ⟨1⟩, body := .call .forced [.register "work"] none }]
  desk := { registers := [("work", .lambda ⟨0⟩)] }
  threads := 2
  marks := marks

theorem World.keepsSettled_ofBreakingFork (marks : Nat) : (ofBreakingFork marks).KeepsSettled := by
  intro id v hv
  match id, hv with
  | ⟨0⟩, hv => cases hv
  | ⟨_ + 1⟩, hv => cases hv

/-- A force of that lambda breaks off. -/
theorem World.reaches_force_ofBreakingFork (marks : Nat) {thread : Thread} (hdepth : thread.depth = 0)
    (budget : Nat) : (LambdaId.force ⟨0⟩ (.ofBudget (budget + 1) thread) (ofBreakingFork marks)).Reaches
      between (.panic (some "died") ((ofBreakingFork marks).opened thread.id ⟨0⟩)) := by
  have shallow : thread.depth < (ofBreakingFork marks).config.maxDepth := by
    rw [hdepth]
    exact Nat.zero_lt_succ _
  refine LambdaId.reaches_force_of_panic (fun _ => .inl rfl) (LambdaId.reaches_evaluate_of_panic ?_)
  have body : (((ofBreakingFork marks).opened thread.id ⟨0⟩).lambdaAt ⟨0⟩).body =
      .script (.panic (some "died")) := rfl
  rw [Context.thread_ofBudget, LambdaId.run_of_panic body (by rwa [config_opened])]
  exact .panic

/-- Whatever the host does when that fork has failed, its lambda is marked. -/
theorem Session.broken_fork_leaves_mark_for_good : ∃ (later : Thread) (marks : Nat) (u : World),
    let s : Session := { world := .ofBreakingFork 0 }
    let work := ForkId.run ⟨0⟩ (.ofThread { id := 1, pooled := true }) s.world
    let inner := LambdaId.force ⟨0⟩ (.ofBudget 999998 later) (.ofBreakingFork marks)
    (World.ofBreakingFork marks).Marks 999998 later ⟨0⟩ inner (.computing 1) ∧
      work.ComesTo (fun _ _ => False) inner ∧
      inner.Reaches (fun _ _ => False) (.panic (some "died") u) ∧ 0 < u.forks.size ∧
      ∀ steps, let v := ((s.note ⟨0⟩ (.panic (some "died") u)).after steps).world
        (v.lambdaAt ⟨0⟩).Bears (.computing 1) ∧ v.Shuns ⟨0⟩ (.computing 1) := by
  have held : Entries.get? (World.ofBreakingFork 0).desk.registers "work" = some (.lambda ⟨0⟩) := rfl
  obtain ⟨later, marks, hid, hdepth, comes⟩ := Expr.comesTo_eval_of_forced (fun _ _ => False)
    { id := 1, pooled := true } ⟨1⟩ held 999998
  have marked : (World.ofBreakingFork marks).Marks 999998 later ⟨0⟩ _ (.computing 1) :=
    hid ▸ World.Marks.force rfl
  have run : (ForkId.run ⟨0⟩ (.ofThread { id := 1, pooled := true }) (.ofBreakingFork 0)).ComesTo
      (fun _ _ => False) (LambdaId.force ⟨0⟩ (.ofBudget 999998 later) (.ofBreakingFork marks)) := by
    unfold ForkId.run
    rw [Eval.bind_apply, Eval.gets_apply, Outcome.bind_value, Eval.bind_apply]
    exact comes.bind _
  have broken : (LambdaId.force ⟨0⟩ (.ofBudget 999998 later) (.ofBreakingFork marks)).Reaches
      (fun _ _ => False) _ := World.reaches_force_ofBreakingFork marks hdepth 999997
  obtain ⟨-, leaves⟩ := panic_leaves_marks (s := { world := .ofBreakingFork 0 }) rfl ⟨0⟩
    (World.keepsSettled_ofBreakingFork marks) Nat.one_pos marked (fun _ h => h.elim) run
  have forks : 0 < ((World.ofBreakingFork marks).opened later.id ⟨0⟩).forks.size := Nat.one_pos
  obtain ⟨-, -, stays⟩ := leaves _ _ broken forks
  exact ⟨later, marks, _, marked, run, broken, forks, stays⟩

/-- It is not so that no lambda is left as being computed when a fork has failed by breaking off. -/
theorem Session.broken_fork_leaves_mark :
    let s : Session := { world := { World.ofBreakingFork 0 with threads := 1 } }
    let v := (s.startFork ⟨0⟩).world
    (v.forkAt ⟨0⟩).outcome = some (.error (brokeOff (some "died"))) ∧
      (v.lambdaAt ⟨0⟩).cache = .computing 1 :=
  ⟨rfl, rfl⟩

end Reactor
