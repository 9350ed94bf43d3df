import Reactor.Engine.Notify
import Reactor.Proofs.Passes.Collect

/-!
# The lambdas that a pass invalidates

When a pass has collected the lambdas that it affects it invalidates each of them, and only then it runs
callbacks (`LambdaId.propagate_eq_serve`). `World.Swept` says all that has changed when the first callback is
about to run: the affected lambdas are marked and have been invalidated once, and some registrations are
gone.

To invalidate a lambda changes another one as well, since the registration is ended with which it followed
that one. So what a lambda is registered with is said for all invalidated lambdas at once
(`LambdaRecord.unfollowed`), and that they are different is needed where one of them comes after another: it
is invalidated as it was to begin with (`Invalidated.cons`).
-/

namespace Reactor

/-- Without the registrations of some lambdas that have followed this one. -/
def LambdaRecord.unfollowed (record : LambdaRecord) (followers : List LambdaId) : LambdaRecord :=
  { record with
    listeners := record.listeners.filter fun entry => ¬ ∃ j ∈ followers, entry.1 = .dependent j }

namespace World

/-- Those of some lambdas whose result was read from a certain one. -/
def followersAmong (w : World) (ks : List LambdaId) (k : LambdaId) : List LambdaId :=
  ks.filter fun j => (w.lambdaAt j).followed = some k

/-- Some lambdas have been invalidated, each of them once, and nothing else has changed. -/
structure Invalidated (ks : List LambdaId) (w v : World) : Prop where
  rest : v = { w with lambdas := v.lambdas }
  size : v.lambdas.size = w.lambdas.size
  record (k : LambdaId) : v.lambdaAt k =
    (if k ∈ ks then dropResult (w.lambdaAt k) else w.lambdaAt k).unfollowed (w.followersAmong ks k)

/-- Some lambdas have been marked and invalidated, each of them once. Registrations are gone with which one
of them followed another lambda, and with the affected lambdas those of lambdas that no longer live. -/
structure Swept (live : Holders) (thread : ThreadId) (affected : List LambdaId) (w u : World) : Prop where
  rest : u = { w with lambdas := u.lambdas }
  size : u.lambdas.size = w.lambdas.size
  hit {k : LambdaId} (h : k ∈ affected) : u.lambdaAt k =
    ({ dropResult (w.lambdaAt k) with
      notifying := thread :: (w.lambdaAt k).notifying
      listeners := (w.lambdaAt k).listeners.filter fun entry => isCurrent live entry.2 } :
        LambdaRecord).unfollowed (w.followersAmong affected k)
  spared {k : LambdaId} (h : k ∉ affected) :
    u.lambdaAt k = (w.lambdaAt k).unfollowed (w.followersAmong affected k)

variable {w v u : World} {live : Holders} {thread : ThreadId} {k j : LambdaId} {ks affected : List LambdaId}

theorem unfollowed_nil (record : LambdaRecord) : record.unfollowed [] = record := by
  simp [LambdaRecord.unfollowed]

theorem unfollowed_unfollowed (record : LambdaRecord) (ks js : List LambdaId) :
    (record.unfollowed ks).unfollowed js = record.unfollowed (ks ++ js) := by
  unfold LambdaRecord.unfollowed
  dsimp only
  rw [List.filter_filter]
  refine congrArg (fun listeners => { record with listeners }) (List.filter_congr fun entry _ => ?_)
  simp only [List.mem_append, or_and_right, exists_or, not_or, Bool.decide_and, Bool.and_comm]

theorem unfollowed_singleton (record : LambdaRecord) (k : LambdaId) : record.unfollowed [k] =
    { record with listeners := Entries.erase record.listeners (.dependent k) } := by
  simp [LambdaRecord.unfollowed, Entries.erase]

theorem followersAmong_of_followed (h : (w.lambdaAt k).followed = some j) : w.followersAmong [k] j = [k] := by
  simp [followersAmong, h]

theorem followersAmong_of_not_followed (h : (w.lambdaAt k).followed ≠ some j) : w.followersAmong [k] j = [] := by
  simp [followersAmong, h]

/-! ## Lambdas are invalidated -/

theorem lambdaAt_invalidate (w : World) (k j : LambdaId) : (w.invalidate k).lambdaAt j =
    (if k = j ∧ j.index < w.lambdas.size then dropResult (w.lambdaAt j) else w.lambdaAt j).unfollowed
      (w.followersAmong [k] j) := by
  unfold invalidate
  cases hfollowed : (w.lambdaAt k).followed with
  | none =>
    rw [followersAmong_of_not_followed (by rw [hfollowed]; nofun), unfollowed_nil]
    exact lambdaAt_modifyLambda ..
  | some i =>
    show ((w.modifyLambda k dropResult).modifyLambda i _).lambdaAt j = _
    have size : (w.modifyLambda k dropResult).lambdas.size = w.lambdas.size := Array.size_modify ..
    rw [lambdaAt_modifyLambda, size, lambdaAt_modifyLambda]
    by_cases hi : i = j
    · subst hi
      rw [followersAmong_of_followed hfollowed, unfollowed_singleton]
      by_cases hlt : i.index < w.lambdas.size
      · rw [if_pos ⟨rfl, hlt⟩]
      · rw [if_neg fun h => hlt h.2, if_neg fun h => hlt h.2, lambdaAt_of_size_le (Nat.le_of_not_lt hlt)]
        rfl
    · rw [if_neg fun h => hi h.1, followersAmong_of_not_followed fun h => hi (Option.some.inj (hfollowed ▸ h)),
        unfollowed_nil]

theorem size_invalidate (w : World) (k : LambdaId) : (w.invalidate k).lambdas.size = w.lambdas.size := by
  unfold invalidate
  cases (w.lambdaAt k).followed with
  | none => exact Array.size_modify ..
  | some i => exact (Array.size_modify ..).trans (Array.size_modify ..)

theorem rest_invalidate (w : World) (k : LambdaId) :
    w.invalidate k = { w with lambdas := (w.invalidate k).lambdas } := by
  unfold invalidate
  cases (w.lambdaAt k).followed <;> rfl

/-- Lambdas that are invalidated later follow what they have followed until then. -/
theorem followersAmong_invalidate (hnew : k ∉ ks) : (w.invalidate k).followersAmong ks j = w.followersAmong ks j := by
  refine List.filter_congr fun i hi => ?_
  have other : ¬(k = i ∧ i.index < w.lambdas.size) := by
    rintro ⟨rfl, -⟩
    exact hnew hi
  rw [lambdaAt_invalidate, if_neg other]
  rfl

namespace Invalidated

theorem nil (w : World) : w.Invalidated [] w :=
  ⟨rfl, rfl, fun _ => (unfollowed_nil _).symm⟩

/-- First one lambda is invalidated, and then others. -/
theorem cons (hk : k.index < w.lambdas.size) (hnew : k ∉ ks) (h : (w.invalidate k).Invalidated ks v) :
    w.Invalidated (k :: ks) v where
  rest := by
    rw [h.rest, rest_invalidate]
  size := h.size.trans (size_invalidate w k)
  record j := by
    have both : w.followersAmong (k :: ks) j = w.followersAmong [k] j ++ w.followersAmong ks j := by
      rw [← List.singleton_append, followersAmong, List.filter_append]
      rfl
    rw [h.record j, lambdaAt_invalidate, followersAmong_invalidate hnew, both, ← unfollowed_unfollowed]
    by_cases hmem : j ∈ ks
    · have hj : k ≠ j := fun h => hnew (h ▸ hmem)
      rw [if_pos hmem, if_neg fun h => hj h.1, if_pos (List.mem_cons_of_mem k hmem)]
      rfl
    · rw [if_neg hmem]
      by_cases hj : k = j
      · subst hj
        rw [if_pos ⟨rfl, hk⟩, if_pos List.mem_cons_self]
      · rw [if_neg fun h => hj h.1, if_neg fun h => (List.mem_cons.1 h).elim (hj ∘ Eq.symm) hmem]

/-- Different lambdas are invalidated one after another. -/
theorem foldl (hnodup : ks.Nodup) (hks : ∀ k ∈ ks, k.index < w.lambdas.size) :
    w.Invalidated ks (ks.foldl World.invalidate w) := by
  induction ks generalizing w with
  | nil => exact .nil w
  | cons k ks ih =>
    obtain ⟨hnew, hnodup⟩ := List.nodup_cons.1 hnodup
    refine cons (hks k List.mem_cons_self) hnew (ih hnodup fun j hj => ?_)
    rw [size_invalidate]
    exact hks j (List.mem_cons_of_mem k hj)

end Invalidated

/-- The affected lambdas have been visited, and then they have been invalidated. -/
theorem Mapped.swept (h : w.Mapped (.visited live thread) affected v) (h' : v.Invalidated affected u) :
    w.Swept live thread affected u := by
  have same (k : LambdaId) : v.followersAmong affected k = w.followersAmong affected k := by
    refine List.filter_congr fun j _ => ?_
    rw [h.record]
    split <;> rfl
  refine ⟨?_, h'.size.trans h.size, fun hk => ?_, fun hk => ?_⟩
  · rw [h'.rest, h.rest]
  · rw [h'.record, h.record, if_pos hk, if_pos hk, same]
    rfl
  · rw [h'.record, h.record, if_neg hk, if_neg hk, same]

/-- When a pass has invalidated what it has collected. -/
theorem Collects.swept {roots : List LambdaId} (h : w.Collects live thread roots affected v)
    (hknown : w.Known live thread roots) :
    w.Swept live thread affected (affected.foldl World.invalidate v) := by
  obtain ⟨hnodup, hmapped⟩ := h.mapped hknown
  refine hmapped.swept (.foldl hnodup fun k hk => ?_)
  rw [hmapped.size]
  exact hknown k ((h.mem_iff hknown).1 hk)

/-! ## The rest of the pass -/

/-- Some callbacks run, and after that the lambdas are not notified any more. -/
def serve (thread : ThreadId) (reached : List LambdaId) : Eval Unit := do
  let outcome ← (Eval.holding (reached.map .lambda) (LambdaId.runAllCallbacks reached)).attempt
  Eval.modify fun w => reached.foldl (fun w k => w.leaveNotify thread k) w
  Eval.ofExcept outcome

/-- The marks are taken away if the callbacks return, with a value or a failure. -/
theorem serve_apply (thread : ThreadId) (reached : List LambdaId) (ctx : Context) (w : World) :
    serve thread reached ctx w =
      (LambdaId.runAllCallbacks reached
        { ctx with thread := { ctx.thread with held := reached.map .lambda ++ ctx.thread.held } }
        w).attempt.bind fun outcome u =>
          Eval.ofExcept outcome ctx (reached.foldl (fun w k => w.leaveNotify thread k) u) := by
  simp only [serve, Eval.bind_apply, Eval.attempt_apply, Eval.holding_apply, Eval.modify_apply,
    Outcome.bind_value]

end World

namespace LambdaId

variable {w v : World} {ctx : Context} {roots affected : List LambdaId}

/-- A thread that is too deep in open computations begins no pass. -/
theorem propagate_of_le (hne : roots ≠ []) (h : w.config.maxDepth ≤ ctx.thread.depth) :
    propagate roots ctx w = .error (.excessiveRecursion (ctx.thread.depth + 1) w.config.maxDepth) w := by
  unfold propagate
  rw [if_neg (by simpa using hne), Eval.nested_of_le _ h]

/-- A pass collects lambdas, invalidates all of them, and then runs their callbacks. -/
theorem propagate_eq_serve (hne : roots ≠ []) (hdepth : ctx.thread.depth < w.config.maxDepth)
    (henter : w.enter (w.liveness ctx.thread.held) ctx.thread.id roots = (affected, v)) :
    propagate roots ctx w = World.serve ctx.thread.id affected
      { ctx with thread := { ctx.thread with depth := ctx.thread.depth + 1 } }
      (affected.foldl World.invalidate v) := by
  have live (thread : Thread) : Eval.liveness { ctx with thread } w = .value (w.liveness thread.held) w :=
    rfl
  unfold propagate
  rw [if_neg (by simpa using hne), Eval.nested_of_lt _ hdepth]
  rw [World.serve_apply]
  simp only [Eval.bind_apply, Eval.thread_apply, Outcome.bind_value, live, Eval.modifyGet_apply, henter,
    Eval.modify_apply, Eval.attempt_apply, Eval.holding_apply]

theorem propagate_of_enter (hne : roots ≠ []) (hdepth : ctx.thread.depth < w.config.maxDepth)
    (henter : w.enter (w.liveness ctx.thread.held) ctx.thread.id roots = (affected, v)) :
    ∃ later later' : Thread, propagate roots ctx w =
      (runAllCallbacks affected { ctx with thread := later }
        (affected.foldl World.invalidate v)).attempt.bind
        fun outcome u => Eval.ofExcept outcome { ctx with thread := later' }
          (affected.foldl (fun w j => w.leaveNotify ctx.thread.id j) u) := by
  rw [propagate_eq_serve hne hdepth henter, World.serve_apply]
  exact ⟨_, _, rfl⟩

end LambdaId

end Reactor
