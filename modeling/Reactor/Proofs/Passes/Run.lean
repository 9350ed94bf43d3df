import Reactor.Proofs.Discipline.Marks
import Reactor.Proofs.Histories.Changes
import Reactor.Proofs.Histories.Engine
import Reactor.Proofs.Tracking.Silence
import Reactor.Proofs.Passes.Sweep

/-!
# Whole passes

A force takes away the mark that it sets, and so does a pass, since both set only marks that the lambda did not
have. So at the end of every history the same lambdas have a mark as at its beginning
(`World.MarksAs.ofHistory`): whatever a computation does, and whether it returns a value or fails, when it
returns the marks are what they were when it began.

What a pass visits and changes, on every graph of lambdas and from every state of the thread that runs it
(`LambdaId.pass_hits_reachable`). Before the first callback runs it has invalidated what can be reached, each
lambda once, and nothing else. When it returns the marks are what they were. If the thread is too deep in
open computations it does nothing at all.
-/

namespace Reactor

/-- The same lambdas have a mark. -/
def World.MarksAs (mark : Mark) (w v : World) : Prop :=
  ∀ k, (v.lambdaAt k).Bears mark ↔ (w.lambdaAt k).Bears mark

namespace World

variable {v w : World} {k : LambdaId} {thread : ThreadId}

theorem notifying_modifyLambda {f : LambdaRecord → LambdaRecord}
    (hf : ∀ record : LambdaRecord, (f record).notifying = record.notifying) (j : LambdaId) :
    ((w.modifyLambda k f).lambdaAt j).notifying = (w.lambdaAt j).notifying := by
  rw [lambdaAt_modifyLambda]
  split
  · exact hf _
  · rfl

/-- If no other thread is computing the lambda, none is when it is settled what became of the computation. -/
theorem not_computing_settled {generation : Nat} {outcome : Except Error Value} {owner : ThreadId}
    (h : (v.lambdaAt k).cache = .computing owner → owner = thread) :
    ((v.modifyLambda k (LambdaId.settle thread generation outcome)).lambdaAt k).cache ≠
      .computing owner := by
  intro settled
  rw [lambdaAt_modifyLambda] at settled
  split at settled
  · obtain ⟨computing, other⟩ := LambdaId.computing_of_settle settled
    exact other (h computing)
  · rename_i missing
    have bears : (v.lambdaAt k).Bears (.computing owner) := settled
    exact missing ⟨rfl, bears.lt⟩

end World

namespace World.MarksAs

variable {mark : Mark} {u v w : World} {k : LambdaId} {thread : ThreadId}

theorem ofLambdas (h : v.lambdas = w.lambdas) : w.MarksAs mark v := by
  intro k
  rw [lambdaAt, lambdaAt, h]

theorem modifyLambda {f : LambdaRecord → LambdaRecord}
    (h : ∀ record : LambdaRecord, (f record).Bears mark ↔ record.Bears mark) :
    w.MarksAs mark (w.modifyLambda k f) := by
  intro j
  rw [lambdaAt_modifyLambda]
  split
  · exact h _
  · exact Iff.rfl

theorem dropResult : w.MarksAs mark (w.modifyLambda k World.dropResult) := by
  refine modifyLambda fun record => ?_
  cases mark with
  | computing owner =>
    unfold LambdaRecord.Bears World.dropResult
    cases record.cache <;> simp
  | notifying other => exact Iff.rfl

/-- A new lambda has no mark. -/
theorem born {record : LambdaRecord} (h : record.Blank) :
    w.MarksAs mark { w with lambdas := w.lambdas.push record } := by
  intro k
  rw [lambdaAt, getD_push]
  split
  · rename_i hk
    refine iff_of_false ?_ fun found => absurd found.lt (by omega)
    cases mark with
    | computing owner => simp [LambdaRecord.Bears, h.cache]
    | notifying other => simp [LambdaRecord.Bears, h.notifying]
  · exact Iff.rfl

/-- A force takes away the mark that it has set. -/
theorem forced (h : (w.opened thread k).MarksAs mark v) (outcome : Except Error Value) :
    w.MarksAs mark (w.closed thread k outcome v) := by
  unfold World.opened at h
  unfold World.closed
  cases hkeeps : (w.lambdaAt k).keeps with
  | false => simpa [hkeeps] using h
  | true =>
    rw [hkeeps, if_pos rfl] at h
    rw [if_pos rfl]
    intro j
    have hj := h j
    cases mark with
    | notifying other =>
      have begun := notifying_modifyLambda (w := w) (k := k)
        (f := fun record => { record with cache := .computing thread }) (fun _ => rfl) j
      unfold LambdaRecord.Bears at hj ⊢
      dsimp only at hj ⊢
      rw [notifying_modifyLambda (LambdaId.notifying_settle _ _ _), hj, begun]
    | computing owner =>
      unfold LambdaRecord.Bears at hj ⊢
      dsimp only at hj ⊢
      by_cases hjk : k = j
      · subst hjk
        have empty := LambdaRecord.cache_of_keeps hkeeps
        rw [empty]
        refine iff_of_false (not_computing_settled fun computing => ?_) nofun
        have begun := hj.1 computing
        rw [lambdaAt_modifyLambda] at begun
        split at begun
        · cases begun
          rfl
        · rw [empty] at begun
          cases begun
      · rw [lambdaAt_modifyLambda, if_neg fun found => hjk found.1] at hj ⊢
        exact hj

/-- What a pass visits keeps the marks that it has. -/
theorem mem_notifying_discover {live : Holders} {steps : Nat} {pending : List LambdaId}
    {other : ThreadId} (h : other ∈ (w.lambdaAt k).notifying) :
    other ∈ ((World.discover live thread steps w pending).2.lambdaAt k).notifying := by
  induction steps generalizing w pending with
  | zero => exact h
  | succ steps ih =>
    cases pending with
    | nil => exact h
    | cons first pending =>
      rw [World.discover]
      split
      · exact ih h
      · refine ih ?_
        rw [World.visit_eq, World.lambdaAt_visit]
        split
        · exact List.mem_cons_of_mem _ h
        · exact h

/-- A pass takes away the marks that it has set. -/
theorem passed {live : Holders} {roots : List LambdaId}
    (h : (w.enter live thread roots).2.MarksAs mark v) :
    w.MarksAs mark ((w.enter live thread roots).1.foldl (fun w k => w.leaveNotify thread k) v) := by
  intro k
  cases mark with
  | computing owner =>
    have entered : w.Cooled (fun _ => False) (w.enter live thread roots).2 :=
      World.cooled_discover live thread _ w roots
    have left : v.Cooled (fun _ => False)
        ((w.enter live thread roots).1.foldl (fun w k => w.leaveNotify thread k) v) :=
      .foldl (fun k _ w => World.cooled_leaveNotify w thread k) v
    have hk := h k
    unfold LambdaRecord.Bears at hk ⊢
    dsimp only at hk ⊢
    rw [left.cache_of_not id, hk, entered.cache_of_not id]
  | notifying other =>
    show other ∈ _ ↔ other ∈ _
    rw [World.mem_notifying_left_iff]
    constructor
    · rintro ⟨hv, hother⟩
      rcases World.notifying_discover ((h k).1 hv) with hw | ⟨same, hmem⟩
      · exact hw
      · exact absurd same (hother hmem)
    · refine fun hw => ⟨(h k).2 (mem_notifying_discover hw), fun hmem same => ?_⟩
      subst same
      exact Discipline.not_notifying_of_mem_discover live other _ w roots hmem hw

end World.MarksAs

namespace World.MarksAs

variable {mark : Mark} {u v w : World} {α : Type}

theorem refl (w : World) : w.MarksAs mark w :=
  fun _ => Iff.rfl

theorem trans (h : u.MarksAs mark v) (h' : v.MarksAs mark w) : u.MarksAs mark w :=
  fun k => (h' k).trans (h k)

theorem foldl {g : World → α → World} (h : ∀ w a, MarksAs mark w (g w a)) (items : List α) (w : World) :
    w.MarksAs mark (items.foldl g w) := by
  induction items generalizing w with
  | nil => exact refl w
  | cons item items ih => exact (h w item).trans (ih _)

/-- Registrations are no marks. -/
theorem ofRewired (h : w.Rewired v) : w.MarksAs mark v := by
  intro k
  rw [h.record k]
  cases mark <;> exact Iff.rfl

theorem invalidate (w : World) (k : LambdaId) : w.MarksAs mark (w.invalidate k) := by
  unfold World.invalidate
  dsimp only
  split
  · exact dropResult.trans (ofRewired (.removeListener _ _ _))
  · exact dropResult

/-- Whatever has happened, the marks are what they were, if others leave them alone. -/
theorem ofHistory {serve : LambdaId → Eval Value} {between : World → World → Prop} {thread : ThreadId}
    {es : List Occurrence} (hbetween : ∀ {u u'}, between u u' → u.MarksAs mark u')
    (h : World.History serve between thread es w v) :
    w.MarksAs mark v := by
  induction h with
  | aside h => exact ofLambdas h.lambdas
  | others h => exact hbetween h
  | trans _ _ ih ih' => exact ih.trans ih'
  | begun _ ih => exact ih
  | took h =>
    cases h with
    | made h => exact (born h).trans (ofRewired (.withLambda _ _))
    | numbered k => exact ofRewired (.numbered _ k)
    | listened k _ callback => exact ofRewired (.listened _ k _ callback)
    | unlistened k key => exact ofRewired (.removeListener _ k key)
    | answered _ _ => exact refl _
    | refused _ _ => exact refl _
  | read _ _ _ ih => exact ih.trans (ofRewired (.follow _ _ _))
  | computed _ _ _ _ ih => exact forced ih _
  | unknown _ _ _ ih => exact forced ih _
  | passed _ ih => exact passed ((foldl invalidate _ _).trans ih)

end World.MarksAs

/-- If the roots have records, and all lambdas that live and depend on a lambda, then all that can be
reached has. -/
theorem World.Known.ofDependents {w : World} {live : Holders} {thread : ThreadId} {roots : List LambdaId}
    (hroots : ∀ k ∈ roots, k.index < w.lambdas.size)
    (hdependents : ∀ k, ∀ id ∈ w.liveDependents live k, id.index < w.lambdas.size) :
    w.Known live thread roots := by
  intro k h
  cases h with
  | root h _ => exact hroots k h
  | dependent _ hid _ => exact hdependents _ k hid

namespace LambdaId

variable {w : World} {roots : List LambdaId} {budget : Nat} {thread : Thread}

/-- Whether a pass returns a value or fails, when it returns the marks are what they were. -/
theorem marksAs_propagate {between : World → World → Prop} {mark : Mark} {y : Outcome Unit} {v : World}
    (hbetween : ∀ {u u'}, between u u' → u.MarksAs mark u')
    (hy : (propagate roots (.ofBudget budget thread) w).Reaches between y) (hv : y.returned? = some v) :
    w.MarksAs mark v := by
  obtain ⟨es, history⟩ :=
    (Eval.recorded_propagate roots _ (Context.records_ofBudget budget thread) w y hy).of_returned hv
  exact .ofHistory hbetween history

/-- A pass visits exactly what can be reached from the roots along registrations of lambdas that live,
without passing through a lambda that the thread is notifying already. Its first loop comes to its end
having collected these lambdas, each once, and each of them is invalidated once before callbacks run, while
no other lambda is. Whether the callbacks return a value or fail, the same threads are notifying the same
lambdas in the end, if others leave these marks alone while the pass waits. Without roots, and when the
thread has reached the greatest depth, nothing changes at all. -/
theorem pass_hits_reachable (hknown : w.Known (w.liveness thread.held) thread.id roots) :
    (roots = [] → propagate roots (.ofBudget budget thread) w = .value () w) ∧
    (roots ≠ [] → w.config.maxDepth ≤ thread.depth →
      propagate roots (.ofBudget budget thread) w =
        .error (.excessiveRecursion (thread.depth + 1) w.config.maxDepth) w) ∧
    (roots ≠ [] → thread.depth < w.config.maxDepth → ∃ affected v,
      w.Collects (w.liveness thread.held) thread.id roots affected v ∧
      affected.Nodup ∧
      (∀ k, k ∈ affected ↔ w.Affected (w.liveness thread.held) thread.id roots k) ∧
      w.Swept (w.liveness thread.held) thread.id affected (affected.foldl World.invalidate v) ∧
      propagate roots (.ofBudget budget thread) w =
        World.serve thread.id affected (.ofBudget budget { thread with depth := thread.depth + 1 })
          (affected.foldl World.invalidate v)) ∧
    ∀ {between : World → World → Prop} {other : ThreadId} {y : Outcome Unit} {v : World},
      (∀ {u u'}, between u u' → u.MarksAs (.notifying other) u') →
      (propagate roots (.ofBudget budget thread) w).Reaches between y → y.returned? = some v →
      w.MarksAs (.notifying other) v := by
  have thread_eq := Context.thread_ofBudget budget thread
  refine ⟨?_, fun hne hdeep => ?_, fun hne hdepth => ?_, marksAs_propagate⟩
  · rintro rfl
    rfl
  · rw [propagate_of_le hne (by rwa [thread_eq]), thread_eq]
  · have collects := World.collects_enter w (w.liveness thread.held) thread.id roots
    refine ⟨_, _, collects, (collects.mapped hknown).1, fun k => collects.mem_iff hknown,
      collects.swept hknown, ?_⟩
    have shallow : (Context.ofBudget budget thread).thread.depth < w.config.maxDepth := by
      rwa [thread_eq]
    have run := propagate_eq_serve hne shallow rfl
    rwa [Context.ofBudget_withThread, thread_eq] at run

/-- Two lambdas that depend on each other, where the second one keeps a result that was read from the first
one, and a third one that depends on the second and that the main thread is notifying. -/
def ring : World :=
  { lambdas := #[
      { (default : LambdaRecord) with listeners := [(.dependent ⟨1⟩, .dependent ⟨1⟩)] },
      { (default : LambdaRecord) with
        cache := .holding (.integer 1)
        listeners := [(.dependent ⟨0⟩, .dependent ⟨0⟩), (.dependent ⟨2⟩, .dependent ⟨2⟩)]
        followed := some ⟨0⟩ },
      { (default : LambdaRecord) with notifying := [Session.mainThread.id] }] }

/-- The main thread holds the lambdas of the ring. -/
def ringThread : Thread :=
  { Session.mainThread with held := [.lambda ⟨0⟩, .lambda ⟨1⟩, .lambda ⟨2⟩] }

/-- From a lambda of the ring, named twice, a pass reaches both lambdas and goes past the third one. The
result is gone, and with it the registration. -/
theorem pass_hits_ring :
    ring.Known (ring.liveness ringThread.held) ringThread.id [⟨0⟩, ⟨0⟩] ∧ ∃ affected u,
      affected.Nodup ∧ (∀ k : LambdaId, k ∈ affected ↔ k = ⟨0⟩ ∨ k = ⟨1⟩) ∧
      (∀ k ∈ affected, (u.lambdaAt k).generation = 1) ∧ (u.lambdaAt ⟨2⟩).generation = 0 ∧
      (u.lambdaAt ⟨1⟩).cache = .empty ∧ (u.lambdaAt ⟨0⟩).listeners = [] ∧
      propagate [⟨0⟩, ⟨0⟩] (.ofBudget 8 ringThread) ring =
        World.serve ringThread.id affected (.ofBudget 8 { ringThread with depth := 1 }) u := by
  have edge {k id : LambdaId} (h : id ∈ ring.liveDependents (ring.liveness ringThread.held) k) :
      id = ⟨0⟩ ∨ id = ⟨1⟩ ∨ id = ⟨2⟩ := by
    have h := (List.mem_filter.1 h).1
    obtain ⟨_ | _ | _ | i⟩ := k
    · exact .inr (.inl (List.mem_singleton.1 h))
    · exact (List.mem_pair.1 h).imp_right .inr
    · cases h
    · cases h
  have lives (k : LambdaId) (hk : .lambda k ∈ ringThread.held) :
      (ring.liveness ringThread.held).hasLambda k = true :=
    World.hasLambda_liveness (List.mem_append_left _ hk)
  have known : ring.Known (ring.liveness ringThread.held) ringThread.id [⟨0⟩, ⟨0⟩] := by
    refine .ofDependents (by decide) fun k id hid => ?_
    rcases edge hid with rfl | rfl | rfl <;> decide
  refine ⟨known, ?_⟩
  obtain ⟨-, -, pass, -⟩ := @pass_hits_reachable ring [⟨0⟩, ⟨0⟩] 8 ringThread known
  obtain ⟨affected, v, -, nodup, mem, swept, run⟩ := pass (by decide) (by decide)
  have both (k : LambdaId) : k ∈ affected ↔ k = ⟨0⟩ ∨ k = ⟨1⟩ := by
    rw [mem]
    constructor
    · intro h
      cases h with
      | root h _ => exact .inl ((List.mem_pair.1 h).elim id id)
      | dependent _ hid idle =>
        -- The third lambda is passed over.
        rcases edge hid with h | h | rfl
        · exact .inl h
        · exact .inr h
        · cases idle
    · have first : ring.Affected (ring.liveness ringThread.held) ringThread.id [⟨0⟩, ⟨0⟩] ⟨0⟩ :=
        .root (by decide) (by decide)
      rintro (rfl | rfl)
      · exact first
      · exact first.dependent (List.mem_filter.2 ⟨by decide, lives _ (by decide)⟩) (by decide)
  refine ⟨affected, _, nodup, both, fun k hk => ?_, ?_, ?_, ?_, run⟩
  · rw [swept.hit hk]
    rcases (both k).1 hk with rfl | rfl <;> rfl
  · have third : (⟨2⟩ : LambdaId) ∉ affected := by
      rw [both]
      decide
    rw [swept.spared third]
    rfl
  · rw [swept.hit ((both _).2 (.inr rfl))]
    rfl
  · rw [swept.hit ((both _).2 (.inl rfl))]
    refine List.filter_eq_nil_iff.2 fun entry hentry => ?_
    obtain rfl : entry = (.dependent ⟨1⟩, .dependent ⟨1⟩) :=
      List.mem_singleton.1 (List.mem_filter.1 hentry).1
    have follower : (⟨1⟩ : LambdaId) ∈ ring.followersAmong affected ⟨0⟩ :=
      List.mem_filter.2 ⟨(both _).2 (.inr rfl), rfl⟩
    simpa using follower

end LambdaId

end Reactor
