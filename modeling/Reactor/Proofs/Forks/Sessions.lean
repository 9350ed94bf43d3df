import Reactor.Proofs.Discipline.Sessions
import Reactor.Proofs.Fixing.Course
import Reactor.Proofs.Variables.Fixed

/-!
# The outcomes of forks in a session

The runtime notes the outcome of a fork when its work has ended, and nobody changes it afterwards
(`Session.Orderly.after`). The work of threads itself changes no outcome: it neither ends a fork that is still
pending nor touches one that has ended. This is a discipline for any choice of pending forks
(`Discipline.forking`). Forks wait and go on while other ones end, so what is known of their work is known for
all forks that are pending when they go on.

What a session does with its forks is then in order (`Session.Orderly`): the forks that wait are pending, each of
them waits once, and none is started twice. Published values are fixed to the end and marked.
-/

namespace Reactor

open Discipline (Fixed)

/-- The value has its mark, if it needs one. -/
def Value.Marked (v : Value) : Prop :=
  ¬ (v.needsMark && v.notes.mark == 0) = true

/-- To mark a value marks it. -/
theorem Value.marked_markFrom (n : Nat) (v : Value) : (Value.markFrom n v).1.Marked := by
  unfold Marked
  by_cases h : (v.needsMark && v.notes.mark == 0) = true
  · obtain ⟨data, notes⟩ := v
    obtain ⟨needs, unmarked⟩ := Bool.and_eq_true_iff.1 h
    have unmarked : notes.mark = 0 := beq_iff_eq.1 unmarked
    have fresh : (notes.mark != 0 || !Value.needsMark (.mk data notes)) = false := by
      simp [needs, unmarked]
    rw [Value.markFrom, fresh, if_neg Bool.false_ne_true]
    simp
  · rwa [Value.markFrom_of_marked h]

/-- To share a marked value is to give it. -/
theorem Value.Marked.share {v : Value} (h : v.Marked) : v.share = pure v := by
  unfold Value.share
  exact if_neg h

namespace World

/-- A fork has not ended. -/
def Pending (w : World) (fork : ForkId) : Prop :=
  (w.forkAt fork).outcome = none

/-- A lambda that keeps results waits for a fork. -/
structure StandsFor (w : World) (fork : ForkId) (k : LambdaId) : Prop where
  body : (w.lambdaAt k).body = .await fork
  fixable : (w.lambdaAt k).fixable = true

/-- Lambdas that cannot be fixed stay so, and lambdas that stand for forks do that for good. -/
structure LambdasStay (u w : World) : Prop where
  unfixable : u.StaysUnfixable w
  stands {fork : ForkId} {k : LambdaId} (h : u.StandsFor fork k) : w.StandsFor fork k

/-- The second state may come after the first one: outcomes stay, and lambdas stay what they are. -/
structure Advances (u w : World) : Prop extends u.LambdasStay w where
  outcome {fork : ForkId} {outcome : Except Error Value} (h : (u.forkAt fork).outcome = some outcome) :
    (w.forkAt fork).outcome = some outcome

variable {u v w : World} {fork other : ForkId} {k : LambdaId}

/-- A lambda that waits for a fork has a record. -/
theorem StandsFor.lt (h : w.StandsFor fork k) : k.index < w.lambdas.size := by
  apply Nat.lt_of_not_le
  intro hle
  have body := h.body
  rw [lambdaAt_of_size_le hle] at body
  cases body

namespace LambdasStay

theorem refl (w : World) : w.LambdasStay w :=
  ⟨fun _ h => h, fun h => h⟩

theorem trans (h : u.LambdasStay v) (h' : v.LambdasStay w) : u.LambdasStay w :=
  ⟨fun id hid => h'.unfixable id (h.unfixable id hid), fun hk => h'.stands (h.stands hk)⟩

theorem ofLambdas (h : w.lambdas = u.lambdas) : u.LambdasStay w :=
  ⟨.ofLambdas h, fun {_ k} hk =>
    have same : w.lambdaAt k = u.lambdaAt k := by rw [lambdaAt, h, lambdaAt]
    ⟨same ▸ hk.body, same ▸ hk.fixable⟩⟩

theorem modifyLambda (id : LambdaId) {f : LambdaRecord → LambdaRecord} {allows : Expr → Prop}
    (h : (w.lambdaAt id).Tame allows (f (w.lambdaAt id))) : w.LambdasStay (w.modifyLambda id f) := by
  refine ⟨.modifyLambda id h, fun {fork k} hk => ?_⟩
  by_cases found : id = k
  · subst found
    have same : (w.modifyLambda id f).lambdaAt id = f (w.lambdaAt id) := by
      rw [lambdaAt_modifyLambda, if_pos ⟨rfl, hk.lt⟩]
    exact ⟨same ▸ h.body.trans hk.body, same ▸ h.fixable.trans hk.fixable⟩
  · have same : (w.modifyLambda id f).lambdaAt k = w.lambdaAt k := by
      rw [lambdaAt_modifyLambda, if_neg fun h => found h.1]
    exact ⟨same ▸ hk.body, same ▸ hk.fixable⟩

theorem newLambda (w : World) (record : LambdaRecord) :
    w.LambdasStay { w with lambdas := w.lambdas.push record } := by
  refine ⟨.newLambda w record, fun {fork k} hk => ?_⟩
  have same : ({ w with lambdas := w.lambdas.push record } : World).lambdaAt k = w.lambdaAt k := by
    rw [lambdaAt, getD_push, if_neg (Nat.ne_of_lt hk.lt)]
    rfl
  exact ⟨same ▸ hk.body, same ▸ hk.fixable⟩

end LambdasStay

theorem Advances.refl (w : World) : w.Advances w :=
  ⟨.refl w, fun h => h⟩

theorem Advances.trans (h : u.Advances v) (h' : v.Advances w) : u.Advances w :=
  ⟨h.toLambdasStay.trans h'.toLambdasStay, fun ho => h'.outcome (h.outcome ho)⟩

/-- What is pending later was pending before. -/
theorem Advances.pending (h : u.Advances w) (hw : w.Pending fork) : u.Pending fork := by
  unfold Pending at hw ⊢
  cases ho : (u.forkAt fork).outcome with
  | none => rfl
  | some outcome => exact absurd (h.outcome ho) (by simp [hw])

theorem Advances.ofForks (hlambdas : u.LambdasStay w) (h : w.forks = u.forks) : u.Advances w :=
  ⟨hlambdas, fun ho => by rwa [forkAt, h]⟩

theorem Pending.ofForks (h : u.Pending fork) (hforks : w.forks = u.forks) : w.Pending fork := by
  unfold Pending forkAt at h ⊢
  rwa [hforks]

theorem forkAt_push (w : World) (record : ForkRecord) (fork : ForkId) :
    ForkId.index fork = w.forks.size ∧ forkAt { w with forks := w.forks.push record } fork = record ∨
      forkAt { w with forks := w.forks.push record } fork = w.forkAt fork := by
  unfold forkAt
  rw [getD_push]
  split
  · next h => exact .inl ⟨h, rfl⟩
  · exact .inr rfl

theorem forkAt_of_le (h : w.forks.size ≤ fork.index) : w.forkAt fork = default := by
  simp [forkAt, Array.getD, Nat.not_lt.2 h]

/-- A new fork is pending. -/
theorem Pending.newFork (h : w.Pending fork) {record : ForkRecord} (hnew : record.outcome = none) :
    Pending { w with forks := w.forks.push record } fork := by
  unfold Pending
  rcases w.forkAt_push record fork with ⟨-, new⟩ | old
  · rw [new, hnew]
  · rwa [old]

theorem Advances.newFork (w : World) (record : ForkRecord) :
    w.Advances { w with forks := w.forks.push record } := by
  refine ⟨.ofLambdas rfl, fun {fork _} ho => ?_⟩
  rcases w.forkAt_push record fork with ⟨last, -⟩ | old
  · rw [forkAt_of_le (Nat.le_of_eq last.symm)] at ho
    cases ho
  · rwa [old]

/-- To note an outcome leaves other forks alone. -/
theorem outcome_finishFork (w : World) (fork other : ForkId) (outcome : Except Error Value) :
    ((w.finishFork fork outcome).forkAt other).outcome = (w.forkAt other).outcome ∨
      other = fork ∧ ((w.finishFork fork outcome).forkAt other).outcome = some outcome := by
  unfold forkAt World.finishFork
  rw [getD_modify]
  split
  · next h =>
    obtain ⟨index⟩ := fork
    obtain ⟨otherIndex⟩ := other
    exact .inr ⟨by rw [show index = otherIndex from h.1], rfl⟩
  · exact .inl rfl

end World

namespace Discipline

/-- A value that a fork publishes: it is fixed to the end, and it is marked. -/
def Published (v : Value) (w : World) : Prop :=
  v.unfixed w = false ∧ v.Marked

/-- No lambda keeps a deferred result, and some forks are pending. -/
def Awaits (pending : ForkId → Prop) (w : World) : Prop :=
  w.KeepsSettled ∧ ∀ fork, pending fork → w.Pending fork

theorem Awaits.ofForks {pending : ForkId → Prop} {v w : World} (hw : Awaits pending w)
    (hsettled : v.KeepsSettled) (hlambdas : w.LambdasStay v) (h : v.forks = w.forks) :
    Awaits pending v ∧ w.Advances v :=
  ⟨⟨hsettled, fun fork hf => (hw.2 fork hf).ofForks h⟩, .ofForks hlambdas h⟩

/-- A change of what is neither a lambda nor a fork. -/
theorem Awaits.aside {pending : ForkId → Prop} {v w : World} (hw : Awaits pending w)
    (hlambdas : v.lambdas = w.lambdas) (h : v.forks = w.forks) : Awaits pending v ∧ w.Advances v :=
  hw.ofForks (hw.1.ofLambdas hlambdas) (.ofLambdas hlambdas) h

/-- The work of threads: pending forks stay pending, and outcomes stay. All scripts are allowed. -/
def forking (pending : ForkId → Prop) : Discipline where
  allows _ := True
  single := True
  holds := Awaits pending
  leads := World.Advances
  firstScope := 0
  lets _ _ := True
  refl := .refl
  trans := .trans
  script _ _ _ _ := trivial
  callback _ _ _ _ _ := trivial
  settled hw _ _ h := hw.1 _ _ h
  subscriber _ _ _ _ _ := trivial
  forked _ _ := trivial
  firstScope_le _ := Nat.zero_le _
  lets_of_not_bears _ _ _ _ := trivial
  aside h hw := hw.aside h.lambdas h.forks
  lambda id _ h _ hw := hw.ofForks (hw.1.modifyLambda id h) (.modifyLambda id h) rfl
  newLambda h hw := hw.ofForks (hw.1.newLambda h.cache) (.newLambda _ _) rfl
  queue _ _ _ hw := hw.aside rfl rfl
  newQueue _ hw := hw.aside rfl rfl
  newFork _ hnew hw := ⟨⟨hw.1.ofLambdas rfl, fun fork hf => (hw.2 fork hf).newFork hnew⟩, .newFork _ _⟩
  scope _ _ _ hw := hw.aside rfl rfl
  newScope _ _ hw := hw.aside rfl rfl
  destroy _ hw := hw.aside rfl rfl

theorem hosts_forking (pending : ForkId → Prop) : (forking pending).Hosts where
  change h _ hw := Awaits.aside hw h.lambdas h.forks
  allows_iff := ⟨fun _ => .inl trivial, fun _ => trivial⟩
  defined _ _ _ _ := trivial
  define hw _ _ _ := Awaits.aside hw rfl rfl

variable {D : Discipline}

/-- What a fork gives is published. -/
theorem alike_runFork (hD : ∀ {u w : World}, D.leads u w → Value.KeepsFixed u w) (fork : ForkId)
    {ctx : Context} (hctx : D.Admits ctx) (hbudget : ctx.budget < Value.maxDepth) {w v : World}
    (h : D.Rel w v) : D.Alike Published w (fork.run ctx w) (fork.run ctx v) := by
  have record : D.Gives (fun record _ => D.allows record.body) (Eval.gets fun w => w.forkAt fork) :=
    gives_gets (fun _ _ => rfl) fun w hw => D.forked hw fork
  unfold ForkId.run
  rw [Eval.bind_apply, Eval.bind_apply]
  refine (record.run hctx h).bind fun record w v h allowed => ?_
  rw [Eval.bind_apply, Eval.bind_apply]
  refine ((keeps_evaluate allowed record.scope none).run hctx h).bind fun value w v h _ => ?_
  rw [Eval.bind_apply, Eval.bind_apply, Eval.holding_apply, Eval.holding_apply]
  have fixes := alike_fixDeep hD
    (hctx.withThread { ctx.thread with held := value.places ++ ctx.thread.held }) hbudget h value false
  refine fixes.bind fun result w v h hfixed => ?_
  have marks : D.Respects fun w => { w with marks := (Value.markFrom w.marks result).2 } :=
    .aside (fun _ => ⟨⟨rfl, rfl, rfl, rfl⟩, rfl, rfl⟩) fun _ _ => rfl
  have same : v.marks = w.marks := by
    rw [h.same]
    rfl
  have rel := marks.rel h
  obtain ⟨-, lead⟩ := marks.holds h.holds
  rw [Value.share_apply, Value.share_apply, same]
  rw [same] at rel
  refine .value rel lead ⟨?_, Value.marked_markFrom _ _⟩
  rw [Value.unfixed_markFrom]
  exact Value.unfixed_of_keepsFixed (hD lead) result hfixed

end Discipline

/-! ## Sessions -/

open Discipline (Published forking Awaits)

namespace Session

/-- A session deals with its forks in order. -/
structure Orderly (s : Session) : Prop where
  settled : s.world.KeepsSettled
  /-- Only what has been started has ended. -/
  started {fork : ForkId} (h : s.started ≤ fork.index) : s.world.Pending fork
  published {fork : ForkId} {v : Value} (h : (s.world.forkAt fork).outcome = some (.ok v)) :
    Published v s.world
  /-- A fork that waits has been started and has not ended. -/
  waits {waiting : Suspended} (h : waiting ∈ s.suspended) :
    waiting.fork.index < s.started ∧ s.world.Pending waiting.fork
  once : (s.suspended.map Suspended.fork).Nodup
  resumes {waiting : Suspended} (h : waiting ∈ s.suspended) {pending : ForkId → Prop}
    (hpending : ∀ fork, pending fork → s.world.Pending fork) {w : World} (hw : Awaits pending w)
    (lead : s.world.Advances w) :
    (forking pending).Alike Published w (waiting.resume w) (waiting.resume w)

variable {s : Session} {w : World}

/-- The state has gone on, while no fork has ended. -/
theorem Orderly.moved (h : s.Orderly) (lead : s.world.Advances w) (hw : Awaits s.world.Pending w) :
    Orderly { s with world := w } where
  settled := hw.1
  started hfork := hw.2 _ (h.started hfork)
  published {fork v} ho := by
    have ended : (s.world.forkAt fork).outcome ≠ none := fun none => by
      have pending : (w.forkAt fork).outcome = _ := hw.2 fork none
      cases pending.symm.trans ho
    obtain ⟨outcome, old⟩ := Option.ne_none_iff_exists'.1 ended
    cases (lead.outcome old).symm.trans ho
    obtain ⟨fixed, marked⟩ := h.published old
    exact ⟨Value.unfixed_of_keepsFixed lead.unfixable v fixed, marked⟩
  waits hwaiting := ⟨(h.waits hwaiting).1, hw.2 _ (h.waits hwaiting).2⟩
  once := h.once
  resumes hwaiting _ hpending _ hw' lead' :=
    h.resumes hwaiting (fun fork hf => lead.pending (hpending fork hf)) hw' (lead.trans lead')

/-- A pending fork that does not wait has ended. -/
theorem Orderly.finished (h : s.Orderly) {fork : ForkId} (hfork : fork.index < s.started)
    (hpending : s.world.Pending fork) (hidle : ∀ waiting ∈ s.suspended, waiting.fork ≠ fork)
    {outcome : Except Error Value} (houtcome : ∀ v, outcome = .ok v → Published v s.world) :
    Orderly { s with world := s.world.finishFork fork outcome } ∧
      s.world.Advances (s.world.finishFork fork outcome) := by
  have stays {other : ForkId} (hne : other ≠ fork) :
      ((s.world.finishFork fork outcome).forkAt other).outcome = (s.world.forkAt other).outcome :=
    (s.world.outcome_finishFork fork other outcome).resolve_right fun same => hne same.1
  have lead : s.world.Advances (s.world.finishFork fork outcome) := by
    refine ⟨.ofLambdas rfl, fun {other _} ho => ?_⟩
    rwa [stays fun same => ?_]
    cases (same ▸ hpending : s.world.Pending other).symm.trans ho
  have later {v : Value} (hv : Published v s.world) : Published v (s.world.finishFork fork outcome) :=
    ⟨Value.unfixed_of_keepsFixed lead.unfixable v hv.1, hv.2⟩
  refine ⟨{ settled := h.settled.ofLambdas rfl, started := fun {other} hother => ?_,
            published := fun {other v} ho => ?_, waits := fun {waiting} hwaiting => ?_, once := h.once,
            resumes := fun hwaiting _ hp _ hw' lead' => ?_ }, lead⟩
  · have hne : other ≠ fork := fun same => absurd hfork (Nat.not_lt.2 (same ▸ hother))
    exact (stays hne).trans (h.started hother)
  · rcases s.world.outcome_finishFork fork other outcome with same | ⟨-, new⟩
    · exact later (h.published (same.symm.trans ho))
    · cases new.symm.trans ho
      exact later (houtcome v rfl)
  · obtain ⟨begun, pending⟩ := h.waits hwaiting
    exact ⟨begun, (stays (hidle waiting hwaiting)).trans pending⟩
  · exact h.resumes hwaiting (fun other hf => lead.pending (hp other hf)) hw' (lead.trans lead')

/-- A pending fork waits. -/
theorem Orderly.parked (h : s.Orderly) {waiting : Suspended} (hfork : waiting.fork.index < s.started)
    (hpending : s.world.Pending waiting.fork) (hidle : ∀ other ∈ s.suspended, other.fork ≠ waiting.fork)
    (hresume : ∀ {pending : ForkId → Prop}, (∀ fork, pending fork → s.world.Pending fork) →
      ∀ {w : World}, Awaits pending w → s.world.Advances w →
        (forking pending).Alike Published w (waiting.resume w) (waiting.resume w)) :
    Orderly { s with suspended := s.suspended ++ [waiting] } where
  settled := h.settled
  started := h.started
  published := h.published
  waits hother := by
    rcases List.mem_append.1 hother with old | new
    · exact h.waits old
    · rw [List.mem_singleton.1 new]
      exact ⟨hfork, hpending⟩
  once := by
    rw [List.map_append, List.nodup_append]
    refine ⟨h.once, List.nodup_singleton waiting.fork, fun fork hold same hsame => ?_⟩
    obtain ⟨other, hother, rfl⟩ := List.mem_map.1 hold
    rw [List.mem_singleton.1 hsame]
    exact hidle other hother
  resumes hother _ hp _ hw lead := by
    rcases List.mem_append.1 hother with old | new
    · exact h.resumes old hp hw lead
    · rw [List.mem_singleton.1 new]
      exact hresume hp hw lead

/-- What becomes of the work of a pending fork is noted. -/
theorem Orderly.note (h : s.Orderly) {fork : ForkId} (hfork : fork.index < s.started)
    (hpending : s.world.Pending fork) (hidle : ∀ waiting ∈ s.suspended, waiting.fork ≠ fork)
    {x : Outcome Value} (hx : ∀ {pending : ForkId → Prop}, (∀ other, pending other → s.world.Pending other) →
      (forking pending).Alike Published s.world x x) :
    (s.note fork x).Orderly ∧ s.world.Advances (s.note fork x).world := by
  have all := hx fun _ hother => hother
  -- the fork ends in a state to which its work has led
  have ends {w : World} (hw : Awaits s.world.Pending w) (lead : s.world.Advances w)
      {outcome : Except Error Value} (houtcome : ∀ v, outcome = .ok v → Published v w) :
      Orderly { s with world := w.finishFork fork outcome } ∧
        s.world.Advances (w.finishFork fork outcome) := by
    obtain ⟨orderly, rest⟩ := (h.moved lead hw).finished hfork (hw.2 fork hpending) hidle houtcome
    exact ⟨orderly, lead.trans rest⟩
  cases x with
  | value v w =>
    cases all with
    | value hw lead hv => exact ends hw.holds lead fun _ same => by cases same; exact hv
  | error e w =>
    cases all with
    | error hw lead => exact ends hw.holds lead nofun
  | panic message w =>
    cases all with
    | panic hw lead => exact ends hw.holds lead nofun
  | exhausted => exact h.finished hfork hpending hidle nofun
  | waiting on w resume =>
    cases all with
    | waiting hw lead _ =>
      refine ⟨(h.moved lead hw.holds).parked hfork (hw.holds.2 fork hpending) hidle
        fun hp _ hw' lead' => ?_, lead⟩
      cases hx fun other hother => lead.pending (hp other hother) with
      | waiting _ _ hgo => exact hgo (.refl hw') lead'

/-- Two sessions come one after the other, and both are in order. -/
def Follows (s t : Session) : Prop :=
  t.Orderly ∧ s.world.Advances t.world

theorem Follows.trans {r t : Session} (h : r.Follows s) (h' : s.Follows t) : r.Follows t :=
  ⟨h'.1, h.2.trans h'.2⟩

/-- Further forks count as started. -/
theorem Orderly.counted (h : s.Orderly) (started : Nat) (hle : s.started ≤ started) :
    Orderly { s with started } where
  settled := h.settled
  started hfork := h.started (Nat.le_trans hle hfork)
  published := h.published
  waits hwaiting := ⟨Nat.lt_of_lt_of_le (h.waits hwaiting).1 hle, (h.waits hwaiting).2⟩
  once := h.once
  resumes := h.resumes

theorem Follows.refl (h : s.Orderly) : s.Follows s :=
  ⟨h, .refl s.world⟩

theorem budget_ofBudget (budget : Nat) (thread : Thread) :
    (Context.ofBudget budget thread).budget = budget := by
  cases budget <;> rfl

/-- A fork has enough budget to fix what it gives to the end. -/
theorem budget_ofThread_lt (thread : Thread) : (Context.ofThread thread).budget < Value.maxDepth := by
  have enough : Context.sessionBudget < Value.maxDepth := by decide
  rwa [Context.ofThread, budget_ofBudget]

theorem Orderly.startFork (h : s.Orderly) {fork : ForkId} (hfork : s.started ≤ fork.index) :
    s.Follows (s.startFork fork) := by
  have idle : ∀ waiting ∈ s.suspended, waiting.fork ≠ fork := fun waiting hwaiting same => by
    have begun := (h.waits hwaiting).1
    exact absurd hfork (Nat.not_le.2 (same ▸ begun))
  unfold Session.startFork
  dsimp only
  -- only the thread of the fork is new
  generalize hw : { s.world with threads := s.world.threads + 1 } = w
  have forks : w.forks = s.world.forks := by rw [← hw]
  have settled : w.KeepsSettled := h.settled.ofLambdas (by rw [← hw])
  have lead : s.world.Advances w := .ofForks (.ofLambdas (by rw [← hw])) forks
  refine (h.counted (fork.index + 1) (by omega)).note (Nat.lt_succ_self _) (h.started hfork) idle
    fun {pending} hpending => Discipline.Alike.after ?_ lead
  exact Discipline.alike_runFork (D := forking pending) (fun lead => lead.unfixable) fork
    (Discipline.admits_ofBudget (Discipline.hosts_forking pending) _ _) (budget_ofThread_lt _)
    (.refl ⟨settled, fun other hother => (hpending other hother).ofForks forks⟩)

/-- A fork that is started is counted. -/
theorem started_note (s : Session) (fork : ForkId) (x : Outcome Value) :
    (s.note fork x).started = s.started := by
  cases x <;> rfl

theorem Orderly.startForks (h : s.Orderly) : s.Follows s.startForks := by
  -- the forks are started in order
  have started (forks : List Nat) (hsorted : forks.Pairwise (· < ·)) {s : Session} (h : s.Orderly)
      (hforks : ∀ i ∈ forks, s.started ≤ i) :
      s.Follows (forks.foldl
        (fun s i => if s.suspended.length < workers then s.startFork ⟨i⟩ else s) s) := by
    induction forks generalizing s with
    | nil => exact .refl h
    | cons i forks ih =>
      obtain ⟨hi, hsorted⟩ := List.pairwise_cons.1 hsorted
      rw [List.foldl_cons]
      split
      · have next : s.Follows (s.startFork ⟨i⟩) := h.startFork (hforks i List.mem_cons_self)
        have counted : (s.startFork ⟨i⟩).started = i + 1 := started_note _ _ _
        refine next.trans (ih hsorted next.1 fun j hj => ?_)
        rw [counted]
        exact hi j hj
      · exact ih hsorted h fun j hj => hforks j (List.mem_cons_of_mem _ hj)
  refine started _ (List.pairwise_lt_range.sublist (List.drop_sublist _ _)) h fun i hi => ?_
  obtain ⟨n, hn, rfl⟩ := List.mem_iff_getElem.1 hi
  rw [List.getElem_drop, List.getElem_range]
  exact Nat.le_add_right _ _

/-- The forks that wait but for one. -/
theorem Orderly.without (h : s.Orderly) {i : Nat} {waiting : Suspended}
    (hwaiting : s.suspended[i]? = some waiting) :
    Orderly { s with suspended := s.suspended.eraseIdx i } ∧
      ∀ other ∈ s.suspended.eraseIdx i, other.fork ≠ waiting.fork := by
  refine ⟨{ settled := h.settled, started := h.started, published := h.published,
            waits := fun hother => h.waits (List.mem_of_mem_eraseIdx hother),
            once := h.once.sublist ((List.eraseIdx_sublist _ _).map _),
            resumes := fun hother => h.resumes (List.mem_of_mem_eraseIdx hother) }, ?_⟩
  intro other hother same
  obtain ⟨hi, rfl⟩ := List.getElem?_eq_some_iff.1 hwaiting
  obtain ⟨j, hne, found⟩ := List.mem_eraseIdx_iff_getElem?.1 hother
  obtain ⟨hj, rfl⟩ := List.getElem?_eq_some_iff.1 found
  have hj' : j < (s.suspended.map Suspended.fork).length := by rwa [List.length_map]
  have hi' : i < (s.suspended.map Suspended.fork).length := by rwa [List.length_map]
  have forks : (s.suspended.map Suspended.fork)[j] = (s.suspended.map Suspended.fork)[i] := by
    rwa [List.getElem_map, List.getElem_map]
  exact hne (h.once.getElem_inj_iff.1 forks)

theorem Orderly.resume (h : s.Orderly) {i : Nat} {waiting : Suspended}
    (hwaiting : s.suspended[i]? = some waiting) : s.Follows (s.resume i waiting) := by
  have mem : waiting ∈ s.suspended := List.mem_of_getElem? hwaiting
  obtain ⟨begun, pending⟩ := h.waits mem
  obtain ⟨rest, idle⟩ := h.without hwaiting
  exact rest.note begun pending idle fun hpending =>
    h.resumes mem hpending ⟨h.settled, hpending⟩ (.refl s.world)

theorem Orderly.settle (h : s.Orderly) (rounds : Nat) : s.Follows (s.settle rounds) := by
  induction rounds generalizing s with
  | zero => exact .refl h
  | succ rounds ih =>
    have started := h.startForks
    unfold Session.settle
    dsimp only
    generalize found : List.find? _ _ = next
    cases next with
    | none => exact started
    | some entry =>
      obtain ⟨waiting, i⟩ := entry
      have hwaiting : s.startForks.suspended[i]? = some waiting :=
        List.mk_mem_zipIdx_iff_getElem?.1 (List.mem_of_find?_eq_some found)
      have resumed := started.1.resume hwaiting
      exact started.trans (resumed.trans (ih resumed.1))

/-! ### Computations of the host -/

/-- The state goes on while no fork ends, and then the forks go on. -/
theorem Orderly.settledFrom (h : s.Orderly) (lead : s.world.Advances w) (hw : Awaits s.world.Pending w) :
    s.Follows (settleAll { s with world := w }) ∧
      w.Advances (settleAll { s with world := w }).world := by
  have next := (h.moved lead hw).settle maxRounds
  exact ⟨⟨next.1, lead.trans next.2⟩, next.2⟩

section

variable {α : Type} {P : α → World → Prop}

/-- A host that waits goes on in any state that comes after the forks went on. -/
theorem Orderly.resumesHost (h : s.Orderly) {on : Wait} {resume : World → Outcome α}
    (hx : ∀ {pending : ForkId → Prop}, (∀ fork, pending fork → s.world.Pending fork) →
      (forking pending).Alike P s.world (.waiting on w resume) (.waiting on w resume)) :
    s.Follows (settleAll { s with world := w }) ∧
      ∀ {pending : ForkId → Prop}, (∀ fork, pending fork → (settleAll { s with world := w }).world.Pending fork) →
        ∀ {v : World}, Awaits pending v → (settleAll { s with world := w }).world.Advances v →
          (forking pending).Alike P v (resume v) (resume v) := by
  cases hx fun _ hfork => hfork with
  | waiting hw lead _ =>
    obtain ⟨next, forks⟩ := h.settledFrom lead hw.holds
    refine ⟨next, fun hpending _ hv later => ?_⟩
    cases hx fun fork hfork => next.2.pending (hpending fork hfork) with
    | waiting _ _ hgo => exact hgo (.refl hv) (forks.trans later)

/-- When a host has ended the forks go on. -/
theorem Orderly.finish_of_ended (h : s.Orderly) (rounds : Nat) {x : Outcome α}
    (hx : (forking s.world.Pending).Alike P s.world x x) {v : World} (hv : x.state? = some v) :
    s.Follows (Session.finish rounds s x).2 := by
  unfold Session.finish
  cases x with
  | value a w => cases hx with | value hw lead _ => exact (h.settledFrom lead hw.holds).1
  | error e w => cases hx with | error hw lead => exact (h.settledFrom lead hw.holds).1
  | panic m w => cases hx with | panic hw lead => exact (h.settledFrom lead hw.holds).1
  | exhausted => cases hv
  | waiting on w resume => cases hv

theorem Orderly.finish (h : s.Orderly) (rounds : Nat) {x : Outcome α}
    (hx : ∀ {pending : ForkId → Prop}, (∀ fork, pending fork → s.world.Pending fork) →
      (forking pending).Alike P s.world x x) : s.Follows (Session.finish rounds s x).2 := by
  induction rounds generalizing s x with
  | zero =>
    cases x with
    | waiting on w resume => exact .refl h
    | exhausted => exact .refl h
    | _ => exact h.finish_of_ended 0 (hx fun _ hfork => hfork) rfl
  | succ rounds ih =>
    cases x with
    | waiting on w resume =>
      obtain ⟨next, goes⟩ := h.resumesHost hx
      have resumed := ih next.1 fun {pending} hpending =>
        goes hpending ⟨next.1.settled, hpending⟩ (.refl _)
      unfold Session.finish
      dsimp only
      split
      · exact next.trans resumed
      · cases nextDeadline? (settleAll { s with world := w }) on with
        | none => exact next.trans resumed
        | some now =>
          refine next.trans (ih next.1 fun {pending} hpending => ?_)
          have still : Awaits pending (settleAll { s with world := w }).world := ⟨next.1.settled, hpending⟩
          obtain ⟨awaits, passed⟩ := still.aside
            (v := { (settleAll { s with world := w }).world with now }) rfl rfl
          exact .waiting (.refl awaits) passed fun {v _} hv later => by
            have alone : _ = v := hv.alone trivial
            rw [alone]
            exact goes hpending hv.holds (passed.trans later)
    | exhausted => exact .refl h
    | _ => exact h.finish_of_ended _ (hx fun _ hfork => hfork) rfl

end

theorem Orderly.run {α : Type} {act : Eval α} (hact : ∀ pending, (forking pending).Keeps act)
    (h : s.Orderly) : s.Follows (s.run act).2 :=
  h.finish maxRounds fun {pending} hpending =>
    (hact pending).run (Discipline.admits_ofBudget (Discipline.hosts_forking pending) _ _)
      (.refl ⟨h.settled, hpending⟩)

theorem Orderly.step (h : s.Orderly) (step : Step) : s.Follows (s.step step).2 := by
  have next : s.Follows (s.run step.run).2 := h.run fun pending =>
    Discipline.keeps_runStep (Discipline.hosts_forking pending) step (.inl trivial) (.inl trivial)
  unfold Session.step
  generalize s.run step.run = x at next ⊢
  obtain ⟨result, s'⟩ := x
  cases result <;> exact next

theorem Orderly.after (h : s.Orderly) (steps : List Step) : s.Follows (s.after steps) := by
  induction steps generalizing s with
  | nil => exact .refl h
  | cons step steps ih => exact (h.step step).trans (ih (h.step step).1)

/-- All sessions deal with their forks in order. -/
theorem Reachable.orderly (h : s.Reachable) : s.Orderly := by
  obtain ⟨config, globals, source, steps, rfl⟩ := h
  have empty : Orderly { world := { config, learner := { expiry := config.predictionExpiry } } } :=
    { settled := fun _ _ h => nomatch h
      started := fun _ => rfl
      published := fun h => nomatch h
      waits := fun h => nomatch h
      once := .nil
      resumes := fun h => nomatch h }
  have prepared (pending : ForkId → Prop) : (forking pending).Keeps (prepare globals source) :=
    keeps_prepare (Discipline.hosts_forking pending) (fun _ _ => .inl trivial) source
  exact ((empty.run prepared).1.after steps).1

end Session

end Reactor
