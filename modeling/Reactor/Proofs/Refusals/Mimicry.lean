import Reactor.Proofs.Handlers
import Reactor.Proofs.Histories.Changes
import Reactor.Proofs.Purity.Nested
import Reactor.Proofs.Traits.Engine

/-!
# Computations that leave no trace

`World.Untouched` says that nothing has left a trace in scopes and variables: those of the first state are there as
they were, and scopes that have been made are gone again. Unless notifications are allowed no pass has reached a
lambda, so that no callback has run. A computation that waits goes on in a state that others have changed. It has left
no trace itself if every stretch of it has left none, and if the scopes that it has made are destroyed
(`World.Traceless`).

A computation mimics another one if it does the same until it breaks off (`Outcome.Mimics`). Machines are
compared so of which one refuses to go on where the other one leaves a trace. To mimic oneself on such machines,
and to leave no trace, is a trait (`Eval.mimicking`).
-/

namespace Reactor

namespace World

/-- Scopes and variables are as they were, but it may have been noted of a scope that it has parameters. All
scopes that have been made since are destroyed. Without notifications all results have been invalidated as often
as before. -/
structure Untouched (notifying : Bool) (w v : World) : Prop where
  vars : v.vars = w.vars
  size : w.scopes.size ≤ v.scopes.size
  scope {id : ScopeId} (h : id.index < w.scopes.size) :
    v.scopeAt id = { w.scopeAt id with parameterScope := (v.scopeAt id).parameterScope }
  ended {id : ScopeId} (h : w.scopes.size ≤ id.index) : (v.scopeAt id).destroyed = true
  generation (h : notifying = false) (k : LambdaId) : (v.lambdaAt k).generation = (w.lambdaAt k).generation

theorem scopeAt_of_size_le {w : World} {id : ScopeId} (h : w.scopes.size ≤ id.index) : w.scopeAt id = default := by
  simp [scopeAt, Array.getD, Nat.not_lt.2 h]

namespace Untouched

variable {notifying : Bool} {u v w : World}

theorem ofSame (hscopes : v.scopes = w.scopes) (hvars : v.vars = w.vars)
    (hgeneration : notifying = false → ∀ k, (v.lambdaAt k).generation = (w.lambdaAt k).generation) :
    w.Untouched notifying v where
  vars := hvars
  size := by rw [hscopes]
  scope _ := by rw [scopeAt, hscopes, ← scopeAt]
  ended h := by
    rw [scopeAt_of_size_le (by rwa [hscopes])]
    rfl
  generation := hgeneration

/-- Nothing has changed in scopes, variables and lambdas. -/
theorem ofRest (hscopes : v.scopes = w.scopes) (hvars : v.vars = w.vars) (hlambdas : v.lambdas = w.lambdas) :
    w.Untouched notifying v :=
  ofSame hscopes hvars fun _ k => by rw [lambdaAt, hlambdas, ← lambdaAt]

theorem refl (w : World) : w.Untouched notifying w :=
  ofRest rfl rfl rfl

theorem trans (h : u.Untouched notifying v) (h' : v.Untouched notifying w) : u.Untouched notifying w where
  vars := h'.vars.trans h.vars
  size := Nat.le_trans h.size h'.size
  scope hlt := by rw [h'.scope (Nat.lt_of_lt_of_le hlt h.size), h.scope hlt]
  ended {id} hge := by
    by_cases hlt : id.index < v.scopes.size
    · rw [h'.scope hlt]
      exact h.ended hge
    · exact h'.ended (Nat.le_of_not_lt hlt)
  generation hcalm k := (h'.generation hcalm k).trans (h.generation hcalm k)

theorem shifts (h : w.Shifts v) : w.Untouched notifying v := by
  cases h with
  | aside h => exact ofRest h.scopes h.vars h.lambdas
  | newQueue items => exact ofRest rfl rfl rfl
  | queue id h => exact ofRest rfl rfl rfl

theorem rewired (h : w.Rewired v) (hscopes : v.scopes = w.scopes) (hvars : v.vars = w.vars) :
    w.Untouched notifying v :=
  ofSame hscopes hvars fun _ k => by rw [h.record k]

/-- It is noted that a scope has parameters. -/
theorem noteParameters (w : World) (scope : ScopeId) :
    w.Untouched notifying (w.modifyScope scope fun record => { record with parameterScope := true }) where
  vars := rfl
  size := by rw [modifyScope, Array.size_modify]
  scope {id} _ := by
    rw [scopeAt_modifyScope]
    split <;> rfl
  ended {id} hge := by
    rw [scopeAt_modifyScope, if_neg fun found => Nat.not_lt.2 hge found.2, scopeAt_of_size_le hge]
    rfl
  generation _ _ := rfl

/-- A scope has been made, and it is gone again. -/
theorem ofChild {record : ScopeRecord}
    (h : ({ w with scopes := w.scopes.push record } : World).Untouched notifying u) :
    w.Untouched notifying (u.endScope w.nextScope) where
  vars := h.vars
  size := by
    have made := h.size
    rw [Array.size_push] at made
    rw [endScope, modifyScope, Array.size_modify]
    omega
  scope {id} hlt := by
    have other : w.nextScope ≠ id := fun same => Nat.ne_of_gt hlt (congrArg ScopeId.index same)
    have there : id.index < (w.scopes.push record).size := by simpa using Nat.lt_succ_of_lt hlt
    have kept := h.scope there
    rw [scopeAt_push, if_neg (Nat.ne_of_lt hlt)] at kept
    rw [endScope, scopeAt_modifyScope, if_neg fun found => other found.1]
    exact kept
  ended {id} hge := by
    rw [endScope, scopeAt_modifyScope]
    by_cases hlast : id.index = w.scopes.size
    · -- The scope that has been made is there.
      have there : id.index < u.scopes.size := by
        have made := h.size
        rw [Array.size_push] at made
        omega
      have same : w.nextScope = id := by
        obtain ⟨i⟩ := id
        cases hlast
        rfl
      rw [if_pos ⟨same, there⟩, ScopeRecord.ended]
      split
      · assumption
      · rfl
    · rw [if_neg fun found => hlast (congrArg ScopeId.index found.1).symm]
      refine h.ended ?_
      rw [Array.size_push]
      omega
  generation := h.generation

end Untouched

/-- The first state has become the second one by what leaves no trace and by what others do while a computation waits.
A scope that has been made for a part of the computation is destroyed after that part. -/
inductive Traceless (between : World → World → Prop) (notifying : Bool) : World → World → Prop
  | untouched {w v : World} (h : w.Untouched notifying v) : Traceless between notifying w v
  | others {w v : World} (h : between w v) : Traceless between notifying w v
  | trans {u v w : World} (h : Traceless between notifying u v) (h' : Traceless between notifying v w) :
    Traceless between notifying u w
  | child {w u : World} {record : ScopeRecord}
    (h : Traceless between notifying { w with scopes := w.scopes.push record } u) :
    Traceless between notifying w (u.endScope w.nextScope)

namespace Traceless

variable {between : World → World → Prop} {notifying : Bool} {w v : World}

theorem refl (w : World) : w.Traceless between notifying w :=
  .untouched (.refl w)

/-- If others leave no trace, none is left. -/
theorem of_others (hothers : ∀ u v, between u v → u.Untouched notifying v) (h : w.Traceless between notifying v) :
    w.Untouched notifying v := by
  induction h with
  | untouched h => exact h
  | others h => exact hothers _ _ h
  | trans _ _ ih ih' => exact ih.trans ih'
  | child _ ih => exact ih.ofChild

end Traceless

end World

namespace Outcome

variable {α β : Type} {between : World → World → Prop} {notifying : Bool} {u v w : World}

/-- The first computation does what the second one does until it breaks off, if others change the state by
`between` while they wait. When it has ended it has left no trace since a certain state. -/
inductive Mimics (between : World → World → Prop) (notifying : Bool) (w : World) : Outcome α → Outcome α → Prop
  | value {a : α} {u : World} (h : w.Traceless between notifying u) :
    Mimics between notifying w (.value a u) (.value a u)
  | error {e : Error} {u : World} (h : w.Traceless between notifying u) :
    Mimics between notifying w (.error e u) (.error e u)
  | panic {message : Option String} {u : World} {y : Outcome α} : Mimics between notifying w (.panic message u) y
  | exhausted : Mimics between notifying w .exhausted .exhausted
  | waiting {on : Wait} {u : World} {f g : World → Outcome α}
    (h : ∀ v, between u v → Mimics between notifying w (f v) (g v)) :
    Mimics between notifying w (.waiting on u f) (.waiting on u g)

namespace Mimics

variable {x y : Outcome α}

theorem after (h : x.Mimics between notifying v y) (hv : w.Traceless between notifying v) :
    x.Mimics between notifying w y := by
  induction h with
  | value h => exact .value (hv.trans h)
  | error h => exact .error (hv.trans h)
  | panic => exact .panic
  | exhausted => exact .exhausted
  | waiting _ ih => exact .waiting ih

theorem bind {f g : α → World → Outcome β} (h : x.Mimics between notifying w y)
    (hf : ∀ a u, w.Traceless between notifying u → (f a u).Mimics between notifying u (g a u)) :
    (x.bind f).Mimics between notifying w (y.bind g) := by
  induction h with
  | value h => exact (hf _ _ h).after h
  | error h => exact .error h
  | panic => exact .panic
  | exhausted => exact .exhausted
  | waiting _ ih => exact .waiting ih

theorem attempt (h : x.Mimics between notifying w y) : x.attempt.Mimics between notifying w y.attempt := by
  induction h with
  | value h => exact .value h
  | error h => exact .value h
  | panic => exact .panic
  | exhausted => exact .exhausted
  | waiting _ ih => exact .waiting ih

/-- What follows an attempt, whatever has come of it, may undo what the attempt has been prepared by. -/
theorem caught {f g : Except Error α → World → Outcome β} (h : x.Mimics between notifying v y)
    (hf : ∀ result u, v.Traceless between notifying u → (f result u).Mimics between notifying w (g result u)) :
    (x.attempt.bind f).Mimics between notifying w (y.attempt.bind g) := by
  induction h with
  | value h => exact hf _ _ h
  | error h => exact hf _ _ h
  | panic => exact .panic
  | exhausted => exact .exhausted
  | waiting _ ih => exact .waiting ih

/-- Where the first computation fails it has left no trace, and the second one fails in the same way. -/
theorem reaches_error {e : Error} (h : x.Mimics between notifying w y) (hx : x.Reaches between (.error e u)) :
    w.Traceless between notifying u ∧ y.Reaches between (.error e u) := by
  induction h with
  | value h => cases hx
  | error h =>
    cases hx
    exact ⟨h, .error⟩
  | panic => cases hx
  | exhausted => cases hx
  | waiting _ ih =>
    cases hx with
    | waiting hothers hx =>
      obtain ⟨traceless, hy⟩ := ih _ hothers hx
      exact ⟨traceless, .waiting hothers hy⟩

theorem eq_error {e : Error} (h : (Outcome.error e u).Mimics between notifying w y) : y = .error e u := by
  cases h
  rfl

/-- What the second computation does the first one does, or it breaks off on the way. -/
theorem of_reaches {z : Outcome α} (h : x.Mimics between notifying w y) (hy : y.Reaches between z) :
    x.Reaches between z ∨ ∃ message u, x.Reaches between (.panic message u) := by
  induction h with
  | value h => exact .inl hy
  | error h => exact .inl hy
  | panic => exact .inr ⟨_, _, .panic⟩
  | exhausted => exact .inl hy
  | waiting _ ih =>
    cases hy with
    | waiting hothers hy =>
      rcases ih _ hothers hy with hx | ⟨message, u, hx⟩
      · exact .inl (.waiting hothers hx)
      · exact .inr ⟨message, u, .waiting hothers hx⟩

end Mimics

end Outcome

/-- What the first machine starts mimics what the second one starts. -/
structure Context.Mimics (between : World → World → Prop) (notifying : Bool) (ctx other : Context) : Prop where
  thread : other.thread = ctx.thread
  budget : other.budget = ctx.budget
  evaluate (e : Expr) (scope : ScopeId) (item : Option Value) (thread : Thread) (w : World) :
    (ctx.evaluate e scope item thread w).Mimics between notifying w (other.evaluate e scope item thread w)
  force (k : LambdaId) (thread : Thread) (w : World) :
    (ctx.force k thread w).Mimics between notifying w (other.force k thread w)

/-- The first computation mimics the second one wherever they begin. -/
def Eval.Mimics {α : Type} (between : World → World → Prop) (notifying : Bool) (act other : Eval α) : Prop :=
  ∀ ctx ctx' : Context, ctx.Mimics between notifying ctx' →
    ∀ w, (act ctx w).Mimics between notifying w (other ctx' w)

namespace Eval

variable {α β γ : Type} {between : World → World → Prop} {notifying : Bool} {act other : Eval α}

theorem mimics_pure (a : α) : (pure a : Eval α).Mimics between notifying (pure a) :=
  fun _ _ _ w => .value (.refl w)

theorem mimics_fail (e : Error) : (fail e : Eval α).Mimics between notifying (fail e) :=
  fun _ _ _ w => .error (.refl w)

theorem mimics_gets (f : World → α) : (gets f).Mimics between notifying (gets f) :=
  fun _ _ _ w => .value (.refl w)

theorem mimics_modifyGet {f : World → α × World} (h : ∀ w : World, w.Untouched notifying (f w).2) :
    (modifyGet f).Mimics between notifying (modifyGet f) :=
  fun _ _ _ w => .value (.untouched (h w))

theorem mimics_modify {f : World → World} (h : ∀ w : World, w.Untouched notifying (f w)) :
    (modify f).Mimics between notifying (modify f) :=
  fun _ _ _ w => .value (.untouched (h w))

theorem mimics_evaluate (e : Expr) (scope : ScopeId) (item : Option Value) :
    (evaluate e scope item).Mimics between notifying (evaluate e scope item) := by
  intro ctx ctx' hctx w
  rw [evaluate_apply, evaluate_apply, hctx.thread]
  exact hctx.evaluate e scope item _ w

theorem mimics_force (k : LambdaId) : (force k).Mimics between notifying (force k) := by
  intro ctx ctx' hctx w
  rw [force_apply, force_apply, hctx.thread]
  exact hctx.force k _ w

namespace Mimics

theorem bind {f g : α → Eval β} (h : act.Mimics between notifying other)
    (hf : ∀ a, (f a).Mimics between notifying (g a)) : (act >>= f).Mimics between notifying (other >>= g) := by
  intro ctx ctx' hctx w
  rw [bind_apply, bind_apply]
  exact (h ctx ctx' hctx w).bind fun a u _ => hf a ctx ctx' hctx u

theorem andReturn (h : act.Mimics between notifying other) (f : α → β) :
    (act >>= fun a => pure (f a)).Mimics between notifying (other >>= fun a => pure (f a)) :=
  h.bind fun _ => mimics_pure _

theorem attempt (h : act.Mimics between notifying other) : act.attempt.Mimics between notifying other.attempt :=
  fun ctx ctx' hctx w => (h ctx ctx' hctx w).attempt

/-- The thread is another one. -/
theorem onThread (h : act.Mimics between notifying other) {ctx ctx' : Context}
    (hctx : ctx.Mimics between notifying ctx') {thread thread' : Thread} (hthread : thread' = thread) (w : World) :
    (act { ctx with thread } w).Mimics between notifying w (other { ctx' with thread := thread' } w) :=
  h { ctx with thread } { ctx' with thread := thread' } ⟨hthread, hctx.budget, hctx.evaluate, hctx.force⟩ w

theorem holding (h : act.Mimics between notifying other) (places : List Place) :
    (Eval.holding places act).Mimics between notifying (Eval.holding places other) :=
  fun ctx ctx' hctx w => h.onThread hctx (by rw [hctx.thread]) w

theorem nested (h : act.Mimics between notifying other) :
    (Eval.nested act).Mimics between notifying (Eval.nested other) := by
  intro ctx ctx' hctx w
  unfold Eval.nested
  rw [hctx.thread]
  split
  · exact .error (.refl w)
  · exact h.onThread hctx rfl w

theorem ite {c : Prop} [Decidable c] {act' other' : Eval α} (h : act.Mimics between notifying other)
    (h' : act'.Mimics between notifying other') :
    (if c then act else act').Mimics between notifying (if c then other else other') := by
  split
  · exact h
  · exact h'

end Mimics

theorem mimics_inTurn {work : α → γ → Eval α} (h : ∀ a item, (work a item).Mimics between notifying (work a item))
    (named : α → List Place) (places : γ → List Place) (first : α) (items : List γ) :
    (inTurn named places work first items).Mimics between notifying (inTurn named places work first items) := by
  induction items generalizing first with
  | nil => exact mimics_pure first
  | cons item items ih =>
    rw [inTurn_cons]
    exact ((h first item).holding _).bind ih

/-- Subscribers are told by scripts that the machines evaluate. -/
theorem mimics_publish (id : QueueId) (value : Value) :
    (Queue.publish id value).Mimics between notifying (Queue.publish id value) := by
  refine (mimics_gets _).bind fun subscribers =>
    (mimics_inTurn (fun failure c => ?_) _ _ _ _).bind fun failure => ?_
  · refine (mimics_evaluate _ _ _).attempt.bind fun result => ?_
    cases result <;> exact mimics_pure _
  · cases failure with
    | none => exact mimics_pure ()
    | some e => exact mimics_fail e

theorem mimics_wait (on : Wait) : (wait on).Mimics between notifying (wait on) := by
  intro ctx ctx' hctx w
  rw [wait_apply, wait_apply, hctx.thread]
  refine .waiting fun v hv => .value ?_
  have parked : w.Untouched notifying (w.park ctx.thread.id ctx.thread.held) := .ofRest rfl rfl rfl
  exact (World.Traceless.untouched parked).trans ((World.Traceless.others hv).trans (.untouched (.ofRest rfl rfl rfl)))

variable (between notifying) in
/-- A computation does the same on both machines and leaves no trace, until it breaks off on the first one. -/
def mimicking : Trait where
  Has act := act.Mimics between notifying act
  has_pure := mimics_pure
  has_fail := mimics_fail
  has_panic _ _ _ _ _ := .panic
  has_exhausted _ _ _ _ := .exhausted
  has_bind h hf := h.bind hf
  has_attempt h := h.attempt
  has_holding h := h.holding
  has_onNewThread h pooled :=
    (mimics_modifyGet fun _ => .ofRest rfl rfl rfl).bind fun _ _ _ hctx w => h.onThread hctx (by rw [hctx.thread]) w
  has_thread _ _ hctx w := by
    rw [thread_apply, thread_apply, hctx.thread]
    exact .value (.refl w)
  has_budget _ _ hctx w := by
    rw [budget_apply, budget_apply, hctx.budget]
    exact .value (.refl w)
  has_gets _ := mimics_gets _
  has_world _ h ctx ctx' hctx w := h w ctx ctx' hctx w
  has_modifyGet _ h := mimics_modifyGet fun w => .shifts (h w)
  has_wait := mimics_wait
  has_force := mimics_force
  has_publish := mimics_publish

end Eval

end Reactor
