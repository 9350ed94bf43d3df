import Reactor.Engine.Machine
import Reactor.Proofs.Handlers

/-!
# Lambdas that are forced inside one another

A force computes its lambda unless the lambda has a result already or the thread is computing it
(`LambdaRecord.Opens`). It is then a computation between two changes of the record of the lambda
(`LambdaId.force_of_opens`): the lambda is marked as being computed, and what became of it is settled. A
force that does not keep results makes neither change.

`Outcome.ComesTo` says that a computation comes to another one, with whose value it goes on. If the inner
one fails or breaks off, so does the outer one. `ForceStack` says that the computation of a lambda comes to a
force of another lambda, the computation of that one to a force of a third, and so on, down to a
computation that ends in a given way. The forces that are open then are its levels, outermost first.
-/

namespace Reactor

open Outcome (Reaches)

variable {α β γ : Type} {between : World → World → Prop}

namespace Outcome

/-- One computation comes to another: it waits until then, and goes on with the value of the other. -/
inductive ComesTo (between : World → World → Prop) : Outcome α → Outcome β → Prop
  | now {x : Outcome β} (f : β → World → Outcome α) : ComesTo between (x.bind f) x
  | later {on : Wait} {u v : World} {resume : World → Outcome α} {x : Outcome β} (h : between u v)
    (h' : ComesTo between (resume v) x) : ComesTo between (.waiting on u resume) x

theorem ComesTo.refl (x : Outcome α) : x.ComesTo between x := by
  have same : (x.bind value).ComesTo between x := .now value
  rwa [bind_pure] at same

theorem ComesTo.bind {x : Outcome α} {y : Outcome β} (h : x.ComesTo between y)
    (f : α → World → Outcome γ) : (x.bind f).ComesTo between y := by
  induction h with
  | now g =>
    rw [bind_assoc]
    exact .now _
  | later h _ ih => exact .later h ih

/-- The outer computation fails as the inner one does. -/
theorem ComesTo.reaches_error {x : Outcome α} {y : Outcome β} {e : Error} {u : World}
    (h : x.ComesTo between y) (hy : y.Reaches between (.error e u)) : x.Reaches between (.error e u) := by
  induction h with
  | now f => exact reaches_bind_iff.2 ⟨_, hy, .error⟩
  | later h _ ih => exact .waiting h (ih hy)

/-- The outer computation breaks off as the inner one does. -/
theorem ComesTo.reaches_panic {x : Outcome α} {y : Outcome β} {message : Option String} {u : World}
    (h : x.ComesTo between y) (hy : y.Reaches between (.panic message u)) :
    x.Reaches between (.panic message u) := by
  induction h with
  | now f => exact reaches_bind_iff.2 ⟨_, hy, .panic⟩
  | later h _ ih => exact .waiting h (ih hy)

/-- An attempt whose outcome is passed on in any case is the computation itself. -/
theorem attempt_bind_ofExcept (x : Outcome α) (ctx : Context) :
    (x.attempt.bind fun outcome u => Eval.ofExcept outcome ctx u) = x := by
  induction x with
  | waiting on u resume ih => simp only [attempt, bind, ih]
  | _ => rfl

end Outcome

/-! ## Forces that compute -/

namespace LambdaRecord

/-- A force by a thread computes the lambda. -/
def Opens (thread : ThreadId) (record : LambdaRecord) : Prop :=
  record.fixable = true →
    record.cache = .empty ∨ ∃ owner, owner ≠ thread ∧ record.cache = .computing owner

/-- A force that computes the lambda keeps the result. -/
def keeps (record : LambdaRecord) : Bool :=
  record.fixable && record.cache matches .empty

theorem cache_of_keeps {record : LambdaRecord} (h : record.keeps = true) : record.cache = .empty := by
  unfold keeps at h
  cases hc : record.cache with
  | empty => rfl
  | computing owner => simp [hc] at h
  | holding v => simp [hc] at h

end LambdaRecord

namespace World

/-- A force has begun to compute a lambda. -/
def opened (w : World) (thread : ThreadId) (k : LambdaId) : World :=
  if (w.lambdaAt k).keeps then
    w.modifyLambda k fun record => { record with cache := .computing thread }
  else w

/-- A force that began in one state ends in another one. -/
def closed (w : World) (thread : ThreadId) (k : LambdaId) (outcome : Except Error Value) (u : World) :
    World :=
  if (w.lambdaAt k).keeps then
    u.modifyLambda k (LambdaId.settle thread (w.lambdaAt k).generation outcome)
  else u

variable {w u : World} {thread : ThreadId} {k : LambdaId} {outcome : Except Error Value}

@[simp] theorem scopes_opened : (w.opened thread k).scopes = w.scopes := by
  unfold opened
  split <;> rfl

@[simp] theorem config_opened : (w.opened thread k).config = w.config := by
  unfold opened
  split <;> rfl

@[simp] theorem reports_opened : (w.opened thread k).reports = w.reports := by
  unfold opened
  split <;> rfl

@[simp] theorem desk_opened : (w.opened thread k).desk = w.desk := by
  unfold opened
  split <;> rfl

@[simp] theorem scopes_closed : (w.closed thread k outcome u).scopes = u.scopes := by
  unfold closed
  split <;> rfl

@[simp] theorem config_closed : (w.closed thread k outcome u).config = u.config := by
  unfold closed
  split <;> rfl

@[simp] theorem reports_closed : (w.closed thread k outcome u).reports = u.reports := by
  unfold closed
  split <;> rfl

/-- To begin to compute a lambda changes nothing in its record but the cache. -/
theorem lambdaAt_opened (w : World) (thread : ThreadId) (k : LambdaId) :
    ∃ cache, (w.opened thread k).lambdaAt k = { w.lambdaAt k with cache } := by
  unfold opened
  split
  · rw [lambdaAt_modifyLambda]
    split <;> exact ⟨_, rfl⟩
  · exact ⟨_, rfl⟩

theorem lambdaAt_opened_of_ne {j : LambdaId} (h : j ≠ k) :
    (w.opened thread k).lambdaAt j = w.lambdaAt j := by
  unfold opened
  split
  · rw [lambdaAt_modifyLambda, if_neg fun hk => h hk.1.symm]
  · rfl

theorem lambdaAt_closed_of_ne {j : LambdaId} (h : j ≠ k) :
    (w.closed thread k outcome u).lambdaAt j = u.lambdaAt j := by
  unfold closed
  split
  · rw [lambdaAt_modifyLambda, if_neg fun hk => h hk.1.symm]
  · rfl

@[simp] theorem body_lambdaAt_opened : ((w.opened thread k).lambdaAt k).body = (w.lambdaAt k).body := by
  obtain ⟨cache, h⟩ := lambdaAt_opened w thread k
  rw [h]

@[simp] theorem scope_lambdaAt_opened : ((w.opened thread k).lambdaAt k).scope = (w.lambdaAt k).scope := by
  obtain ⟨cache, h⟩ := lambdaAt_opened w thread k
  rw [h]

@[simp] theorem source_lambdaAt_opened :
    ((w.opened thread k).lambdaAt k).source = (w.lambdaAt k).source := by
  obtain ⟨cache, h⟩ := lambdaAt_opened w thread k
  rw [h]

end World

namespace LambdaId

variable {ctx : Context} {w u v : World} {k : LambdaId} {e f : Error} {message : Option String}

/-- A force that computes a lambda is its evaluation between two changes of its record. -/
theorem force_of_opens (h : (w.lambdaAt k).Opens ctx.thread.id) :
    k.force ctx w = (k.evaluate ctx (w.opened ctx.thread.id k)).attempt.bind fun outcome u =>
      Eval.ofExcept outcome ctx (w.closed ctx.thread.id k outcome u) := by
  unfold force record World.opened World.closed LambdaRecord.keeps
  rw [Eval.bind_apply, Eval.gets_apply, Outcome.bind_value]
  cases hfix : (w.lambdaAt k).fixable with
  | false => exact (Outcome.attempt_bind_ofExcept _ _).symm
  | true =>
    rcases h hfix with hc | ⟨owner, hne, hc⟩
    · simp [hc]
    · simp [hc, hne, Outcome.attempt_bind_ofExcept]

/-- A lambda that keeps a result gives that. -/
theorem force_of_holding {x : Value} (hfix : (w.lambdaAt k).fixable = true)
    (hc : (w.lambdaAt k).cache = .holding x) (ctx : Context) : k.force ctx w = .value x w := by
  unfold force record
  rw [Eval.bind_apply, Eval.gets_apply, Outcome.bind_value, hfix, hc]
  rfl

/-- The failure of an evaluation goes to the handlers, and what these make of it is its outcome. -/
theorem reaches_evaluate_of_error {y : Outcome Value}
    (hrun : (k.run (w.lambdaAt k).scope ctx w).Reaches between (.error e u))
    (hy : ((w.lambdaAt k).scope.handleError (e.addSource (w.lambdaAt k).source) ctx u).Reaches between y) :
    (k.evaluate ctx w).Reaches between y := by
  unfold evaluate record
  rw [Eval.bind_apply, Eval.gets_apply, Outcome.bind_value, Eval.bind_apply, Eval.attempt_apply]
  exact Outcome.reaches_bind_iff.2 ⟨_, Outcome.reaches_attempt_iff.2 ⟨_, hrun, rfl⟩, hy⟩

/-- Nobody is offered that a computation broke off. -/
theorem reaches_evaluate_of_panic
    (hrun : (k.run (w.lambdaAt k).scope ctx w).Reaches between (.panic message u)) :
    (k.evaluate ctx w).Reaches between (.panic message u) := by
  unfold evaluate record
  rw [Eval.bind_apply, Eval.gets_apply, Outcome.bind_value, Eval.bind_apply, Eval.attempt_apply]
  exact Outcome.reaches_bind_iff.2 ⟨_, Outcome.reaches_attempt_iff.2 ⟨_, hrun, rfl⟩, .panic⟩

/-- A force whose evaluation fails settles that and fails with it. -/
theorem reaches_force_of_error (h : (w.lambdaAt k).Opens ctx.thread.id)
    (he : (k.evaluate ctx (w.opened ctx.thread.id k)).Reaches between (.error e u)) :
    (k.force ctx w).Reaches between (.error e (w.closed ctx.thread.id k (.error e) u)) := by
  rw [force_of_opens h]
  exact Outcome.reaches_bind_iff.2 ⟨_, Outcome.reaches_attempt_iff.2 ⟨_, he, rfl⟩, .error⟩

/-- A force whose evaluation breaks off settles nothing. -/
theorem reaches_force_of_panic (h : (w.lambdaAt k).Opens ctx.thread.id)
    (he : (k.evaluate ctx (w.opened ctx.thread.id k)).Reaches between (.panic message u)) :
    (k.force ctx w).Reaches between (.panic message u) := by
  rw [force_of_opens h]
  exact Outcome.reaches_bind_iff.2 ⟨_, Outcome.reaches_attempt_iff.2 ⟨_, he, rfl⟩, .panic⟩

/-- A force whose computation fails ends with what the handlers make of that. -/
theorem reaches_force_of_run_error (h : (w.lambdaAt k).Opens ctx.thread.id)
    (hrun : (k.run (w.lambdaAt k).scope ctx (w.opened ctx.thread.id k)).Reaches between (.error e u))
    (hhandle : (w.lambdaAt k).scope.handleError (e.addSource (w.lambdaAt k).source) ctx u =
      .error f v) :
    (k.force ctx w).Reaches between (.error f (w.closed ctx.thread.id k (.error f) v)) := by
  refine reaches_force_of_error h (reaches_evaluate_of_error (by simpa using hrun) ?_)
  rw [World.scope_lambdaAt_opened, World.source_lambdaAt_opened, hhandle]
  exact .error

end LambdaId

/-! ## Scripts that force and fail -/

section Scripts

variable {w : World} {k inner : LambdaId} {scope : ScopeId} {thread : Thread} {name : String}

theorem Context.thread_ofBudget (budget : Nat) (thread : Thread) : (ofBudget budget thread).thread = thread := by
  cases budget <;> rfl

/-- A lambda whose script fails fails. -/
theorem LambdaId.run_of_fail {e : Error} (body : (w.lambdaAt k).body = .script (.fail e))
    (hdepth : thread.depth < w.config.maxDepth) (budget : Nat) :
    k.run scope (Context.ofBudget (budget + 1) thread) w = .error e w := by
  rw [run, Eval.nested_of_lt _ hdepth]
  simp [compute, record, body, Context.ofBudget, Expr.eval, Expr.reply]

/-- A lambda whose script breaks off breaks off. -/
theorem LambdaId.run_of_panic {message : Option String}
    (body : (w.lambdaAt k).body = .script (.panic message))
    (hdepth : thread.depth < w.config.maxDepth) (budget : Nat) :
    k.run scope (Context.ofBudget (budget + 1) thread) w = .panic message w := by
  rw [run, Eval.nested_of_lt _ hdepth]
  simp [compute, record, body, Context.ofBudget, Expr.eval, Expr.reply]

/-- What is held in a register is marked when it is read. -/
theorem Expr.evalAll_register (scope : ScopeId)
    (held : Entries.get? w.desk.registers name = some (.lambda inner)) (ctx : Context) :
    evalAll scope none [.register name] ctx w =
      .value [(Value.markFrom w.marks (.lambda inner)).1]
        { w with marks := (Value.markFrom w.marks (.lambda inner)).2 } := by
  simp only [evalAll, reply, Eval.bind_apply, Eval.gets_apply, Outcome.bind_value, held,
    Eval.pure_apply]
  show ((Value.lambda inner).share ctx w).bind _ = _
  rw [Value.share_apply]
  rfl

/-- To force a deferred value is to force its lambda. -/
theorem Operation.comesTo_forced {v : Value} (hv : v.lambda? = some inner) (ctx : Context)
    (apply : Value → Eval Value) :
    (perform forced apply [v] ctx w).ComesTo between (ctx.force inner ctx.thread w) := by
  have forces : (v.forced ctx w).ComesTo between (ctx.force inner ctx.thread w) := by
    unfold Value.forced
    rw [hv]
    dsimp only
    rw [Eval.bind_apply]
    exact (Outcome.ComesTo.refl _).bind _
  unfold perform performOn
  dsimp only
  rw [Eval.bind_apply]
  exact forces.bind _

/-- A script that forces what a register holds comes to that force. -/
theorem Expr.comesTo_eval_of_forced (between : World → World → Prop) (thread : Thread) (scope : ScopeId)
    (held : Entries.get? w.desk.registers name = some (.lambda inner)) (budget : Nat) :
    ∃ (later : Thread) (marks : Nat), later.id = thread.id ∧ later.depth = thread.depth ∧
      (Expr.eval (.call .forced [.register name] none) scope none (.ofBudget (budget + 1) thread)
        w).ComesTo between (inner.force (.ofBudget budget later) { w with marks }) := by
  refine ⟨{ thread with held := itemsPlaces [(Value.markFrom w.marks (.lambda inner)).1] ++ thread.held },
    (Value.markFrom w.marks (.lambda inner)).2, rfl, rfl, ?_⟩
  unfold Expr.eval Expr.reply
  rw [Eval.bind_apply, Eval.bind_apply, Expr.evalAll_register scope held, Outcome.bind_value,
    Eval.holding_apply]
  exact (Operation.comesTo_forced (Discipline.lambda?_markFrom _ _) _ _).bind _

/-- A lambda whose script forces what a register holds comes to the force of that lambda, one level
deeper. -/
theorem LambdaId.comesTo_run_of_forced (between : World → World → Prop) (scope : ScopeId)
    (body : (w.lambdaAt k).body = .script (.call .forced [.register name] none))
    (held : Entries.get? w.desk.registers name = some (.lambda inner))
    (hdepth : thread.depth < w.config.maxDepth) (budget : Nat) :
    ∃ (later : Thread) (marks : Nat), later.id = thread.id ∧ later.depth = thread.depth + 1 ∧
      (k.run scope (Context.ofBudget (budget + 2) thread) w).ComesTo between
        (inner.force (Context.ofBudget budget later) { w with marks }) := by
  obtain ⟨later, marks, hid, hlater, comes⟩ := Expr.comesTo_eval_of_forced between
    { thread with depth := thread.depth + 1 } scope held budget
  refine ⟨later, marks, hid, hlater, ?_⟩
  rw [run, Eval.nested_of_lt _ (by rwa [Context.thread_ofBudget]), compute, record]
  simp only [Eval.bind_apply, Eval.gets_apply, Outcome.bind_value, body, Eval.evaluate_apply]
  exact comes.bind _

end Scripts

/-! ## Nests of forces -/

/-- A force that is open: its lambda, with the scope and the source that failures pass. -/
structure Level where
  lambda : LambdaId
  scope : ScopeId
  source : Segment

/-- The level of a force. -/
def World.level (w : World) (k : LambdaId) : Level :=
  ⟨k, (w.lambdaAt k).scope, (w.lambdaAt k).source⟩

/-- A force computes its lambda, the computation of which comes to the force of another one, and so on,
down to a computation that ends in a given way. -/
inductive ForceStack (between : World → World → Prop) (y : Outcome Value) :
    LambdaId → Context → World → List Level → Prop
  | innermost {k : LambdaId} {ctx : Context} {w : World} (opens : (w.lambdaAt k).Opens ctx.thread.id)
    (run : (k.run (w.lambdaAt k).scope ctx (w.opened ctx.thread.id k)).Reaches between y) :
    ForceStack between y k ctx w [w.level k]
  | within {k inner : LambdaId} {ctx ctx' : Context} {w w' : World} {levels : List Level}
    (opens : (w.lambdaAt k).Opens ctx.thread.id)
    (comes : (k.run (w.lambdaAt k).scope ctx (w.opened ctx.thread.id k)).ComesTo between
      (inner.force ctx' w'))
    (rest : ForceStack between y inner ctx' w' levels) :
    ForceStack between y k ctx w (w.level k :: levels)

end Reactor
