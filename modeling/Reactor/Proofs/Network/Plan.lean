import Reactor.Proofs.Network.Yields

/-!
# Networks of lambdas

A network is made of lambdas that read variables of one scope and of lambdas that compute something of
the forced values of their inputs.

* `Expr.Computes` : a script is such a computation. What it does beside forcing its inputs leaves
  variables, lambdas and registers alone (`World.Beside`), and its result is a function of what they give.
* `Expr.Observes` : a script, run as a callback, may force lambdas and assigns nothing.
* `Plan` : what each lambda of a network reads and computes, apart from any state of the engine.
* `Plan.answer` : what a lambda gives if variables have given values.
* `Context.machine` : the machine with another way to serve a lambda that is forced. The machine of the
  engine keeps results (`Context.ofBudget_eq_machine`), another one never does (`Context.uncached`).
-/

namespace Reactor

/-! ## Results -/

/-- What a computation gives, without marks. Neither it nor the result names a place. -/
structure Answers (r answer : Except Error Value) : Prop where
  same : r.map Value.unmark = answer
  plain {v : Value} (h : r = .ok v) : v.Plain

namespace Value

/-- The result of a lambda with the errors of the deferred value. -/
def overlaid (v result : Value) : Value :=
  if v.errors.isEmpty then result
  else result.rebuild (result.errors ++ v.errors) result.notes.tags

theorem unmark_overlaid (v result : Value) : (v.overlaid result).unmark = v.overlaid result.unmark := by
  obtain ⟨data, notes⟩ := result
  unfold overlaid
  split <;> rfl

theorem Plain.overlaid {v result : Value} (h : result.Plain) : (v.overlaid result).Plain := by
  obtain ⟨data, notes⟩ := result
  unfold Value.overlaid
  split
  · exact h
  · exact h

/-- A deferred value is forced by forcing its lambda. -/
theorem forced_of_lambda? {v : Value} {id : LambdaId} (h : v.lambda? = some id) :
    v.forced = Eval.force id >>= fun result => pure (v.overlaid result) := by
  unfold forced Value.overlaid
  rw [h]
  refine congrArg (Eval.force id >>= ·) ?_
  funext result
  split <;> rfl

end Value

/-- The result of a script settles what its lambda gives: an error, a plain value, or one of the inputs,
which is then forced. -/
inductive Settles (inputs : List LambdaId) (d : LambdaId → Except Error Value) :
    Except Error Value → Except Error Value → Prop
  | failed (e : Error) : Settles inputs d (.error e) (.error e)
  | plain {v : Value} (h : v.Plain) : Settles inputs d (.ok v) (.ok v.unmark)
  | deferred {v : Value} {id : LambdaId} (h : v.lambda? = some id) (hid : id ∈ inputs) :
    Settles inputs d (.ok v) ((d id).map v.overlaid)

/-! ## Scripts -/

/-- The configuration, the variables, the lambdas and the registers are the same. -/
structure World.Beside (w v : World) : Prop where
  config : v.config = w.config
  scopes : v.scopes = w.scopes
  vars : v.vars = w.vars
  lambdas : v.lambdas = w.lambdas
  registers : v.desk.registers = w.desk.registers

theorem World.Beside.refl (w : World) : w.Beside w :=
  ⟨rfl, rfl, rfl, rfl, rfl⟩

theorem World.Beside.trans {u v w : World} (h : u.Beside v) (h' : v.Beside w) : u.Beside w :=
  ⟨h'.config.trans h.config, h'.scopes.trans h.scopes, h'.vars.trans h.vars,
    h'.lambdas.trans h.lambdas, h'.registers.trans h.registers⟩

/-- The registers still hold what they held. -/
def World.Registers (w : World) (registers : Entries String Value) : Prop :=
  ∀ name v, Entries.get? registers name = some v → Entries.get? w.desk.registers name = some v

/-- Some lambdas are served: when they are forced they give certain results, and what is kept of the state
is kept. -/
structure Context.Serves (ctx : Context) (inputs : List LambdaId)
    (d : LambdaId → Except Error Value) (kept : World → Prop) : Prop where
  beside {w v : World} (hw : kept w) (h : w.Beside v) : kept v
  force {id : LambdaId} (hid : id ∈ inputs) {thread : Thread}
    (hthread : thread.depth ≤ ctx.thread.depth) {w : World} (hw : kept w) :
    (ctx.force id thread w).Yields fun r v => kept v ∧ Answers r (d id)

/-- The script computes a function of what its inputs give, whatever they give and whatever else is kept
meanwhile. It finds them in registers. -/
def Expr.Computes (e : Expr) (scope : ScopeId) (registers : Entries String Value)
    (inputs : List LambdaId) (need : Nat)
    (f : List (Except Error Value) → Except Error Value) : Prop :=
  ∀ {ctx : Context} {d : LambdaId → Except Error Value} {kept : World → Prop},
    need ≤ ctx.budget → ctx.Serves inputs d kept → (∀ w, kept w → w.Registers registers) →
    ∀ {w : World}, kept w →
      (e.eval scope none ctx w).Yields fun r v => kept v ∧ Settles inputs d r (f (inputs.map d))

/-- The script, run with a value, forces lambdas at most, and fails with permitted errors only. -/
def Expr.Observes (e : Expr) (scope : ScopeId) (registers : Entries String Value) (need : Nat)
    (permitted : Error → Prop) : Prop :=
  ∀ {ctx : Context} {kept : World → Prop}, need ≤ ctx.budget →
    (∀ {w v : World}, kept w → w.Beside v → kept v) →
    (∀ {id : LambdaId} {thread : Thread} {w : World}, thread.depth ≤ ctx.thread.depth → kept w →
      id.index < w.lambdas.size → (ctx.force id thread w).Yields fun _ v => kept v) →
    (∀ w, kept w → w.Registers registers) →
    ∀ (value : Value) {w : World}, kept w →
      (e.eval scope (some value) ctx w).Yields fun r v => kept v ∧ ∀ e, r = .error e → permitted e

/-- Registers that hold more do for a computation. -/
theorem Expr.Computes.later {e : Expr} {scope : ScopeId} {registers more : Entries String Value}
    {inputs : List LambdaId} {need : Nat} {f : List (Except Error Value) → Except Error Value}
    (h : e.Computes scope registers inputs need f)
    (hmore : ∀ name v, Entries.get? registers name = some v → Entries.get? more name = some v) :
    e.Computes scope more inputs need f :=
  fun hneed hserves hkept _ hw =>
    h hneed hserves (fun w hw name v hv => hkept w hw name v (hmore name v hv)) hw

theorem Expr.Observes.later {e : Expr} {scope : ScopeId} {registers more : Entries String Value}
    {need : Nat} {permitted : Error → Prop} (h : e.Observes scope registers need permitted)
    (hmore : ∀ name v, Entries.get? registers name = some v → Entries.get? more name = some v) :
    e.Observes scope more need permitted :=
  fun hneed hbeside hforce hkept value _ hw =>
    h hneed hbeside hforce (fun w hw name v hv => hkept w hw name v (hmore name v hv)) value hw

/-! ## Plans -/

/-- What a lambda reads and computes. -/
structure Node where
  source : Segment
  inputs : List LambdaId
  /-- The result, given what names mean and what the inputs give. -/
  compute : (String → Except Error Value) → List (Except Error Value) → Except Error Value

/-- What the lambdas of a network read and compute. -/
abbrev Plan := Nat → Node

/-- What becomes of an error that nobody handles. It is a value from then on, unless the runtime fails
fast. -/
def unhandled (failFast : Bool) (e : Error) : Except Error Value :=
  if e.kind.isRecoverable && !failFast then .ok (.failure e) else .error e

/-- What a lambda makes of a computed result. -/
def answerOf (failFast : Bool) (source : Segment) : Except Error Value → Except Error Value
  | .ok v => .ok v
  | .error e => unhandled failFast (e.addSource source)

/-- What a lambda gives. Its inputs have been made before it. -/
def Plan.answer (plan : Plan) (failFast : Bool) (means : String → Except Error Value) (k : Nat) :
    Except Error Value :=
  answerOf failFast (plan k).source ((plan k).compute means
    ((plan k).inputs.map fun id =>
      if id.index < k then plan.answer failFast means id.index else .error default))
termination_by k

namespace Plan

variable {plan : Plan} {failFast : Bool} {means : String → Except Error Value} {k : Nat}

theorem answer_eq (h : ∀ id ∈ (plan k).inputs, id.index < k) :
    plan.answer failFast means k = answerOf failFast (plan k).source
      ((plan k).compute means ((plan k).inputs.map fun id => plan.answer failFast means id.index)) := by
  rw [answer]
  have same : ((plan k).inputs.map fun id =>
      if id.index < k then plan.answer failFast means id.index else .error default) =
      (plan k).inputs.map fun id => plan.answer failFast means id.index := by
    refine List.map_congr_left fun id hid => ?_
    rw [if_pos (h id hid)]
  rw [same]

/-- Lambdas that compute the same of the same names and inputs give the same. -/
theorem answer_congr {other : Plan} {means' : String → Except Error Value} {P : Nat → Prop}
    (hplan : ∀ k, P k → other k = plan k)
    (hcompute : ∀ k, P k → ∀ ds, (plan k).compute means' ds = (plan k).compute means ds)
    (hinputs : ∀ k, P k → ∀ id ∈ (plan k).inputs, id.index < k → P id.index) (hk : P k) :
    other.answer failFast means' k = plan.answer failFast means k := by
  induction k using Nat.strongRecOn with
  | ind k ih =>
    rw [answer, answer, hplan k hk, hcompute k hk]
    have same : ((plan k).inputs.map fun id =>
        if id.index < k then other.answer failFast means' id.index else .error default) =
        (plan k).inputs.map fun id =>
          if id.index < k then plan.answer failFast means id.index else .error default := by
      refine List.map_congr_left fun id hid => ?_
      split
      · rename_i hlt
        exact ih id.index hlt (hinputs k hk id hid hlt)
      · rfl
    rw [same]

end Plan

/-! ## Machines -/

namespace Context

/-- A machine that serves forced lambdas in a certain way. -/
def machine (serve : LambdaId → Eval Value) : Nat → Thread → Context
  | 0, thread =>
    { thread
      budget := 0
      evaluate := fun _ _ _ _ _ => .exhausted
      force := fun _ _ _ => .exhausted }
  | budget + 1, thread =>
    { thread
      budget := budget + 1
      evaluate := fun e scope item thread w => e.eval scope item (machine serve budget thread) w
      force := fun lambda thread w => serve lambda (machine serve budget thread) w }

variable {serve : LambdaId → Eval Value}

@[simp] theorem thread_machine (budget : Nat) (thread : Thread) :
    (machine serve budget thread).thread = thread := by
  cases budget <;> rfl

@[simp] theorem budget_machine (budget : Nat) (thread : Thread) :
    (machine serve budget thread).budget = budget := by
  cases budget <;> rfl

/-- On another thread it is the machine of that thread. -/
theorem machine_withThread (budget : Nat) (thread other : Thread) :
    { machine serve budget thread with thread := other } = machine serve budget other := by
  cases budget <;> rfl

/-- The machine of the engine looks for kept results. -/
theorem ofBudget_eq_machine : ofBudget = machine LambdaId.force := by
  funext budget
  induction budget with
  | zero => rfl
  | succ budget ih =>
    funext thread
    rw [ofBudget, machine, ih]

/-- A machine that computes every lambda anew whenever it is forced. -/
def uncached : Nat → Thread → Context :=
  machine LambdaId.evaluate

end Context

end Reactor
