import Reactor.Proofs.Names.Resolution
import Reactor.Proofs.Purity.Steady
import Reactor.Proofs.Reaches
import Reactor.Proofs.Variables.Writes

/-!
# What it takes to accept a value

Before a variable is written, the new value is prepared and checked against the constraint of the
variable. If the value is plain and the condition harmless (`Constraint.Harmless`), this leaves the
scopes and the variables of the state alone (`ScopeId.keeps_of_storable`), also if it has to wait.
-/

namespace Reactor

namespace Outcome

variable {α β : Type} {between : World → World → Prop}

/-- A sequence of computations that ends with a value has gone through a value of its first part. -/
theorem reaches_bind_value {x : Outcome α} {f : α → World → Outcome β} {b : β} {w : World}
    (h : (x.bind f).Reaches between (.value b w)) :
    ∃ a u, x.Reaches between (.value a u) ∧ (f a u).Reaches between (.value b w) := by
  obtain ⟨x', hx, h⟩ := reaches_bind_iff.1 h
  cases x' with
  | value a u => exact ⟨a, u, hx, h⟩
  | waiting on u resume => exact (not_reaches_waiting hx).elim
  | _ => cases h

end Outcome

/-- On another thread the machine is that of the other thread. -/
theorem Context.ofBudget_withThread (budget : Nat) (thread other : Thread) :
    { ofBudget budget thread with thread := other } = ofBudget budget other := by
  rw [ofBudget_eq_machine]
  exact machine_withThread budget thread other

namespace Eval

variable {α β : Type} {between : World → World → Prop} {ctx : Context} {u w : World}

theorem reaches_bind_value {act : Eval α} {f : α → Eval β} {b : β}
    (h : ((act >>= f) ctx u).Reaches between (.value b w)) :
    ∃ a v, (act ctx u).Reaches between (.value a v) ∧ (f a ctx v).Reaches between (.value b w) := by
  rw [bind_apply] at h
  exact Outcome.reaches_bind_value h

/-- What is steady gives what it gives in every state. -/
theorem Steady.of_reaches {P : α → Prop} {act : Eval α} (h : Steady P act) {a : α}
    (run : (act ctx u).Reaches between (.value a w)) : P a ∧ w = u := by
  rcases h ctx with exhausted | ⟨r, hr, done⟩
  · rw [exhausted] at run
    cases run
  · rw [done] at run
    cases r with
    | error e => cases run
    | ok b =>
      cases run
      exact ⟨hr _ rfl, rfl⟩

end Eval

namespace World

variable {u v w : World}

/-- The scopes and variables of a state are there as they were. Others may have come. -/
structure Keeps (w v : World) : Prop where
  scopes : w.scopes.size ≤ v.scopes.size
  scope {scope : ScopeId} (h : scope.index < w.scopes.size) : v.scopeAt scope = w.scopeAt scope
  vars : w.vars.size ≤ v.vars.size
  record {id : VariableId} (h : id.index < w.vars.size) : v.variableAt id = w.variableAt id

namespace Keeps

theorem refl (w : World) : w.Keeps w :=
  ⟨Nat.le_refl _, fun _ => rfl, Nat.le_refl _, fun _ => rfl⟩

theorem ofSame (h : w.Keeps u) (hs : v.scopes = u.scopes) (hv : v.vars = u.vars) : w.Keeps v where
  scopes := hs ▸ h.scopes
  scope hlt := by rw [scopeAt_congr hs, h.scope hlt]
  vars := hv ▸ h.vars
  record hlt := by rw [variableAt, hv, ← variableAt, h.record hlt]

/-- Scopes that have come may change. -/
theorem modifyScope (h : w.Keeps u) {scope : ScopeId} (hscope : w.scopes.size ≤ scope.index)
    (f : ScopeRecord → ScopeRecord) : w.Keeps (u.modifyScope scope f) where
  scopes := Nat.le_trans h.scopes (by simp [World.modifyScope])
  scope {other} hlt := by
    rw [scopeAt_modifyScope, if_neg, h.scope hlt]
    rintro ⟨rfl, -⟩
    exact absurd hlt (Nat.not_lt.2 hscope)
  vars := h.vars
  record hlt := h.record hlt

theorem push (h : w.Keeps u) (record : ScopeRecord) :
    w.Keeps { u with scopes := u.scopes.push record } where
  scopes := Nat.le_trans h.scopes (by simp)
  scope {other} hlt := by
    rw [scopeAt_push, if_neg (Nat.ne_of_lt (Nat.lt_of_lt_of_le hlt h.scopes)), h.scope hlt]
  vars := h.vars
  record hlt := h.record hlt

theorem alive (h : w.Keeps u) {scope : ScopeId} (hs : (w.scopeAt scope).destroyed = false) :
    (u.scopeAt scope).destroyed = false := by
  rw [h.scope (lt_of_alive hs), hs]

end Keeps

end World

/-- A condition that is computed in a scope of its own leaves the scopes and variables of the state
alone, and its verdict is no deferred value. -/
def Constraint.Harmless (between : World → World → Prop) (w : World) (constraint : Constraint) : Prop :=
  ∀ (lambda : LambdaId) (budget : Nat) (thread : Thread) (scope : ScopeId) (u v : World)
    (verdict : Value), constraint.predicate.lambda? = some lambda → w.scopes.size ≤ scope.index →
      w.Keeps u → u.lambdas = w.lambdas →
      (lambda.applyIn scope (.ofBudget budget thread) u).Reaches between (.value verdict v) →
      w.Keeps v ∧ verdict.lambda? = none

namespace ScopeId

variable {between : World → World → Prop} {budget : Nat} {thread : Thread} {ctx : Context}
  {scope : ScopeId} {name : String} {value previous x : Value} {constraint : Constraint}
  {u v w : World}

theorem eq_of_guarded_share {refused : Prop} [Decidable refused] {e : Error}
    (h : ((if refused then Eval.fail e else value.share) ctx u).Reaches between (.value x v)) :
    v = { u with marks := v.marks } := by
  split at h
  · cases h
  · rw [Value.share_apply] at h
    cases h
    rfl

/-- To prepare a plain value takes new marks and nothing else. -/
theorem eq_of_prepare {flags : VariableFlags} (hvalue : value.Plain)
    (h : (prepare name value flags ctx u).Reaches between (.value x v)) :
    v = { u with marks := v.marks } := by
  unfold prepare at h
  cases hf : flags.fixed with
  | false =>
    rw [hf, if_neg nofun, Eval.bind_apply, Eval.pure_apply, Outcome.bind_value] at h
    exact eq_of_guarded_share h
  | true =>
    rw [hf, if_pos rfl] at h
    obtain ⟨a, u', fixed, checked⟩ := Eval.reaches_bind_value h
    obtain ⟨-, rfl⟩ := ((Value.steady_fixDeep hvalue).holding _).of_reaches fixed
    exact eq_of_guarded_share checked

/-- A value that is not deferred counts as true or not, whatever the state. -/
theorem eq_of_isTrue {b : Bool} (hv : value.lambda? = none)
    (h : (value.isTrue ctx u).Reaches between (.value b v)) : v = u := by
  have forced := Value.forced_of_lambda?_eq_none hv
  unfold Value.isTrue Value.isNeitherTrueNorFalse Value.truthy at h
  rw [forced] at h
  change ((if decide (value.tag = .error) = true then pure false else Value.truthyData value.data :
    Eval Bool) ctx u).Reaches between _ at h
  split at h
  · cases h
    rfl
  · obtain ⟨data, notes⟩ := value
    cases data <;> (cases h; rfl)

/-- The verdict of a harmless condition leaves the scopes and variables alone. -/
theorem keeps_of_verdict (hw : (w.scopeAt scope).destroyed = false) (hu : w.Keeps u)
    (hlambdas : u.lambdas = w.lambdas) (hc : constraint.Harmless between w)
    {verdict : Value}
    (h : (scope.verdict name constraint value previous (.ofBudget budget thread) u).Reaches between
      (.value verdict v)) : w.Keeps v ∧ verdict.lambda? = none := by
  unfold ScopeId.verdict at h
  cases hl : constraint.predicate.lambda? with
  | none =>
    rw [hl] at h
    cases h
    exact ⟨hu, hl⟩
  | some lambda =>
    rw [hl] at h
    dsimp only at h
    obtain ⟨_, _, run, h⟩ := Eval.reaches_bind_value h
    cases run
    rw [Eval.bind_apply, child_of_alive (hu.alive hw), Outcome.bind_value, Eval.bind_apply,
      bind_of_alive value (by rw [World.scopeAt_nextScope]) (by decide), Outcome.bind_value,
      World.modifyScope_nextScope, Eval.bind_apply,
      bind_of_alive previous (by rw [World.scopeAt_nextScope]) (by decide), Outcome.bind_value,
      World.modifyScope_nextScope] at h
    obtain ⟨result, u₁, run, h⟩ := Eval.reaches_bind_value h
    obtain ⟨y, applied, hy⟩ := Outcome.reaches_attempt_iff.1 run
    rw [Eval.bind_apply] at h
    change Outcome.Reaches _ (Outcome.bind (.value () (u₁.modifyScope u.nextScope _)) _) _ at h
    rw [Outcome.bind_value] at h
    cases y with
    | value a u₂ =>
      cases hy
      cases h
      rw [Eval.holding_apply, Context.ofBudget_withThread] at applied
      obtain ⟨kept, plain⟩ := hc lambda _ _ _ _ _ _ hl hu.scopes (hu.push _) hlambdas applied
      exact ⟨kept.modifyScope hu.scopes _, plain⟩
    | error e u₂ =>
      cases hy
      cases h
    | _ => cases hy

/-- What a harmless constraint is asked leaves the scopes and variables alone. -/
theorem keeps_of_constrain {c : Option Constraint} {before : World → Value}
    (hw : (w.scopeAt scope).destroyed = false) (hu : w.Keeps u) (hlambdas : u.lambdas = w.lambdas)
    (hc : ∀ constraint, c = some constraint → constraint.Harmless between w)
    (h : (scope.constrain name c value before (.ofBudget budget thread) u).Reaches between
      (.value x v)) : w.Keeps v := by
  unfold ScopeId.constrain at h
  cases c with
  | none =>
    cases h
    exact hu
  | some constraint =>
    obtain ⟨previous, _, run, h⟩ := Eval.reaches_bind_value h
    cases run
    obtain ⟨_, u₁, checked, h⟩ := Eval.reaches_bind_value h
    unfold checkConstraint at checked
    rw [Eval.holding_apply, Context.ofBudget_withThread] at checked
    obtain ⟨verdict, u₂, given, checked⟩ := Eval.reaches_bind_value checked
    obtain ⟨kept, plain⟩ := keeps_of_verdict hw hu hlambdas (hc constraint rfl) given
    obtain ⟨isTrue, u₃, asked, checked⟩ := Eval.reaches_bind_value checked
    obtain rfl := eq_of_isTrue plain asked
    cases isTrue with
    | false =>
      obtain ⟨_, _, _, checked⟩ := Eval.reaches_bind_value checked
      cases checked
    | true =>
      cases checked
      obtain ⟨marked, u₄, run, h⟩ := Eval.reaches_bind_value h
      rw [Value.share_apply] at h
      cases h
      cases hcon : value.constrain constraint.source with
      | error e =>
        rw [hcon] at run
        cases run
      | ok marked =>
        rw [hcon] at run
        cases run
        exact kept.ofSame rfl rfl

/-- To compute what a variable stores leaves the scopes and variables alone. -/
theorem keeps_of_storable {flags : VariableFlags} {c : Option Constraint} {before : World → Value}
    (hw : (w.scopeAt scope).destroyed = false) (hvalue : value.Plain)
    (hc : ∀ constraint, c = some constraint → constraint.Harmless between w)
    (h : (scope.storable name value flags c before (.ofBudget budget thread) w).Reaches between
      (.value x v)) : w.Keeps v := by
  unfold storable at h
  obtain ⟨prepared, u, run, h⟩ := Eval.reaches_bind_value h
  have marked := eq_of_prepare hvalue run
  have kept : w.Keeps u := (World.Keeps.refl w).ofSame (by rw [marked]) (by rw [marked])
  exact keeps_of_constrain hw kept (by rw [marked]) hc h

end ScopeId

end Reactor
