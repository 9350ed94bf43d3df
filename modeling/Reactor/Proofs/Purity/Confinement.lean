import Reactor.Engine.Machine
import Reactor.Proofs.Purity.Operations
import Reactor.Proofs.Purity.Reachable

/-!
# Pure scopes are confined

Below a pure scope there are only pure ones, in every state that a session can reach. What is computed
with calls on a pure scope, and on scopes that are made below it, changes nothing outside, and it gives
the same in all states that look alike from there (`pure_scopes_confine`).
-/

namespace Reactor

theorem pure_scopes_confine :
    (∀ s : Session, s.Reachable → s.world.Nested ∧
      ∀ top scope, top ∈ s.world.ancestors scope → (s.world.scopeAt top).pure = true →
        (s.world.scopeAt scope).pure = true) ∧
    ∀ (w v : World) (top : ScopeId) (own : Expr → Prop), w.Nested →
      (w.enclosure top own).Secluded w → (w.enclosure top own).LooksAlike w v →
      (∀ scope, top ∈ v.ancestors scope → ∀ entry ∈ (v.scopeAt scope).listeners, entry.2 = []) →
      (∀ e, own e → ∀ scope,
        Eval.Uses own (w.enclosure top own).bodies [scope] Value.Plain (e.eval scope none)) →
      ∀ (α : Type) (R : α → Prop) (act : Eval α),
        Eval.Uses own (w.enclosure top own).bodies [top] R act →
        ∀ (budget : Nat) (thread : Thread),
          (act (.ofBudget budget thread) w).Paired
            (fun r w' v' => (w.enclosure top own).Changes w w' ∧ (w.enclosure top own).Changes v v' ∧
              (w.enclosure top own).LooksAlike w' v' ∧ ∀ a, r = .ok a → R a)
            (act (.ofBudget budget thread) v) := by
  refine ⟨fun s hs => ?_, fun w v top own hw hsecluded halike hquiet hown α R act hact budget
    thread => ?_⟩
  · exact ⟨hs.nested, fun top scope hscope hpure => hs.nested.pure_of_mem_ancestors hscope hpure⟩
  · have holds := Enclosure.Holds.enclosure hw hsecluded
    have twins : (w.enclosure top own).Twins w v :=
      ⟨holds, halike.holds holds fun {scope} => hquiet scope, halike⟩
    have tied := Enclosure.tied_of_uses hact
      (Enclosure.confines_ofBudget hown budget thread) twins
      (List.forall_mem_singleton.2 (w.mem_ancestors_self top))
    exact Outcome.Paired.mono tied fun r w' v' h => ⟨h.1.left, h.1.right, h.1.twins.alike, h.2⟩

/-! ## A pure scope below one with a variable -/

/-- An outer scope declares `x`. Below it there is a pure scope, and a condition that asks for `it`. -/
def World.withPureScope (x : Value) : World where
  scopes := #[
    { name := "outer", parent := none, source := default, pure := false, vars := [("x", ⟨0⟩)] },
    { name := "inner", parent := some ⟨0⟩, source := default, pure := true }]
  vars := #[{ value := x, flags := {}, constraint := none, thread := default }]
  lambdas := #[
    { operation := "condition", source := default, scope := ⟨1⟩, inputs := []
      body := .script (.lookup "it" true), fixable := true }]

namespace World

variable (x : Value)

theorem scopeAt_withPureScope (scope : ScopeId) :
    (withPureScope x).scopeAt scope =
      if scope = ⟨0⟩ then
        { name := "outer", parent := none, source := default, pure := false, vars := [("x", ⟨0⟩)] }
      else if scope = ⟨1⟩ then
        { name := "inner", parent := some ⟨0⟩, source := default, pure := true }
      else default := by
  obtain ⟨_ | _ | n⟩ := scope
  · rfl
  · rfl
  · rw [scopeAt_of_le (by simp [withPureScope]), if_neg (by simp), if_neg (by simp)]

theorem of_mem_vars_withPureScope {scope : ScopeId} {entry : String × VariableId}
    (h : entry ∈ ((withPureScope x).scopeAt scope).vars) : scope = ⟨0⟩ ∧ entry = ("x", ⟨0⟩) := by
  rw [scopeAt_withPureScope] at h
  split at h
  · exact ⟨‹_›, List.mem_singleton.1 h⟩
  · split at h <;> cases h

theorem of_parent_withPureScope {scope above : ScopeId}
    (h : ((withPureScope x).scopeAt scope).parent = some above) : scope = ⟨1⟩ ∧ above = ⟨0⟩ := by
  rw [scopeAt_withPureScope] at h
  split at h
  · cases h
  · split at h
    · cases h
      exact ⟨‹_›, rfl⟩
    · cases h

theorem quiet_withPureScope (scope : ScopeId) :
    ((withPureScope x).scopeAt scope).listeners = [] ∧
      ((withPureScope x).scopeAt scope).parameters = [] := by
  rw [scopeAt_withPureScope]
  split
  · exact ⟨rfl, rfl⟩
  · split <;> exact ⟨rfl, rfl⟩

theorem nested_withPureScope : (withPureScope x).Nested where
  parent_lt h := by
    obtain ⟨rfl, rfl⟩ := of_parent_withPureScope x h
    exact Nat.zero_lt_one
  pure h _ := by
    obtain ⟨rfl, rfl⟩ := of_parent_withPureScope x h
    rfl
  bound h := by
    cases (of_mem_vars_withPureScope x h).2
    exact Nat.zero_lt_one
  named h h' := by
    cases (of_mem_vars_withPureScope x h).2
    cases (of_mem_vars_withPureScope x h').2
    rfl

/-- The pure scope declares nothing yet. -/
theorem index_of_inside {id : VariableId}
    (h : ((withPureScope x).enclosure ⟨1⟩ (· = .lookup "it" true)).inside id) : 1 ≤ id.index := by
  rcases h with ⟨scope, name, hscope, hentry⟩ | h
  · obtain ⟨rfl, -⟩ := of_mem_vars_withPureScope x hentry
    exact absurd ((nested_withPureScope x).index_le hscope) (Nat.not_succ_le_zero 0)
  · exact h

theorem variableAt_withPureScope {id : VariableId} (h : 1 ≤ id.index) :
    (withPureScope x).variableAt id = default := by
  have hsize : (withPureScope x).vars.size = 1 := rfl
  simp [variableAt, Array.getD, hsize, Nat.not_lt.2 h]

theorem secluded_withPureScope :
    ((withPureScope x).enclosure ⟨1⟩ (· = .lookup "it" true)).Secluded (withPureScope x) where
  pure := rfl
  quiet _ entry hentry := by
    rw [(quiet_withPureScope x _).1] at hentry
    cases hentry
  kept h := by
    rw [variableAt_withPureScope x (index_of_inside x h)]
    rfl
  readable _ entry hentry hread := by
    obtain ⟨-, rfl⟩ := of_mem_vars_withPureScope x hentry
    cases hread
  parameter _ entry hentry := by
    rw [(quiet_withPureScope x _).2] at hentry
    cases hentry
  condition h c hc := by
    rw [variableAt_withPureScope x (index_of_inside x h)] at hc
    cases hc

/-- The value of the outer variable is all that differs, and it cannot be read. -/
theorem looksAlike_withPureScope (y : Value) :
    ((withPureScope x).enclosure ⟨1⟩ (· = .lookup "it" true)).LooksAlike (withPureScope x)
      (withPureScope y) := by
  have unreadable (x : Value) (id : VariableId) :
      ((withPureScope x).variableAt id).isPureReadable = false := by
    obtain ⟨_ | n⟩ := id
    · rfl
    · rw [variableAt_withPureScope x (Nat.succ_pos n)]
      rfl
  refine ⟨rfl, rfl, rfl, rfl, fun _ => rfl, fun id => ?_, fun h => ?_, fun id => ?_, fun {id} h => ?_⟩
  · rw [scopeAt_withPureScope, scopeAt_withPureScope]
  · have later := index_of_inside x h
    rw [variableAt_withPureScope x later, variableAt_withPureScope y later]
  · rw [unreadable, unreadable]
  · rw [unreadable] at h
    cases h

end World

/-- The condition looks a name up in the scope that it is applied in, and does nothing else. -/
theorem uses_lookup (own : Expr → Prop) (bodies : LambdaId → Body) (scope : ScopeId) (name : String)
    (must : Bool) :
    Eval.Uses own bodies [scope] Value.Plain ((Expr.lookup name must).eval scope none) := by
  have same : (Expr.lookup name must).eval scope none =
      (Call.get name must).run scope >>= fun v => v.share := by
    unfold Expr.eval Expr.reply Reply.toValue Call.run
    simp [Reply.asValue]
  rw [same]
  exact .bind (.call List.mem_cons_self trivial) fun v hv => .share hv

/-- What a declaration under a condition does in the pure scope does not depend on `x`. -/
theorem pure_scope_declares_under_condition :
    (ScopeId.declare ⟨1⟩ "y" (.boolean true)
        { constraint := some { predicate := .lambda ⟨0⟩, source := "it" } }
        (.ofBudget 9 { id := 0 }) (.withPureScope (.integer 1))).Paired
      (fun r w v => w.variableAt ⟨0⟩ = (World.withPureScope (.integer 1)).variableAt ⟨0⟩ ∧
        v.variableAt ⟨0⟩ = (World.withPureScope (.integer 2)).variableAt ⟨0⟩ ∧
        ∀ a, r = .ok a → a.Plain)
      (ScopeId.declare ⟨1⟩ "y" (.boolean true)
        { constraint := some { predicate := .lambda ⟨0⟩, source := "it" } }
        (.ofBudget 9 { id := 0 }) (.withPureScope (.integer 2))) := by
  have outside : ¬((World.withPureScope (.integer 1)).enclosure ⟨1⟩ (· = .lookup "it" true)).inside
      ⟨0⟩ := fun h => absurd (World.index_of_inside _ h) (by decide)
  have confined := pure_scopes_confine.2 (.withPureScope (.integer 1)) (.withPureScope (.integer 2))
    ⟨1⟩ (· = .lookup "it" true) (World.nested_withPureScope _) (World.secluded_withPureScope _)
    (World.looksAlike_withPureScope _ _)
    (fun scope _ entry hentry => by
      rw [(World.quiet_withPureScope _ scope).1] at hentry
      cases hentry)
    (fun e he scope => by
      cases he
      exact uses_lookup _ _ scope "it" true)
    Value Value.Plain _
    (.call (c := .declare "y" (.boolean true)
      { constraint := some { predicate := .lambda ⟨0⟩, source := "it" } }) List.mem_cons_self
      ⟨rfl, fun c hc => by cases hc; rfl⟩) 9 { id := 0 }
  exact Outcome.Paired.mono confined fun r w v h =>
    ⟨h.1.outside outside, h.2.1.outside outside, h.2.2.2⟩

end Reactor
