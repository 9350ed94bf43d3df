import Reactor.Proofs.Variables.Conduct

/-!
# Accepted values

A value that is stored in a variable with a constraint has been accepted by its condition, with the new
value as the parameter `it` and the one before it as the parameter `previous`
(`Accepted.of_storable`). A computation that ends well is made of parts that do (`Ends.bind_ok`); what is
shown here is read off the parts of `ScopeId.storable` in turn.
-/

namespace Reactor

/-- The condition of a constraint gives a verdict. A deferred one is computed in a scope of its own,
below that of the variable, in which `it` is the new value and `previous` the one before it. -/
inductive Judged (T : Terms) (ctx : Context) (scope : ScopeId) (c : Constraint)
    (it previous : Value) : Value → World → Prop
  | given {u : World} (h : c.predicate.lambda? = none) :
    Judged T ctx scope c it previous c.predicate u
  | computed {lambda : LambdaId} {child : ScopeId} {held : List Place} {u v : World}
    {verdict : Value} (h : c.predicate.lambda? = some lambda)
    (hparent : (u.scopeAt child).parent = some scope)
    (hit : Entries.get? (u.scopeAt child).parameters "it" = some it)
    (hprevious : Entries.get? (u.scopeAt child).parameters "previous" = some previous)
    (hrun : Ends T (Eval.holding held (lambda.applyIn child) ctx u) (.ok verdict) v) :
    Judged T ctx scope c it previous verdict (v.modifyScope child ScopeRecord.ended)

/-- The condition of a constraint said yes to a value, given the one before it. -/
def Accepted (T : Terms) (ctx : Context) (scope : ScopeId) (c : Constraint) (it previous : Value) :
    Prop :=
  ∃ (held : List Place) (verdict : Value) (u v : World),
    Judged T { ctx with thread := { ctx.thread with held } } scope c it previous verdict u ∧
      Ends T (verdict.isTrue { ctx with thread := { ctx.thread with held } } u) (.ok true) v

/-- The value is stored with the fingerprint of a constraint and with marks. -/
def StoredAs (c : Constraint) (it stored : Value) : Prop :=
  ∃ marked n, it.constrain c.source = .ok marked ∧ stored = (marked.markFrom n).1

/-! ## Parts of a computation that ends -/

namespace Ends

variable {α β : Type} {T : Terms} {w : World}

/-- The first part fails, or the second one goes on from where the first one ends. -/
theorem bind_cases {x : Outcome α} {f : α → World → Outcome β} {result : Except Error β}
    (h : Ends T (x.bind f) result w) :
    (∃ e, result = .error e ∧ Ends T x (.error e) w) ∨
      ∃ a u, Ends T x (.ok a) u ∧ Ends T (f a u) result w := by
  induction x with
  | value a u => exact .inr ⟨a, u, .value, h⟩
  | error e u =>
    cases h
    exact .inl ⟨e, rfl, .error⟩
  | panic message u => cases h
  | exhausted => cases h
  | waiting on u resume ih =>
    cases h with
    | waiting hc h' =>
      rcases ih _ h' with ⟨e, he, hx⟩ | ⟨a, v, hx, hf⟩
      · exact .inl ⟨e, he, .waiting hc hx⟩
      · exact .inr ⟨a, v, .waiting hc hx, hf⟩

theorem bind_ok {x : Outcome α} {f : α → World → Outcome β} {b : β}
    (h : Ends T (x.bind f) (.ok b) w) :
    ∃ a u, Ends T x (.ok a) u ∧ Ends T (f a u) (.ok b) w := by
  rcases h.bind_cases with ⟨e, he, -⟩ | found
  · cases he
  · exact found

theorem andThen_ok {act : Eval α} {f : α → Eval β} {ctx : Context} {u : World} {b : β}
    (h : Ends T ((act >>= f) ctx u) (.ok b) w) :
    ∃ a v, Ends T (act ctx u) (.ok a) v ∧ Ends T (f a ctx v) (.ok b) w := by
  rw [Eval.bind_apply] at h
  exact h.bind_ok

theorem attempt_ok {x : Outcome α} {result : Except Error α} (h : Ends T x.attempt (.ok result) w) :
    Ends T x result w := by
  induction x with
  | value a u =>
    cases h
    exact .value
  | error e u =>
    cases h
    exact .error
  | panic message u => cases h
  | exhausted => cases h
  | waiting on u resume ih =>
    cases h with
    | waiting hc h' => exact .waiting hc (ih _ h')

/-- A computation that has its value at once. -/
theorem eq_of_value {a b : α} {u : World} (h : Ends T (.value a u) (.ok b) w) : b = a ∧ w = u := by
  cases h
  exact ⟨rfl, rfl⟩

end Ends

namespace ScopeId

variable {T : Terms} {ctx : Context} {u v : World} {scope : ScopeId}

/-- A scope that has just been made is below the other one. -/
theorem child_ok {pure : Bool} {name : String} {child : ScopeId}
    (h : Ends T (scope.child pure name ctx u) (.ok child) v) :
    (v.scopeAt child).parent = some scope := by
  unfold ScopeId.child ScopeId.record at h
  obtain ⟨_, _, alive, h₁⟩ := h.andThen_ok
  rcases checkAlive_cases scope ctx u with ⟨e, run⟩ | ⟨-, run⟩
  · rw [run] at alive
    cases alive
  · rw [run] at alive
    obtain ⟨-, rfl⟩ := alive.eq_of_value
    obtain ⟨_, _, record, h₂⟩ := h₁.andThen_ok
    obtain ⟨rfl, rfl⟩ := record.eq_of_value
    split at h₂
    · obtain ⟨_, _, _, h₃⟩ := h₂.andThen_ok
      cases h₃
    · obtain ⟨rfl, rfl⟩ := h₂.eq_of_value
      rw [World.scopeAt, World.getD_push, if_pos rfl]

/-- A parameter that has been bound is found, and so are the others. -/
theorem bind_ok {key : String} {value result : Value}
    (h : Ends T (scope.bind key value ctx u) (.ok result) v) :
    (v.scopeAt scope).parent = (u.scopeAt scope).parent ∧
      (v.scopeAt scope).parameters = Entries.insert (u.scopeAt scope).parameters key value := by
  unfold ScopeId.bind ScopeId.record at h
  obtain ⟨_, _, halive, h₁⟩ := h.andThen_ok
  rcases checkAlive_cases scope ctx u with ⟨e, run⟩ | ⟨alive, run⟩
  · rw [run] at halive
    cases halive
  · rw [run] at halive
    obtain ⟨-, rfl⟩ := halive.eq_of_value
    have hscope := World.lt_of_alive alive
    obtain ⟨_, _, mark, h₂⟩ := h₁.andThen_ok
    obtain ⟨-, rfl⟩ := mark.eq_of_value
    obtain ⟨_, _, record, h₃⟩ := h₂.andThen_ok
    obtain ⟨rfl, rfl⟩ := record.eq_of_value
    split at h₃
    · obtain ⟨_, _, _, h₄⟩ := h₃.andThen_ok
      cases h₄
    · obtain ⟨_, _, bound, h₄⟩ := h₃.andThen_ok
      obtain ⟨-, rfl⟩ := bound.eq_of_value
      obtain ⟨-, rfl⟩ := h₄.eq_of_value
      dsimp only
      rw [World.scopeAt_modifyScope, if_pos ⟨rfl, (Array.size_modify ..).symm ▸ hscope⟩,
        World.scopeAt_modifyScope, if_pos ⟨rfl, hscope⟩]
      exact ⟨rfl, rfl⟩

/-- What a condition says has been computed with the parameters `it` and `previous`. -/
theorem judged_of_verdict {name : String} {c : Constraint} {it previous verdict : Value}
    (h : Ends T (scope.verdict name c it previous ctx u) (.ok verdict) v) :
    Judged T ctx scope c it previous verdict v := by
  unfold ScopeId.verdict at h
  cases hl : c.predicate.lambda? with
  | none =>
    rw [hl] at h
    obtain ⟨rfl, rfl⟩ := h.eq_of_value
    exact .given hl
  | some lambda =>
    rw [hl] at h
    dsimp only at h
    obtain ⟨_, _, record, h₁⟩ := h.andThen_ok
    obtain ⟨rfl, rfl⟩ := record.eq_of_value
    obtain ⟨child, _, made, h₂⟩ := h₁.andThen_ok
    obtain ⟨_, _, bound, h₃⟩ := h₂.andThen_ok
    obtain ⟨_, w, bound', h₄⟩ := h₃.andThen_ok
    obtain ⟨outcome, w', computed, h₅⟩ := h₄.andThen_ok
    obtain ⟨_, _, ended, h₆⟩ := h₅.andThen_ok
    obtain ⟨-, rfl⟩ := ended.eq_of_value
    have parent := child_ok made
    obtain ⟨parent', parameters⟩ := bind_ok bound
    obtain ⟨parent'', parameters'⟩ := bind_ok bound'
    cases outcome with
    | error e => cases h₆
    | ok result =>
      obtain ⟨rfl, rfl⟩ := h₆.eq_of_value
      refine .computed hl (parent''.trans (parent'.trans parent)) ?_ ?_ computed.attempt_ok
      · rw [parameters', parameters, Entries.get?_insert, if_neg (by decide), Entries.get?_insert,
          if_pos rfl]
      · rw [parameters', Entries.get?_insert, if_pos rfl]

end ScopeId

theorem storedAs_of_ok {T : Terms} {ctx : Context} {u v : World} {c : Constraint} {it stored : Value}
    (h : Ends T ((do (← Eval.ofExcept (it.constrain c.source)).share) ctx u) (.ok stored) v) :
    StoredAs c it stored := by
  obtain ⟨marked, w, constrained, h₁⟩ := h.andThen_ok
  cases hc : it.constrain c.source with
  | error e =>
    rw [hc] at constrained
    cases constrained
  | ok found =>
    rw [hc] at constrained
    obtain ⟨rfl, rfl⟩ := constrained.eq_of_value
    rw [Value.share_apply] at h₁
    exact ⟨marked, _, hc, h₁.eq_of_value.1⟩

/-- What is stored under a constraint has been accepted by its condition. -/
theorem accepted_of_storable {T : Terms} {ctx : Context} {u v : World} {scope : ScopeId}
    {name : String} {value stored : Value} {flags : VariableFlags} {c : Constraint}
    {previous : World → Value}
    (h : Ends T (scope.storable name value flags (some c) previous ctx u) (.ok stored) v) :
    ∃ it w, Ends T (ScopeId.prepare name value flags ctx u) (.ok it) w ∧
      Accepted T ctx scope c it (previous w) ∧ StoredAs c it stored := by
  unfold ScopeId.storable at h
  obtain ⟨it, w, prepared, h₁⟩ := h.andThen_ok
  refine ⟨it, w, prepared, ?_⟩
  unfold ScopeId.constrain at h₁
  dsimp only at h₁
  obtain ⟨_, _, before, h₂⟩ := h₁.andThen_ok
  obtain ⟨rfl, rfl⟩ := before.eq_of_value
  obtain ⟨_, _, checked, h₃⟩ := h₂.andThen_ok
  refine ⟨?_, storedAs_of_ok h₃⟩
  unfold ScopeId.checkConstraint at checked
  rw [Eval.holding_apply] at checked
  obtain ⟨verdict, x, judged, h₄⟩ := checked.andThen_ok
  obtain ⟨answer, y, asked, h₅⟩ := h₄.andThen_ok
  cases answer with
  | true => exact ⟨_, verdict, x, y, ScopeId.judged_of_verdict judged, asked⟩
  | false =>
    obtain ⟨_, _, _, h₆⟩ := h₅.andThen_ok
    cases h₆

theorem accepted_of_propose {T : Terms} {ctx : Context} {w w' : World} {scope : ScopeId}
    {name : String} {value : Value} {declaration : Declaration} {proposal : ScopeId.Proposal}
    (h : Ends T (scope.propose name value declaration ctx w) (.ok proposal) w') {c : Constraint}
    (hc : proposal.record.constraint = some c) :
    ∃ it, Accepted T ctx scope c it (w.valueUnder scope name) ∧
      StoredAs c it proposal.record.value := by
  rcases ScopeId.propose_cases scope name ctx w value declaration with ⟨e, run⟩ |
    ⟨flags, constraint, held, -, run⟩
  · rw [run] at h
    cases h
  · rw [run] at h
    obtain ⟨stored, v, computed, last⟩ := h.bind_ok
    obtain ⟨rfl, -⟩ := last.eq_of_value
    cases hc
    obtain ⟨it, u, -, accepted, storedAs⟩ := accepted_of_storable computed
    exact ⟨it, accepted, storedAs⟩

theorem accepted_of_proposeValue {T : Terms} {ctx : Context} {w w' : World} {scope owner : ScopeId}
    {id : VariableId} {name : String} {value stored : Value}
    (h : Ends T (scope.proposeValue owner id name value ctx w) (.ok stored) w') {c : Constraint}
    (hc : (w.variableAt id).constraint = some c) :
    ∃ it u, Ends T (Eval.holding [.variable id]
        (ScopeId.prepare name value (w.variableAt id).flags) ctx w) (.ok it) u ∧
      Accepted T ctx scope c it (u.variableAt id).value ∧ StoredAs c it stored := by
  rcases ScopeId.proposeValue_cases scope name ctx w owner id value with ⟨e, run⟩ | ⟨-, -, run⟩
  · rw [run] at h
    cases h
  · rw [run, hc] at h
    obtain ⟨it, u, prepared, accepted, storedAs⟩ := accepted_of_storable h
    exact ⟨it, u, prepared, accepted, storedAs⟩

end Reactor
