import Reactor.Proofs.Discipline.Engine
import Reactor.Proofs.Variables.Changes

/-!
# What a write would store

A declaration fails at once or goes on to compute what the variable is to hold (`propose_cases`), and
so does an assignment (`proposeValue_cases`). What is computed in the end suits the options of the
variable and has the fingerprint of its constraint (`Discipline.alike_storable`), whatever the
initialiser and the condition do meanwhile, as long as they keep to the terms.
-/

namespace Reactor

/-- The value suits the options of a variable. -/
structure Value.Suits (flags : VariableFlags) (v : Value) (w : World) : Prop where
  numeric (h : flags.numeric = true) : v.isLambda = true ∨ v.tag.isNumeric = true
  fixed (h : flags.fixed = true) : v.unfixed w = false

namespace Value

variable {flags : VariableFlags} {v v' : Value} {u w : World}

theorem Suits.later (h : v.Suits flags u) (hw : KeepsFixed u w) : v.Suits flags w :=
  ⟨h.numeric, fun hf => unfixed_of_keepsFixed hw v (h.fixed hf)⟩

/-- Errors, tags and marks of the value itself do not matter. -/
theorem Suits.ofData (h : v.Suits flags w) (hdata : v'.data = v.data) : v'.Suits flags w := by
  refine ⟨fun hn => ?_, fun hf => ?_⟩
  · have := h.numeric hn
    unfold isLambda lambda? tag at this ⊢
    rw [hdata]
    exact this
  · rw [unfixed_eq, hdata, ← unfixed_eq]
    exact h.fixed hf

theorem tag_markFrom (n : Nat) (v : Value) : (markFrom n v).1.tag = v.tag := by
  obtain ⟨data, notes⟩ := v
  unfold markFrom
  split
  · rfl
  · cases data <;> rfl

theorem tag?_markFrom (n : Nat) (v : Value) (key : String) :
    (markFrom n v).1.tag? key = v.tag? key := by
  obtain ⟨data, notes⟩ := v
  unfold markFrom
  split <;> rfl

theorem Suits.markFrom (h : v.Suits flags w) (n : Nat) : (v.markFrom n).1.Suits flags w := by
  refine ⟨fun hn => ?_, fun hf => (unfixed_markFrom n v).trans (h.fixed hf)⟩
  unfold isLambda
  rw [Discipline.lambda?_markFrom, tag_markFrom]
  exact h.numeric hn

/-- A constraint leaves its fingerprint and nothing else. -/
theorem constrain_eq_ok {source : String} (h : v.constrain source = .ok v') :
    v'.data = v.data ∧ v'.tag? constraintTag = some (Digest.short source) := by
  have tagged (text : String) : (v.withTag constraintTag text).tag? constraintTag = some text := by
    show Entries.get? (Entries.insert _ _ _) _ = _
    rw [Entries.get?_insert, if_pos rfl]
  unfold constrain at h
  cases hold : v.tag? constraintTag with
  | none =>
    rw [hold] at h
    cases h
    exact ⟨rfl, tagged _⟩
  | some old =>
    rw [hold] at h
    dsimp only at h
    split at h
    · cases h
      exact ⟨rfl, tagged _⟩
    · cases h

end Value

namespace World

/-- The value of the variable that a scope itself declares under a name. -/
def valueUnder (w : World) (scope : ScopeId) (name : String) : Value :=
  ((w.own? scope name).map fun id => (w.variableAt id).value).getD .void

/-- What has been checked when a declaration goes on: the scope and the variable that is to be
replaced permit it, with these options and this constraint. -/
structure Declares (w : World) (scope : ScopeId) (name : String) (flags : VariableFlags)
    (constraint : Option Constraint) : Prop where
  alive : (w.scopeAt scope).destroyed = false
  pure (h : (w.scopeAt scope).pure = true) : flags.pure = true ∧ flags.volatile = false
  writable {id : VariableId} (h : w.own? scope name = some id) :
    (w.variableAt id).flags.readonly = false
  constraint {id : VariableId} (h : w.own? scope name = some id) {c : Constraint}
    (hc : (w.variableAt id).constraint = some c) :
    ∃ c', constraint = some c' ∧ c'.source = c.source

end World

namespace ScopeId

variable (scope : ScopeId) (name : String) (ctx : Context) (w : World)

theorem checkThread_cases (record : VariableRecord) :
    (∃ e, checkThread name record ctx w = .error e w) ∨
      ((record.flags.volatile = true ∨ record.thread = ctx.thread.id) ∧
        checkThread name record ctx w = .value () w) := by
  unfold checkThread
  rw [Eval.bind_apply, Eval.thread_apply, Outcome.bind_value]
  by_cases h : (!record.flags.volatile && record.thread ≠ ctx.thread.id) = true
  · rw [if_pos h]
    exact .inl ⟨_, rfl⟩
  · rw [if_neg h]
    refine .inr ⟨?_, rfl⟩
    simp only [Bool.and_eq_true, Bool.not_eq_true', decide_eq_true_eq, not_and, Decidable.not_not] at h
    cases hv : record.flags.volatile with
    | true => exact .inl rfl
    | false => exact .inr (h hv)

theorem declaredFlags_cases (flags : VariableFlags) :
    (∃ e, scope.declaredFlags name flags ctx w = .error e w) ∨
      ∃ flags', ((w.scopeAt scope).pure = true → flags'.pure = true ∧ flags'.volatile = false) ∧
        scope.declaredFlags name flags ctx w = .value flags' w := by
  unfold declaredFlags record
  rw [Eval.bind_apply, Eval.gets_apply, Outcome.bind_value]
  cases hp : (w.scopeAt scope).pure with
  | false => exact .inr ⟨flags, nofun, rfl⟩
  | true =>
    cases hv : flags.volatile with
    | true => exact .inl ⟨_, rfl⟩
    | false =>
      exact .inr ⟨{ flags with volatile := false, pure := true }, fun _ => ⟨rfl, rfl⟩, rfl⟩

theorem checkReach_cases (owner : ScopeId) :
    (∃ e, checkReach scope owner name ctx w = .error e w) ∨
      checkReach scope owner name ctx w = .value () w := by
  unfold checkReach
  rw [Eval.bind_apply, Eval.world_apply, Outcome.bind_value]
  cases ((w.ancestors scope).takeWhile (· ≠ owner)).find? fun scope => (w.scopeAt scope).pure with
  | some _ => exact .inl ⟨_, rfl⟩
  | none => exact .inr rfl

/-- A constraint stays, with the same source. -/
theorem keepConstraint_eq_ok {old : Constraint} {new result : Option Constraint}
    (h : keepConstraint name (some old) new = .ok result) :
    ∃ c, result = some c ∧ c.source = old.source := by
  cases new with
  | none =>
    cases h
    exact ⟨old, rfl, rfl⟩
  | some new =>
    simp only [keepConstraint] at h
    split at h
    · rename_i same
      cases h
      exact ⟨new, rfl, same.symm⟩
    · cases h

/-- The last part of a declaration computes the value and takes down who declares it. -/
theorem proposal_apply (held : List Place) (value : Value) (flags : VariableFlags)
    (constraint : Option Constraint) (previous : World → Value) :
    Eval.holding held (do
      let value ← scope.storable name value flags constraint previous
      let thread := (← Eval.thread).id
      return ({ record := { value, flags, constraint, thread }, held } : Proposal)) ctx w =
    (Eval.holding held (scope.storable name value flags constraint previous) ctx w).bind
      fun value v => .value ⟨{ value, flags, constraint, thread := ctx.thread.id }, held⟩ v := by
  rw [Eval.holding_apply, Eval.bind_apply, Eval.holding_apply]
  rfl

/-- A declaration fails at once, or it goes on to compute what the variable is to hold. -/
theorem propose_cases (value : Value) (declaration : Declaration) :
    (∃ e, scope.propose name value declaration ctx w = .error e w) ∨
      ∃ flags constraint held, w.Declares scope name flags constraint ∧
        scope.propose name value declaration ctx w =
          (Eval.holding held (scope.storable name value flags constraint fun _ =>
            w.valueUnder scope name) ctx w).bind fun value v =>
              .value ⟨{ value, flags, constraint, thread := ctx.thread.id }, held⟩ v := by
  unfold propose
  rw [Eval.bind_apply]
  rcases checkAlive_cases scope ctx w with ⟨e, alive⟩ | ⟨alive, run⟩
  · rw [alive]
    exact .inl ⟨e, rfl⟩
  rw [run, Outcome.bind_value]
  cases isPositional name with
  | true => exact .inl ⟨_, rfl⟩
  | false =>
    rw [if_neg nofun, Eval.bind_apply]
    rcases declaredFlags_cases scope name ctx w declaration.flags with ⟨e, run⟩ | ⟨flags, pure, run⟩
    · rw [run]
      exact .inl ⟨e, rfl⟩
    rw [run, Outcome.bind_value, Eval.bind_apply, Eval.gets_apply, Outcome.bind_value, Eval.bind_apply]
    cases hid : w.own? scope name with
    | none =>
      have hget : Entries.get? (w.scopeAt scope).vars name = none := hid
      have hvalue : w.valueUnder scope name = .void := by rw [World.valueUnder, hid]; rfl
      rw [hget, hvalue]
      have none {id : VariableId} (h : w.own? scope name = some id) : False := by
        rw [hid] at h
        cases h
      exact .inr ⟨flags, declaration.constraint, _,
        ⟨alive, pure, fun h => (none h).elim, fun h => (none h).elim⟩, proposal_apply ..⟩
    | some id =>
      have hget : Entries.get? (w.scopeAt scope).vars name = some id := hid
      have hvalue : w.valueUnder scope name = (w.variableAt id).value := by
        rw [World.valueUnder, hid]
        rfl
      rw [hget, hvalue, Option.map_some]
      dsimp only
      cases hr : (w.variableAt id).flags.readonly with
      | true => exact .inl ⟨_, rfl⟩
      | false =>
        rw [if_neg nofun, Eval.bind_apply]
        rcases checkThread_cases name ctx w (w.variableAt id) with ⟨e, run⟩ | ⟨-, run⟩
        · rw [run]
          exact .inl ⟨e, rfl⟩
        rw [run, Outcome.bind_value]
        cases hk : keepConstraint name (w.variableAt id).constraint declaration.constraint with
        | error e => exact .inl ⟨e, rfl⟩
        | ok constraint =>
          have same {other : VariableId} (h : w.own? scope name = some other) : other = id := by
            rw [hid] at h
            cases h
            rfl
          refine .inr ⟨flags, constraint, _, ⟨alive, pure, fun h => ?_, fun h c hc => ?_⟩,
            proposal_apply ..⟩
          · rw [same h]
            exact hr
          · rw [same h] at hc
            rw [hc] at hk
            exact keepConstraint_eq_ok name hk

/-- An assignment fails at once, or it goes on to compute what the variable is to hold. -/
theorem proposeValue_cases (owner : ScopeId) (id : VariableId) (value : Value) :
    (∃ e, scope.proposeValue owner id name value ctx w = .error e w) ∨
      ((w.variableAt id).flags.readonly = false ∧
        ((w.variableAt id).flags.volatile = true ∨ (w.variableAt id).thread = ctx.thread.id) ∧
        scope.proposeValue owner id name value ctx w =
          Eval.holding [.variable id] (scope.storable name value (w.variableAt id).flags
            (w.variableAt id).constraint fun w => (w.variableAt id).value) ctx w) := by
  unfold proposeValue
  rw [Eval.bind_apply]
  rcases checkReach_cases scope name ctx w owner with ⟨e, reach⟩ | reach
  · rw [reach]
    exact .inl ⟨e, rfl⟩
  · rw [reach, Outcome.bind_value, Eval.bind_apply, Eval.gets_apply, Outcome.bind_value]
    cases hr : (w.variableAt id).flags.readonly with
    | true => exact .inl ⟨_, rfl⟩
    | false =>
      rw [if_neg nofun, Eval.bind_apply]
      rcases checkThread_cases name ctx w (w.variableAt id) with ⟨e, thread⟩ | ⟨owner, thread⟩
      · rw [thread]
        exact .inl ⟨e, rfl⟩
      · rw [thread]
        exact .inr ⟨rfl, owner, rfl⟩

end ScopeId

namespace Discipline

variable {D : Discipline} (hD : ∀ {u w : World}, D.leads u w → Value.KeepsFixed u w)

/-- The value suits the options of a variable and has the fingerprint of its constraint. -/
structure Storable (flags : VariableFlags) (constraint : Option Constraint) (v : Value) (w : World) :
    Prop where
  suits : v.Suits flags w
  marked {c : Constraint} (h : constraint = some c) :
    v.tag? Value.constraintTag = some (Digest.short c.source)

/-- A shared value is the value with marks. -/
theorem gives_marked (v : Value) :
    D.Gives (fun a _ => ∃ n, a = (v.markFrom n).1) v.share := by
  have same : v.share = Eval.modifyGet fun w =>
      ((v.markFrom w.marks).1, { w with marks := (v.markFrom w.marks).2 }) := by
    funext ctx w
    exact v.share_apply ctx w
  rw [same]
  refine gives_modifyGet (fun _ _ => rfl) (fun w hw => ?_) fun w _ => ⟨w.marks, rfl⟩
  exact D.aside ⟨⟨rfl, rfl, rfl, rfl⟩, rfl, rfl⟩ hw

include hD

/-- A prepared value suits the options. -/
theorem alike_prepare {ctx : Context} (hctx : D.Admits ctx) (hbudget : ctx.budget < Value.maxDepth)
    {w v : World} (h : D.Rel w v) (name : String) (value : Value) (flags : VariableFlags) :
    D.Alike (Value.Suits flags) w (ScopeId.prepare name value flags ctx w)
      (ScopeId.prepare name value flags ctx v) := by
  have checked {value : Value} {ctx : Context} (hctx : D.Admits ctx) {w v : World} (h : D.Rel w v)
      (hfixed : flags.fixed = true → value.unfixed w = false) :
      D.Alike (Value.Suits flags) w
        ((if flags.numeric && !value.isLambda && !value.tag.isNumeric then
          Eval.fail (.new .invalidCast
            ("Variable '" ++ name ++ "' is numeric and cannot hold " ++ value.tag.name))
        else value.share) ctx w)
        ((if flags.numeric && !value.isLambda && !value.tag.isNumeric then
          Eval.fail (.new .invalidCast
            ("Variable '" ++ name ++ "' is numeric and cannot hold " ++ value.tag.name))
        else value.share) ctx v) := by
    by_cases hn : (flags.numeric && !value.isLambda && !value.tag.isNumeric) = true
    · rw [if_pos hn]
      exact .error h (D.refl w)
    · rw [if_neg hn]
      have suits : value.Suits flags w := by
        refine ⟨fun hnumeric => ?_, hfixed⟩
        rw [hnumeric] at hn
        cases hl : value.isLambda with
        | true => exact .inl rfl
        | false =>
          rw [hl] at hn
          simpa using hn
      refine ((gives_marked value).run hctx h).monoFrom fun a w' _ lead ⟨n, ha⟩ => ?_
      rw [ha]
      exact (suits.later (hD lead)).markFrom n
  unfold ScopeId.prepare
  cases hf : flags.fixed with
  | false => exact checked hctx h fun hfixed => absurd (hf.symm.trans hfixed) nofun
  | true =>
    have fixed : D.Alike Fixed w (Eval.holding value.places (value.fixDeep false) ctx w)
        (Eval.holding value.places (value.fixDeep false) ctx v) :=
      alike_fixDeep hD (hctx.withThread _) (by exact hbudget) h value false
    rw [if_pos rfl, Eval.bind_apply, Eval.bind_apply]
    exact fixed.bind fun value w v h hv => checked hctx h fun _ => hv

theorem alike_constrain {ctx : Context} (hctx : D.Admits ctx) {w v : World} (h : D.Rel w v)
    (scope : ScopeId) (name : String) {flags : VariableFlags} (constraint : Option Constraint)
    {value : Value} (hvalue : value.Suits flags w) {previous : World → Value}
    (hprevious : ∀ w l, previous (w.withLearner l) = previous w) :
    D.Alike (Storable flags constraint) w (scope.constrain name constraint value previous ctx w)
      (scope.constrain name constraint value previous ctx v) := by
  cases constraint with
  | none => exact .value h (D.refl w) ⟨hvalue, nofun⟩
  | some c =>
    unfold ScopeId.constrain
    dsimp only
    rw [Eval.bind_apply, Eval.bind_apply]
    refine ((keeps_gets hprevious).run hctx h).bindFrom fun before w₁ v₁ h₁ lead₁ _ => ?_
    rw [Eval.bind_apply, Eval.bind_apply]
    refine ((keeps_checkConstraint scope name c value before).run hctx h₁).bindFrom
      fun _ w₂ v₂ h₂ lead₂ _ => ?_
    cases hc : value.constrain c.source with
    | error e => exact .error h₂ (D.refl w₂)
    | ok marked =>
      obtain ⟨hdata, htag⟩ := Value.constrain_eq_ok hc
      have suits := (hvalue.later (hD (D.trans lead₁ lead₂))).ofData hdata
      refine ((gives_marked marked).run hctx h₂).monoFrom fun a w₃ _ lead₃ ⟨n, ha⟩ => ?_
      rw [ha]
      refine ⟨(suits.later (hD lead₃)).markFrom n, ?_⟩
      rintro _ ⟨⟩
      exact (Value.tag?_markFrom n marked _).trans htag

/-- What is computed to be stored suits the options and has the fingerprint of the constraint. -/
theorem alike_storable {ctx : Context} (hctx : D.Admits ctx) (hbudget : ctx.budget < Value.maxDepth)
    {w v : World} (h : D.Rel w v) (scope : ScopeId) (name : String) (value : Value)
    (flags : VariableFlags) (constraint : Option Constraint) {previous : World → Value}
    (hprevious : ∀ w l, previous (w.withLearner l) = previous w) :
    D.Alike (Storable flags constraint) w
      (scope.storable name value flags constraint previous ctx w)
      (scope.storable name value flags constraint previous ctx v) := by
  unfold ScopeId.storable
  rw [Eval.bind_apply, Eval.bind_apply]
  refine (alike_prepare hD hctx hbudget h name value flags).bind fun value w v h hvalue => ?_
  exact alike_constrain hD hctx h scope name constraint hvalue hprevious

end Discipline

end Reactor
