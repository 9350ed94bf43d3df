import Reactor.Proofs.Network.Plan

/-!
# What names mean

* `World.look` : what a scope gives under a name (`World.get_eq_look`), and where that comes from
  (`World.look_eq_ok`).
* `World.found` : what a lambda that reads a variable finds under its name (`World.found_eq_look`).
* `World.means` : the same without marks.
* `World.home` : the scope at which those who follow a variable are registered (`World.followers`).
* `World.Readable` : variables and parameters hold plain values, different names mean different
  variables, and no handlers stand above the scope.

All of them depend on the scopes and the variables of a state only.
-/

namespace Reactor

namespace World

variable {w v : World} {scope : ScopeId} {name : String}

/-! ## Definitions -/

/-- What a name gives, or the failure to read it. -/
def found (w : World) (scope : ScopeId) (name : String) : Except Error Value :=
  match scope.get name true (Context.ofBudget 0 default) w with
  | .value v _ => .ok v
  | .error e _ => .error e
  | _ => .error default

/-- What a name means, without marks. -/
def means (w : World) (scope : ScopeId) (name : String) : Except Error Value :=
  (w.found scope name).map Value.unmark

/-- The scope that declares a variable, or else the one from which it is looked up. -/
def home (w : World) (scope : ScopeId) (name : String) : ScopeId :=
  ((w.findVariable? scope name).map (·.1)).getD scope

/-- The lambdas that follow a variable. -/
def followers (w : World) (scope : ScopeId) (name : String) : List LambdaId :=
  (Entries.get? (w.scopeAt (w.home scope name)).listeners name).getD []

/-- What holds of the names that a scope knows. -/
structure Readable (scope : ScopeId) (w : World) : Prop where
  alive : (w.scopeAt scope).destroyed = false
  unhandled {above : ScopeId} (h : above ∈ w.ancestors scope) : (w.scopeAt above).handlers = []
  bound {name : String} {owner : ScopeId} {id : VariableId}
    (h : w.findVariable? scope name = some (owner, id)) : id.index < w.vars.size
  plain {name : String} {owner : ScopeId} {id : VariableId}
    (h : w.findVariable? scope name = some (owner, id)) : (w.variableAt id).value.Plain
  condition {name : String} {owner : ScopeId} {id : VariableId}
    (h : w.findVariable? scope name = some (owner, id)) {c : Constraint}
    (hc : (w.variableAt id).constraint = some c) : c.predicate.Plain
  distinct {name other : String} {owner owner' : ScopeId} {id : VariableId}
    (h : w.findVariable? scope name = some (owner, id))
    (h' : w.findVariable? scope other = some (owner', id)) : other = name
  parameter {key : String} {value : Value} (h : w.findParameter? scope key = some value) : value.Plain

/-! ## States with the same scopes -/

section Same

variable (h : v.scopes = w.scopes)
include h

theorem home_congr (scope : ScopeId) (name : String) : v.home scope name = w.home scope name := by
  rw [home, home, findVariable?_congr h]

theorem followers_congr (scope : ScopeId) (name : String) :
    v.followers scope name = w.followers scope name := by
  rw [followers, followers, home_congr h, scopeAt_congr h]

theorem Readable.congr (hw : w.Readable scope) (hv : v.vars = w.vars) : v.Readable scope := by
  have variableAt (id : VariableId) : v.variableAt id = w.variableAt id := by
    rw [World.variableAt, World.variableAt, hv]
  have find (name : String) := findVariable?_congr h scope name
  refine ⟨?_, fun {above} hmem => ?_, fun hf => ?_, fun hf => ?_, fun hf c hc => ?_,
    fun hf hf' => ?_, fun hp => ?_⟩
  · rw [scopeAt_congr h]
    exact hw.alive
  · rw [scopeAt_congr h]
    rw [ancestors_congr h] at hmem
    exact hw.unhandled hmem
  · rw [find] at hf
    rw [hv]
    exact hw.bound hf
  · rw [find] at hf
    rw [variableAt]
    exact hw.plain hf
  · rw [find] at hf
    rw [variableAt] at hc
    exact hw.condition hf hc
  · rw [find] at hf hf'
    exact hw.distinct hf hf'
  · rw [findParameter?_congr h] at hp
    exact hw.parameter hp

end Same

/-! ## Reading a name -/

theorem checkAlive_apply (h : (w.scopeAt scope).destroyed = false) (ctx : Context) :
    scope.checkAlive ctx w = .value () w := by
  unfold ScopeId.checkAlive ScopeId.record
  rw [Eval.bind_apply, Eval.gets_apply, Outcome.bind_value, h]
  rfl

/-- What a scope gives for a parameter. -/
def lookParameter (w : World) (scope : ScopeId) (key : String) : Except Error Value :=
  if (w.scopeAt scope).destroyed then
    .error (.assertion ("Scope " ++ w.scopeText scope ++ " has been destroyed"))
  else .ok ((w.findParameter? scope key).getD .void)

/-- A parameter is read without a change of the state. -/
theorem getParameter_eq_lookParameter (w : World) (scope : ScopeId) (key : String) (ctx : Context) :
    scope.getParameter key ctx w = .done (w.lookParameter scope key) w := by
  unfold ScopeId.getParameter lookParameter
  rw [Eval.bind_apply]
  cases hd : (w.scopeAt scope).destroyed with
  | true =>
    rw [ScopeId.checkAlive_of_destroyed hd, Outcome.bind_error, if_pos rfl]
    rfl
  | false =>
    rw [checkAlive_apply hd]
    rfl

/-- What a scope gives under a name. -/
def look (w : World) (scope : ScopeId) (name : String) (must : Bool) : Except Error Value :=
  if (w.scopeAt scope).destroyed then
    .error (.assertion ("Scope " ++ w.scopeText scope ++ " has been destroyed"))
  else if isPositional name then .ok ((w.findParameter? scope name).getD .void)
  else
    match w.findVariable? scope name with
    | some (_, id) =>
      if (w.scopeAt scope).pure && !(w.variableAt id).isPureReadable then
        .error (.new .purityViolation
          ("Pure scope " ++ w.scopeText scope ++ " cannot read variable '" ++ name ++
            "', which is neither pure nor readonly and fixed"))
      else .ok (w.variableAt id).value
    | none =>
      match w.findParameter? scope name with
      | some value => .ok value
      | none => if must then .error (.variableNotFound name (w.scopeText scope)) else .ok .void

/-- A name is read without a change of the state. -/
theorem get_eq_look (w : World) (scope : ScopeId) (name : String) (must : Bool) (ctx : Context) :
    scope.get name must ctx w = .done (w.look scope name must) w := by
  unfold ScopeId.get look
  rw [Eval.bind_apply]
  cases hd : (w.scopeAt scope).destroyed with
  | true =>
    rw [ScopeId.checkAlive_of_destroyed hd, Outcome.bind_error, if_pos rfl]
    rfl
  | false =>
    rw [checkAlive_apply hd, Outcome.bind_value]
    cases hp : isPositional name with
    | true =>
      rw [if_pos rfl, getParameter_eq_lookParameter, lookParameter, hd]
      rfl
    | false =>
      simp only [Bool.false_eq_true, if_false]
      rw [Eval.bind_apply, Eval.gets_apply, Outcome.bind_value]
      cases w.findVariable? scope name with
      | some found =>
        simp only [ScopeId.record, ScopeId.text, Eval.bind_apply, Eval.gets_apply, Outcome.bind_value]
        split <;> rfl
      | none =>
        simp only [Eval.bind_apply, Eval.gets_apply, Outcome.bind_value]
        cases w.findParameter? scope name with
        | some value => rfl
        | none => cases must <;> rfl

/-- A scope gives what it gave under a name if a variable with the same record is found, or else the same
parameter. -/
theorem look_congr (hscope : v.scopeAt scope = { w.scopeAt scope with
      vars := (v.scopeAt scope).vars
      parameters := (v.scopeAt scope).parameters
      listeners := (v.scopeAt scope).listeners
      handlers := (v.scopeAt scope).handlers })
    (hvariable : (v.findVariable? scope name).map (fun found => v.variableAt found.2) =
      (w.findVariable? scope name).map fun found => w.variableAt found.2)
    (hparameter : isPositional name = true ∨ w.findVariable? scope name = none →
      v.findParameter? scope name = w.findParameter? scope name) (must : Bool) :
    v.look scope name must = w.look scope name must := by
  have destroyed : (v.scopeAt scope).destroyed = (w.scopeAt scope).destroyed := by rw [hscope]
  have pure : (v.scopeAt scope).pure = (w.scopeAt scope).pure := by rw [hscope]
  have text : v.scopeText scope = w.scopeText scope := by rw [scopeText, scopeText, hscope]
  rw [look, look, destroyed, pure, text]
  congr 1
  cases hpositional : isPositional name with
  | true =>
    rw [hparameter (.inl hpositional)]
    rfl
  | false =>
    simp only [Bool.false_eq_true, if_false]
    cases hv : v.findVariable? scope name with
    | none =>
      cases hw : w.findVariable? scope name with
      | none => rw [hparameter (.inr hw)]
      | some found =>
        rw [hv, hw] at hvariable
        cases hvariable
    | some found =>
      cases hw : w.findVariable? scope name with
      | none =>
        rw [hv, hw] at hvariable
        cases hvariable
      | some found' =>
        rw [hv, hw] at hvariable
        dsimp only
        rw [show v.variableAt found.2 = w.variableAt found'.2 from Option.some.inj hvariable]

/-- A value that a scope gives is that of a variable, which the scope may read, or that of a parameter, or there is
nothing to give. -/
theorem look_eq_ok {must : Bool} {value : Value} (h : w.look scope name must = .ok value) :
    (w.scopeAt scope).destroyed = false ∧
      (value = .void ∨ w.findParameter? scope name = some value ∨
        ∃ owner id, w.findVariable? scope name = some (owner, id) ∧ (w.variableAt id).value = value ∧
          ((w.scopeAt scope).pure = true → (w.variableAt id).isPureReadable = true)) := by
  unfold look at h
  split at h
  · cases h
  rename_i alive
  refine ⟨eq_false_of_ne_true alive, ?_⟩
  split at h
  · cases h
    cases hparameter : w.findParameter? scope name with
    | none => exact .inl rfl
    | some value => exact .inr (.inl rfl)
  · split at h
    · rename_i owner id hfound
      split at h
      · cases h
      · rename_i hread
        cases h
        exact .inr (.inr ⟨owner, id, hfound, rfl, by simpa using hread⟩)
    · split at h
      · rename_i hparameter
        cases h
        exact .inr (.inl hparameter)
      · split at h
        · cases h
        · cases h
          exact .inl rfl

/-- What a lambda finds that reads a variable is what its scope gives. -/
theorem found_eq_look (w : World) (scope : ScopeId) (name : String) :
    w.found scope name = w.look scope name true := by
  unfold found
  rw [get_eq_look]
  cases w.look scope name true <;> rfl

/-- A name is read without a change of the state, on whatever machine. -/
theorem get_apply (w : World) (scope : ScopeId) (name : String) (ctx : Context) :
    scope.get name true ctx w = .done (w.found scope name) w := by
  rw [get_eq_look, found_eq_look]

theorem Readable.plain_of_look (h : w.Readable scope) {must : Bool} {value : Value}
    (hx : w.look scope name must = .ok value) : value.Plain := by
  obtain ⟨-, rfl | hparameter | ⟨owner, id, hfound, rfl, -⟩⟩ := look_eq_ok hx
  · rfl
  · exact h.parameter hparameter
  · exact h.plain hfound

theorem Readable.answers_found (h : w.Readable scope) (name : String) :
    Answers (w.found scope name) (w.means scope name) :=
  ⟨rfl, fun hv => h.plain_of_look (found_eq_look .. ▸ hv)⟩

/-- What a name means depends on what it is found to be. -/
theorem means_eq_of_found (hscope : v.scopeAt scope = { w.scopeAt scope with
      vars := (v.scopeAt scope).vars, listeners := (v.scopeAt scope).listeners })
    (hvariable : (v.findVariable? scope name).map (fun found => v.variableAt found.2) =
      (w.findVariable? scope name).map fun found => w.variableAt found.2)
    (hparameter : v.findParameter? scope name = w.findParameter? scope name) :
    v.means scope name = w.means scope name := by
  have found : v.found scope name = w.found scope name := by
    rw [found_eq_look, found_eq_look, look_congr (by rw [hscope]) hvariable fun _ => hparameter]
  rw [means, means, found]

theorem means_congr (hs : v.scopes = w.scopes) (hv : v.vars = w.vars) : v.means scope = w.means scope := by
  funext name
  have variableAt (id : VariableId) : v.variableAt id = w.variableAt id := by
    rw [World.variableAt, World.variableAt, hv]
  refine means_eq_of_found ?_ ?_ (findParameter?_congr hs ..)
  · rw [scopeAt_congr hs]
  · rw [findVariable?_congr hs]
    simp only [variableAt]

end World

end Reactor
