import Reactor.Proofs.Variables.Operations

/-!
# What may be relied on of variables

`World.Dependable` says what may be relied on of the variables of a state, now and in whatever comes
after it. It holds of every state that is reached from one without scopes, variables and lambdas, by
any declarations, assignments, copies, clearings and destructions of any threads
(`Conduct.variables_keep_terms`). The state is sound, and so are the later ones, to which it leads
(`Conduct.tends`). What is left is to read off the parts of a write (`accepted_of_storable`).
-/

namespace Reactor

open Discipline

/-- No scopes, no variables and no lambdas. -/
structure World.Blank (w : World) : Prop where
  scopes : w.scopes = #[]
  vars : w.vars = #[]
  lambdas : w.lambdas = #[]

/-- What may be relied on of the variables of a state. -/
structure World.Dependable (w : World) : Prop where
  /-- A numeric variable holds a number or a deferred value. -/
  numeric {id : VariableId} (hid : id.index < w.vars.size)
    (h : (w.variableAt id).flags.numeric = true) :
    (w.variableAt id).value.isLambda = true ∨ (w.variableAt id).value.tag.isNumeric = true
  /-- A fixed variable holds no fixable lambda at any position. -/
  fixed {id : VariableId} (hid : id.index < w.vars.size)
    (h : (w.variableAt id).flags.fixed = true) : (w.variableAt id).value.unfixed w = false
  /-- The value of a variable with a constraint carries the fingerprint of its source. -/
  marked {id : VariableId} (hid : id.index < w.vars.size) {c : Constraint}
    (h : (w.variableAt id).constraint = some c) :
    (w.variableAt id).value.tag? Value.constraintTag = some (Digest.short c.source)
  /-- The variables of a pure scope are pure, and none is volatile. -/
  pure {scope : ScopeId} (h : (w.scopeAt scope).pure = true) {name : String} {id : VariableId}
    (hid : w.own? scope name = some id) :
    (w.variableAt id).flags.pure = true ∧ (w.variableAt id).flags.volatile = false
  /-- A readonly variable stays as it is until its scope is cleared or destroyed. -/
  readonly {T : Terms} (hT : T.Fit w) {w' : World} (h : Conduct T w w') {scope : ScopeId}
    (hscope : scope ∈ T.spared) {name : String} {id : VariableId}
    (hid : w.own? scope name = some id) (hr : (w.variableAt id).flags.readonly = true) :
    w'.own? scope name = some id ∧ w'.variableAt id = w.variableAt id
  /-- A name with a constraint has one with that source until its scope is cleared or destroyed. -/
  source {T : Terms} (hT : T.Fit w) {w' : World} (h : Conduct T w w') {scope : ScopeId}
    (hscope : scope ∈ T.spared) {name : String} {id : VariableId}
    (hid : w.own? scope name = some id) {c : Constraint}
    (hc : (w.variableAt id).constraint = some c) :
    ∃ id' c', w'.own? scope name = some id' ∧ (w'.variableAt id').constraint = some c' ∧
      c'.source = c.source
  /-- If the thread that declared a variable does not assign it, its value stays as it is, unless it
  is volatile. -/
  owner {T : Terms} (hT : T.Fit w) {w' : World} (h : Conduct T w w') {id : VariableId}
    (hidle : id ∈ T.idle) (hid : id.index < w.vars.size)
    (hv : (w.variableAt id).flags.volatile = false) :
    (w'.variableAt id).value = (w.variableAt id).value
  /-- What is declared in a pure scope is pure and not volatile. What is declared with a constraint
  has been accepted, given the value that it takes the place of. -/
  declared {T : Terms} (hT : T.Fit w) {host : Host} {budget : Nat} {thread : Thread}
    {scope : ScopeId} {name : String} {value : Value} {declaration : Declaration}
    {proposal : ScopeId.Proposal} {w' : World} (hhost : host.Conducts (T.writing name))
    (hbudget : budget < Value.maxDepth)
    (h : Ends (T.writing name)
      (scope.propose name value declaration (.hosting host budget thread) w) (.ok proposal) w') :
    ((w'.scopeAt scope).pure = true →
      proposal.record.flags.pure = true ∧ proposal.record.flags.volatile = false) ∧
    (∀ id, w'.own? scope name = some id → (w'.variableAt id).value = w.valueUnder scope name) ∧
    ∀ c, proposal.record.constraint = some c →
      ∃ it, Accepted (T.writing name) (.hosting host budget thread) scope c it
        (w.valueUnder scope name) ∧ StoredAs c it proposal.record.value
  /-- What is assigned to a variable with a constraint has been accepted, given the value that it takes
  the place of. -/
  assigned {T : Terms} (hT : T.Fit w) {host : Host} {budget : Nat} {thread : Thread}
    {scope owner : ScopeId} {id : VariableId} {name : String} {value stored : Value} {w' : World}
    (hhost : host.Conducts (T.writing name)) (hbudget : budget < Value.maxDepth)
    (hfound : w.findVariable? scope name = some (owner, id))
    (h : Ends (T.writing name)
      (scope.proposeValue owner id name value (.hosting host budget thread) w) (.ok stored) w')
    {c : Constraint} (hc : (w'.variableAt id).constraint = some c) :
    ∃ it, Accepted (T.writing name) (.hosting host budget thread) scope c it
      (w'.variableAt id).value ∧ StoredAs c it stored

namespace World

variable {T : Terms} {w w' : World} {scope : ScopeId} {name : String} {id : VariableId}

theorem Blank.sound (h : w.Blank) : w.Sound := by
  have scope (s : ScopeId) : w.scopeAt s = default := scopeAt_of_le (by simp [h.scopes])
  have lambda (id : LambdaId) : w.lambdaAt id = default := lambdaAt_of_le (by simp [h.lambdas])
  have none {s : ScopeId} {name : String} {id : VariableId} (hid : w.own? s name = some id) :
      False := by
    rw [own?, scope] at hid
    cases hid
  refine ⟨fun hc => ?_, fun hid => ?_, fun h => Exists.elim h fun _ hs => (none hs).elim,
    fun h => Exists.elim h fun _ hs => (none hs).elim, fun _ hid => (none hid).elim⟩
  · rw [lambda] at hc
    cases hc
  · rw [h.vars] at hid
    cases hid

/-- While a name is being written, the variables that it means keep their values. -/
theorem Leads.value_of_writing (lead : Leads (T.writing name) w w') (hw : w.Sound)
    (hid : w.Named id name) : (w'.variableAt id).value = (w.variableAt id).value := by
  rcases lead.value (hw.bound hid) with same | ⟨other, ha⟩
  · exact same
  · have : other = name := hw.named hid ha.named
    exact absurd (this ▸ List.mem_cons_self) ha.free

theorem valueUnder_of_own? (h : w.own? scope name = some id) :
    w.valueUnder scope name = (w.variableAt id).value := by
  rw [valueUnder, h]
  rfl

end World

/-- Scripts that conduct themselves keep the discipline. -/
theorem Host.Conducts.admits {host : Host} {T : Terms} (h : host.Conducts T) (budget : Nat)
    (thread : Thread) : (tending T).Admits (.hosting host budget thread) :=
  admits_hosting (D := tending T) trivial (fun budget e scope item thread v hv =>
    (h budget e scope item thread v hv.1 hv.2).alike hv) budget thread

/-- What may be relied on in every state that is sound. -/
theorem World.Sound.dependable {w : World} (hw : w.Sound) : w.Dependable where
  numeric hid h := (hw.record hid).numeric h
  fixed hid h := (hw.record hid).fixed h
  marked hid c h := (hw.record hid).marked h
  pure h name id hid := hw.pure h hid
  readonly hT w' h scope hscope name id hid hr := by
    obtain ⟨-, lead⟩ := h.tends ⟨hw, hT⟩
    have hlt := hw.bound ⟨scope, hid⟩
    have same : (w'.variableAt id).value = (w.variableAt id).value := by
      rcases lead.value hlt with same | ⟨_, ha⟩
      · exact same
      · exact absurd (hr.symm.trans ha.writable) nofun
    obtain ⟨new, hnew, -, rfl | hr'⟩ := lead.binding hscope hid hlt
    · refine ⟨hnew, ?_⟩
      rw [lead.record hlt, same]
    · exact absurd (hr.symm.trans hr'.writable) nofun
  source hT w' h scope hscope name id hid c hc := by
    obtain ⟨-, lead⟩ := h.tends ⟨hw, hT⟩
    have hlt := hw.bound ⟨scope, hid⟩
    obtain ⟨new, hnew, -, rfl | hr⟩ := lead.binding hscope hid hlt
    · refine ⟨new, c, hnew, ?_, rfl⟩
      rw [lead.record hlt]
      exact hc
    · obtain ⟨c', hc', hs⟩ := hr.constraint hc
      exact ⟨new, c', hnew, hc', hs⟩
  owner hT w' h id hidle hid hv := by
    obtain ⟨-, lead⟩ := h.tends ⟨hw, hT⟩
    rcases lead.value hid with same | ⟨_, ha⟩
    · exact same
    · rcases ha.owner with volatile | notIdle
      · exact absurd (hv.symm.trans volatile) nofun
      · exact absurd hidle notIdle
  declared hT host budget thread scope name value declaration proposal w' hhost hbudget h := by
    obtain ⟨⟨hw', lead⟩, hp⟩ := h.gives
      (alike_propose (hhost.admits budget thread) (by simpa using hbudget) ⟨hw, hT⟩ _ _ _)
    obtain ⟨checked, stored⟩ := hp _ rfl
    have bound := checked.declarable hw lead stored proposal.record.thread
    refine ⟨bound.pure, fun id hid => ?_, fun c hc => accepted_of_propose h hc⟩
    have old : w.own? scope name = some id :=
      lead.fresh (World.lt_of_alive checked.alive) List.mem_cons_self hid
    rw [World.valueUnder_of_own? old]
    exact lead.value_of_writing hw ⟨scope, old⟩
  assigned hT host budget thread scope owner id name value stored w' hhost hbudget hfound h c hc := by
    have named := World.named_of_findVariable? hfound
    obtain ⟨⟨-, lead⟩, -⟩ := h.gives
      (alike_proposeValue (hhost.admits budget thread) (by simpa using hbudget) ⟨hw, hT⟩ _ _ _ _)
    rw [lead.record (hw.bound named)] at hc
    obtain ⟨it, u, prepared, accepted, storedAs⟩ := accepted_of_proposeValue h hc
    obtain ⟨⟨-, before⟩, -⟩ := prepared.gives
      (((keeps_prepare name value _).holding _).run (hhost.admits budget thread) (.refl ⟨hw, hT⟩))
    have same : (u.variableAt id).value = (w'.variableAt id).value := by
      rw [before.value_of_writing hw named, lead.value_of_writing hw named]
    exact ⟨it, same ▸ accepted, storedAs⟩

/-- **Variables keep their terms.** Whatever declarations, assignments, copies, clearings and
destructions have been made, by whatever threads, all that is said of variables may be relied on. -/
theorem Conduct.variables_keep_terms {start w : World} (hstart : start.Blank) (h : Conduct {} start w) :
    w.Dependable :=
  (h.tends ⟨hstart.sound, nofun⟩).1.1.dependable

/-- For example in a pure scope, with a variable that is readonly and has a condition. -/
theorem Conduct.limit_keeps_terms :
    ∃ w, Conduct {} {} w ∧ w.Dependable ∧ ∃ id, w.own? ⟨0⟩ "limit" = some id ∧
      (w.variableAt id).flags.readonly = true ∧ (w.variableAt id).constraint.isSome = true := by
  have opened : Conduct {} {}
      { scopes := #[{ name := "root", parent := none, source := default, pure := true }] } :=
    .aside (.newScope rfl)
  have silent : Host.silent.Conducts (({} : Terms).writing "limit") :=
    fun _ _ _ _ _ _ _ _ => .exhausted
  have conduct := opened.trans (.declare nofun (show 1 < Value.maxDepth by decide) silent
    (show Ends _ (ScopeId.propose ⟨0⟩ "limit" (.integer 1)
      { flags := { readonly := true }
        constraint := some { predicate := .boolean true, source := "it > 0" } }
      (.hosting .silent 1 default) _) (.ok _) _ from .value))
  exact ⟨_, conduct, Conduct.variables_keep_terms ⟨rfl, rfl, rfl⟩ conduct, ⟨0⟩, rfl, rfl, rfl⟩

end Reactor
