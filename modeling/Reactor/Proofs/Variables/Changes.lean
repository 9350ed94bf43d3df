import Reactor.Proofs.Variables.Terms
import Reactor.Engine.Variable

/-!
# Changes of variables and scopes

For each kind of change there is one lemma that says what it keeps: changes beside the variables
(`World.Aside`), new copies of a scope and scopes that are emptied (`World.Rescoped`), variables that
are declared (`World.Declarable`) and values that are stored (`World.Sound.store`).

All that the engine does beside writing variables is of the first two kinds. So it keeps the
discipline (`Discipline.tending`).
-/

namespace Reactor

namespace World

/-! ## Changes beside the variables -/

/-- The variables are the same, and so are their names, except that scopes may be added and some may
be emptied. An added scope may have the names of another one that is as pure. -/
structure Rescoped (T : Terms) (w v : World) : Prop where
  scopes : w.scopes.size ≤ v.scopes.size
  vars : v.vars = w.vars
  fixable : Value.KeepsFixed w v
  settled {id : LambdaId} {value : Value} (h : (v.lambdaAt id).cache = .holding value) :
    (w.lambdaAt id).cache = .holding value ∨ value.lambda? = none
  pure {scope : ScopeId} (h : scope.index < w.scopes.size) :
    (v.scopeAt scope).pure = (w.scopeAt scope).pure
  entry {scope : ScopeId} {name : String} {id : VariableId}
    (h : v.own? scope name = some id) :
    ∃ other, w.own? other name = some id ∧
      (v.scopeAt scope).pure = (w.scopeAt other).pure ∧
      (scope.index < w.scopes.size → other = scope)
  spared {scope : ScopeId} (h : scope ∈ T.spared) (name : String) :
    v.own? scope name = w.own? scope name

theorem Rescoped.variableAt {T : Terms} {w v : World} (h : Rescoped T w v) (id : VariableId) :
    v.variableAt id = w.variableAt id := by
  unfold World.variableAt
  rw [h.vars]

theorem Rescoped.keeps {T : Terms} {w v : World} (h : Rescoped T w v) (hw : w.Sound) :
    v.Sound ∧ Leads T w v := by
  have named {id : VariableId} {name : String} (hn : v.Named id name) : w.Named id name := by
    obtain ⟨scope, hid⟩ := hn
    obtain ⟨other, hid, -, -⟩ := h.entry hid
    exact ⟨other, hid⟩
  refine ⟨⟨fun hc => ?_, fun {id} hid => ?_, fun hn => ?_, fun hn hn' => ?_, fun hp hid => ?_⟩,
    ⟨h.scopes, ?_, h.fixable, h.pure, fun _ => ?_, fun _ hn => named hn, fun _ => ?_,
      fun hs name id hid hlt => ?_, fun hs name _ id hid => ?_⟩⟩
  · rcases h.settled hc with hc | hv
    · exact hw.settled hc
    · exact hv
  · rw [h.variableAt]
    rw [h.vars] at hid
    exact (hw.record hid).later h.fixable
  · rw [h.vars]
    exact hw.bound (named hn)
  · exact hw.named (named hn) (named hn')
  · obtain ⟨other, hid, hpure, -⟩ := h.entry hid
    rw [h.variableAt]
    exact hw.pure (hpure ▸ hp) hid
  · exact Nat.le_of_eq (by rw [h.vars])
  · rw [h.variableAt]
  · exact .inl (by rw [h.variableAt])
  · refine ⟨id, ?_, ?_, .inl rfl⟩
    · rw [h.spared hs name]
      exact hid
    · rw [h.vars]
      exact hlt
  · obtain ⟨other, hid, -, hother⟩ := h.entry hid
    rw [← hother hs]
    exact hid

theorem Rescoped.tends {T : Terms} {w v : World} (h : Rescoped T w v) (hw : w.Sound ∧ T.Fit w) :
    (v.Sound ∧ T.Fit v) ∧ Leads T w v := by
  obtain ⟨sound, leads⟩ := h.keeps hw.1
  exact ⟨⟨sound, fun scope hscope => Nat.lt_of_lt_of_le (hw.2 scope hscope) h.scopes⟩, leads⟩

/-- Variables and their names are the same. Scopes may be added. -/
structure Aside (w v : World) : Prop where
  scopes : w.scopes.size ≤ v.scopes.size
  vars : v.vars = w.vars
  fixable : Value.KeepsFixed w v
  settled {id : LambdaId} {value : Value} (h : (v.lambdaAt id).cache = .holding value) :
    (w.lambdaAt id).cache = .holding value ∨ value.lambda? = none
  pure {scope : ScopeId} (h : scope.index < w.scopes.size) :
    (v.scopeAt scope).pure = (w.scopeAt scope).pure
  names (scope : ScopeId) (name : String) : v.own? scope name = w.own? scope name

theorem lambdaAt_of_le {w : World} {id : LambdaId} (h : w.lambdas.size ≤ id.index) :
    w.lambdaAt id = default := by
  simp [lambdaAt, Array.getD, Nat.not_lt.2 h]

namespace Aside

variable {w v : World}

theorem rescoped (h : w.Aside v) (T : Terms) : Rescoped T w v where
  scopes := h.scopes
  vars := h.vars
  fixable := h.fixable
  settled := h.settled
  pure := h.pure
  entry {scope _ _} hid := by
    rw [h.names] at hid
    by_cases hlt : scope.index < w.scopes.size
    · exact ⟨scope, hid, h.pure hlt, fun _ => rfl⟩
    · rw [own?, scopeAt_of_le (Nat.le_of_not_lt hlt)] at hid
      cases hid
  spared _ := h.names _

theorem tends {T : Terms} (h : w.Aside v) (hw : w.Sound ∧ T.Fit w) :
    (v.Sound ∧ T.Fit v) ∧ Leads T w v :=
  (h.rescoped T).tends hw

/-- A change of lambdas. -/
theorem ofLambdas (hs : v.scopes = w.scopes) (hv : v.vars = w.vars)
    (hf : Value.KeepsFixed w v)
    (hc : ∀ {id : LambdaId} {value : Value}, (v.lambdaAt id).cache = .holding value →
      (w.lambdaAt id).cache = .holding value ∨ value.lambda? = none) : w.Aside v where
  scopes := Nat.le_of_eq (by rw [hs])
  vars := hv
  fixable := hf
  settled := hc
  pure _ := by unfold scopeAt; rw [hs]
  names _ _ := by unfold own? scopeAt; rw [hs]

/-- A change of other tables. -/
theorem ofSame (hs : v.scopes = w.scopes) (hv : v.vars = w.vars) (hl : v.lambdas = w.lambdas) :
    w.Aside v := by
  have same (id : LambdaId) : v.lambdaAt id = w.lambdaAt id := by
    unfold lambdaAt
    rw [hl]
  refine ofLambdas hs hv (fun id hf => ?_) fun {id _} hc => ?_
  · rw [same]
    exact hf
  · rw [same] at hc
    exact .inl hc

theorem modifyLambda {allows : Expr → Prop} (id : LambdaId) {f : LambdaRecord → LambdaRecord}
    (h : (w.lambdaAt id).Tame allows (f (w.lambdaAt id))) : w.Aside (w.modifyLambda id f) := by
  refine ofLambdas rfl rfl (fun other hf => ?_) fun {other _} hc => ?_
  · rw [lambdaAt_modifyLambda]
    split
    · rename_i found
      obtain ⟨rfl, -⟩ := found
      exact h.fixable.trans hf
    · exact hf
  · rw [lambdaAt_modifyLambda] at hc
    split at hc
    · rename_i found
      obtain ⟨rfl, -⟩ := found
      exact h.cache hc
    · exact .inl hc

theorem newLambda {allows : Expr → Prop} {record : LambdaRecord} (h : record.Fresh allows) :
    w.Aside { w with lambdas := w.lambdas.push record } := by
  have pushed (id : LambdaId) : ({ w with lambdas := w.lambdas.push record } : World).lambdaAt id =
      if id.index = w.lambdas.size then record else w.lambdaAt id :=
    getD_push w.lambdas record default id.index
  refine ofLambdas rfl rfl (fun id hf => ?_) fun {id _} hc => ?_
  · rw [pushed]
    split
    · rename_i hid
      rw [lambdaAt_of_le (Nat.le_of_eq hid.symm)] at hf
      cases hf
    · exact hf
  · rw [pushed] at hc
    split at hc
    · rw [h.cache] at hc
      cases hc
    · exact .inl hc

theorem modifyScope (scope : ScopeId) {f : ScopeRecord → ScopeRecord}
    (h : ∀ r : ScopeRecord, r.Tame (f r)) : w.Aside (w.modifyScope scope f) where
  scopes := Nat.le_of_eq (Array.size_modify ..).symm
  vars := rfl
  fixable _ hf := hf
  settled hc := .inl hc
  pure _ := by
    rw [scopeAt_modifyScope]
    split
    · exact (h _).pure
    · rfl
  names _ _ := by
    unfold own?
    rw [scopeAt_modifyScope]
    split
    · rw [(h _).vars]
    · rfl

theorem newScope {record : ScopeRecord} (h : record.vars = []) :
    w.Aside { w with scopes := w.scopes.push record } := by
  have pushed (scope : ScopeId) :
      ({ w with scopes := w.scopes.push record } : World).scopeAt scope =
        if scope.index = w.scopes.size then record else w.scopeAt scope :=
    getD_push w.scopes record default scope.index
  refine ⟨?_, rfl, fun _ hf => hf, .inl, fun hlt => ?_, fun scope name => ?_⟩
  · rw [Array.size_push]
    exact Nat.le_succ _
  · rw [pushed, if_neg (Nat.ne_of_lt hlt)]
  · unfold own?
    rw [pushed]
    split
    · rename_i hid
      rw [scopeAt_of_le (Nat.le_of_eq hid.symm), h]
      rfl
    · rfl

end Aside

/-- A scope that is not spared loses names. -/
theorem Rescoped.ofEmptied {T : Terms} {w : World} {scope : ScopeId} (hs : scope ∉ T.spared)
    {f : ScopeRecord → ScopeRecord} (hpure : ∀ r, (f r).pure = r.pure)
    (hvars : ∀ r, (f r).vars = r.vars ∨ (f r).vars = []) : Rescoped T w (w.modifyScope scope f) where
  scopes := Nat.le_of_eq (Array.size_modify ..).symm
  vars := rfl
  fixable _ hf := hf
  settled hc := .inl hc
  pure _ := by
    rw [scopeAt_modifyScope]
    split
    · exact hpure _
    · rfl
  entry {other _ _} hid := by
    unfold own? at hid
    rw [scopeAt_modifyScope] at hid ⊢
    split at hid
    · rename_i found
      rw [if_pos found]
      rcases hvars (w.scopeAt other) with same | none
      · rw [same] at hid
        exact ⟨other, hid, hpure _, fun _ => rfl⟩
      · rw [none] at hid
        cases hid
    · rename_i found
      rw [if_neg found]
      exact ⟨other, hid, rfl, fun _ => rfl⟩
  spared {other} hother _ := by
    unfold own?
    rw [scopeAt_modifyScope, if_neg]
    intro found
    exact hs (found.1 ▸ hother)

/-- A copy of a scope has the same names. -/
theorem Rescoped.ofCopied {T : Terms} {w : World} (hT : T.Fit w)
    (scope : ScopeId) {record : ScopeRecord} (hpure : record.pure = (w.scopeAt scope).pure)
    (hvars : record.vars = (w.scopeAt scope).vars) :
    Rescoped T w { w with scopes := w.scopes.push record } := by
  have pushed (other : ScopeId) :
      ({ w with scopes := w.scopes.push record } : World).scopeAt other =
        if other.index = w.scopes.size then record else w.scopeAt other :=
    getD_push w.scopes record default other.index
  refine ⟨?_, rfl, fun _ hf => hf, .inl, fun hlt => ?_, fun {other _ _} hid => ?_,
    fun {other} hother _ => ?_⟩
  · rw [Array.size_push]
    exact Nat.le_succ _
  · rw [pushed, if_neg (Nat.ne_of_lt hlt)]
  · unfold own? at hid
    rw [pushed] at hid ⊢
    split at hid
    · rename_i hnew
      rw [hvars] at hid
      rw [if_pos hnew]
      exact ⟨scope, hid, hpure, fun hlt => absurd hnew (Nat.ne_of_lt hlt)⟩
    · rename_i hold
      rw [if_neg hold]
      exact ⟨other, hid, rfl, fun _ => rfl⟩
  · unfold own?
    rw [pushed, if_neg (Nat.ne_of_lt (hT other hother))]

/-! ## Writes -/

/-- In an existing scope the name means the new variable. All other names are as before. -/
theorem own?_bindVariable (w : World) (scope other : ScopeId) (name key : String)
    (record : VariableRecord) :
    (w.bindVariable scope name record).own? other key =
      if scope = other ∧ other.index < w.scopes.size ∧ name = key then some ⟨w.vars.size⟩
      else w.own? other key := by
  unfold own?
  rw [scopeAt_bindVariable]
  by_cases found : scope = other ∧ other.index < w.scopes.size
  · rw [if_pos found, Entries.get?_insert]
    simp [found]
  · rw [if_neg found, if_neg]
    exact fun all => found ⟨all.1, all.2.1⟩

/-- A name of the new state is an old one or the new one. -/
theorem own?_of_bindVariable {w : World} {scope other : ScopeId} {name key : String}
    {record : VariableRecord} {id : VariableId}
    (h : (w.bindVariable scope name record).own? other key = some id) :
    w.own? other key = some id ∨ (key = name ∧ id = ⟨w.vars.size⟩ ∧ other = scope) := by
  rw [own?_bindVariable] at h
  split at h
  · rename_i found
    cases h
    exact .inr ⟨found.2.2.symm, rfl, found.1.symm⟩
  · exact .inl h

/-- What has to be known of a variable that is declared. -/
structure Declarable (w : World) (scope : ScopeId) (name : String) (record : VariableRecord) :
    Prop where
  sound : record.Sound w
  pure (h : (w.scopeAt scope).pure = true) :
    record.flags.pure = true ∧ record.flags.volatile = false
  writable {id : VariableId} (h : w.own? scope name = some id) :
    (w.variableAt id).flags.readonly = false
  constraint {id : VariableId} (h : w.own? scope name = some id)
    {c : Constraint} (hc : (w.variableAt id).constraint = some c) :
    ∃ c', record.constraint = some c' ∧ c'.source = c.source

section Bind

variable {T : Terms} {w : World} {scope : ScopeId} {name : String} {record : VariableRecord}

theorem Sound.bind (hw : w.Sound) (h : Declarable w scope name record) :
    (w.bindVariable scope name record).Sound := by
  have size : (w.bindVariable scope name record).vars.size = w.vars.size + 1 := Array.size_push _
  have old {id : VariableId} {key : String} (hid : w.Named id key) : id.index < w.vars.size :=
    hw.bound hid
  have names {id : VariableId} {key : String}
      (hid : (w.bindVariable scope name record).Named id key) :
      w.Named id key ∨ (key = name ∧ id = ⟨w.vars.size⟩) := by
    obtain ⟨other, hid⟩ := hid
    rcases own?_of_bindVariable hid with hid | ⟨hkey, hnew, -⟩
    · exact .inl ⟨other, hid⟩
    · exact .inr ⟨hkey, hnew⟩
  refine ⟨fun hc => hw.settled hc, fun {id} hid => ?_, fun {id key} hn => ?_,
    fun {id key other} hn hn' => ?_, fun {other key id} hp hid => ?_⟩
  · rw [variableAt_bindVariable]
    split
    · exact h.sound.later fun _ hf => hf
    · rename_i hne
      exact (hw.record (by omega)).later fun _ hf => hf
  · rcases names hn with hn | ⟨-, rfl⟩
    · have := old hn
      omega
    · exact size ▸ Nat.lt_succ_self _
  · rcases names hn with hn | ⟨hkey, hid⟩
    · rcases names hn' with hn' | ⟨-, hid'⟩
      · exact hw.named hn hn'
      · have := old hn
        subst hid'
        exact absurd this (Nat.lt_irrefl _)
    · rcases names hn' with hn' | ⟨hkey', -⟩
      · have := old hn'
        subst hid
        exact absurd this (Nat.lt_irrefl _)
      · exact hkey'.trans hkey.symm
  · have hpure : (w.scopeAt other).pure = true := by
      rw [scopeAt_bindVariable] at hp
      split at hp <;> exact hp
    rw [variableAt_bindVariable]
    rcases own?_of_bindVariable hid with hid | ⟨-, rfl, rfl⟩
    · have := old ⟨other, hid⟩
      rw [if_neg (by omega)]
      exact hw.pure hpure hid
    · rw [if_pos rfl]
      exact h.pure hpure

theorem Leads.bind (h : Declarable w scope name record) (hname : name ∉ T.busy) :
    Leads T w (w.bindVariable scope name record) := by
  have size : (w.bindVariable scope name record).vars.size = w.vars.size + 1 := Array.size_push _
  have same {id : VariableId} (hid : id.index < w.vars.size) :
      (w.bindVariable scope name record).variableAt id = w.variableAt id := by
    rw [variableAt_bindVariable, if_neg (Nat.ne_of_lt hid)]
  refine ⟨?_, ?_, fun _ hf => hf, fun {other} _ => ?_, fun hid => by rw [same hid],
    fun {id key} hid hn => ?_, fun hid => .inl (by rw [same hid]),
    fun {other} hs {key id} hget hid => ?_, fun _ _ hkey _ hid => ?_⟩
  · exact Nat.le_of_eq (Array.size_modify ..).symm
  · omega
  · rw [scopeAt_bindVariable]
    split <;> rfl
  · obtain ⟨other, hn⟩ := hn
    rcases own?_of_bindVariable hn with hn | ⟨-, rfl, -⟩
    · exact ⟨other, hn⟩
    · exact absurd hid (Nat.lt_irrefl _)
  · rw [own?_bindVariable]
    split
    · rename_i found
      obtain ⟨rfl, -, rfl⟩ := found
      refine ⟨⟨w.vars.size⟩, rfl, size ▸ Nat.lt_succ_self _,
        .inr ⟨h.writable hget, hname, fun hc => ?_⟩⟩
      rw [variableAt_bindVariable, if_pos rfl]
      exact h.constraint hget hc
    · exact ⟨id, hget, by omega, .inl rfl⟩
  · rcases own?_of_bindVariable hid with hid | ⟨rfl, -, -⟩
    · exact hid
    · exact absurd hkey hname

end Bind

section Store

variable {T : Terms} {w : World} {id : VariableId} {value : Value}

theorem variableAt_storeValue (w : World) (id other : VariableId) (value : Value) :
    (w.storeValue id value).variableAt other =
      if id = other ∧ other.index < w.vars.size then { w.variableAt other with value }
      else w.variableAt other :=
  variableAt_modifyVariable w id other _

/-- Only the value is different. -/
theorem variableAt_storeValue_eq (w : World) (id other : VariableId) (value : Value) :
    (w.storeValue id value).variableAt other =
      { w.variableAt other with value := ((w.storeValue id value).variableAt other).value } := by
  rw [variableAt_storeValue]
  split <;> rfl

theorem size_storeValue (w : World) (id : VariableId) (value : Value) :
    (w.storeValue id value).vars.size = w.vars.size :=
  Array.size_modify ..

theorem Sound.store (hw : w.Sound)
    (h : ({ w.variableAt id with value } : VariableRecord).Sound w) :
    (w.storeValue id value).Sound := by
  refine ⟨fun hc => hw.settled hc, fun {other} hid => ?_, fun hn => ?_, fun hn hn' => hw.named hn hn',
    fun {scope key other} hp hid => ?_⟩
  · rw [size_storeValue] at hid
    rw [variableAt_storeValue]
    split
    · rename_i found
      rw [← found.1]
      exact h.later fun _ hf => hf
    · exact (hw.record hid).later fun _ hf => hf
  · rw [size_storeValue]
    exact hw.bound hn
  · rw [variableAt_storeValue_eq]
    exact hw.pure hp hid

/-- The value is stored some time after it was known that the variable may be assigned. -/
theorem Leads.store {u : World} (h : Leads T u w) {name : String} (ha : Assigned T u id name) :
    Leads T u (w.storeValue id value) := by
  have step : (w.storeValue id value).vars.size = w.vars.size := size_storeValue w id value
  refine ⟨h.scopes, by rw [step]; exact h.vars, h.fixable, h.pure, fun {other} hlt => ?_, h.named,
    fun {other} hlt => ?_, fun hs _ other hget hlt => ?_, h.fresh⟩
  · rw [variableAt_storeValue_eq, h.record hlt]
  · rw [variableAt_storeValue]
    split
    · rename_i found
      rw [← found.1]
      exact .inr ⟨name, ha⟩
    · exact h.value hlt
  · obtain ⟨new, hnew, hnlt, same | hr⟩ := h.binding hs hget hlt
    · exact ⟨new, hnew, by omega, .inl same⟩
    · refine ⟨new, hnew, by omega, .inr ⟨hr.writable, hr.free, fun hc => ?_⟩⟩
      rw [variableAt_storeValue_eq]
      exact hr.constraint hc

end Store

theorem settled_of_fit {T : Terms} {w : World} (h : w.Sound ∧ T.Fit w) {id : LambdaId} {v : Value}
    (hc : (w.lambdaAt id).cache = .holding v) : v.lambda? = none :=
  h.1.settled hc

end World

theorem Terms.firstFree_le_of_fit {T : Terms} {w : World} (h : w.Sound ∧ T.Fit w) :
    T.firstFree ≤ w.scopes.size :=
  firstFree_le h.2

namespace Discipline

/-- What holds of the variables, and what a state has in common with later ones. Scripts may do what
they like otherwise. -/
def tending (T : Terms) : Discipline where
  allows _ := True
  single := True
  holds w := w.Sound ∧ T.Fit w
  leads := World.Leads T
  firstScope := T.firstFree
  lets _ _ := True
  refl := World.Leads.refl
  trans := World.Leads.trans
  script _ _ _ _ := trivial
  callback _ _ _ _ _ := trivial
  settled := @World.settled_of_fit T
  subscriber _ _ _ _ _ := trivial
  forked _ _ := trivial
  firstScope_le := @Terms.firstFree_le_of_fit T
  lets_of_not_bears _ _ _ _ := trivial
  aside h hw := World.Aside.tends (.ofSame h.scopes h.vars h.lambdas) hw
  lambda id _ h _ hw := (World.Aside.modifyLambda id h).tends hw
  newLambda h hw := (World.Aside.newLambda h).tends hw
  queue _ _ _ hw := World.Aside.tends (.ofSame rfl rfl rfl) hw
  newQueue _ hw := World.Aside.tends (.ofSame rfl rfl rfl) hw
  newFork _ _ hw := World.Aside.tends (.ofSame rfl rfl rfl) hw
  scope id _ h hw := (World.Aside.modifyScope id h).tends hw
  newScope h _ hw := (World.Aside.newScope h).tends hw
  destroy h hw := by
    refine World.Rescoped.tends (.ofEmptied (fun hs => ?_) (fun r => ?_) fun r => ?_) hw
    · exact absurd (Terms.lt_firstFree hs) (Nat.not_lt.2 h)
    · exact ScopeRecord.pure_ended r
    · exact ScopeRecord.vars_ended r

end Discipline

end Reactor
