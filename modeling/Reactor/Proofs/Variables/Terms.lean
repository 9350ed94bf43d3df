import Reactor.Proofs.Variables.Fixed

/-!
# The records of variables

* `World.Sound` : what holds of the variables of every state that is reached. A numeric variable holds
  a number or a deferred value, a fixed one a value that is fixed to the end, one with a constraint a
  value with its fingerprint, and the variables of a pure scope are pure and not volatile.
* `World.Leads` : what a state has in common with later ones, under terms (`Terms`) that say which
  scopes are spared, which variables are left alone by the thread that declared them, and which names
  are being written by others.
-/

namespace Reactor

/-- What is agreed on while the state changes. -/
structure Terms where
  /-- These scopes are neither cleared nor destroyed. -/
  spared : List ScopeId := []
  /-- These variables are not assigned by the threads that declared them. -/
  idle : List VariableId := []
  /-- These names are neither declared nor assigned. -/
  busy : List String := []

namespace Terms

/-- The same terms while a name is being written. -/
def writing (T : Terms) (name : String) : Terms :=
  { T with busy := name :: T.busy }

/-- A number that no spared scope reaches. -/
def firstFree (T : Terms) : Nat :=
  T.spared.foldr (fun scope n => max (scope.index + 1) n) 0

/-- The spared scopes exist. -/
def Fit (T : Terms) (w : World) : Prop :=
  ∀ scope ∈ T.spared, scope.index < w.scopes.size

theorem lt_firstFree {T : Terms} {scope : ScopeId} (h : scope ∈ T.spared) :
    scope.index < T.firstFree := by
  unfold firstFree
  generalize T.spared = scopes at h ⊢
  induction scopes with
  | nil => cases h
  | cons first rest ih =>
    rw [List.foldr_cons]
    rcases List.mem_cons.1 h with rfl | h
    · omega
    · have := ih h
      omega

theorem firstFree_le {T : Terms} {w : World} (h : T.Fit w) : T.firstFree ≤ w.scopes.size := by
  unfold Fit at h
  unfold firstFree
  generalize T.spared = scopes at h ⊢
  induction scopes with
  | nil => exact Nat.zero_le _
  | cons first rest ih =>
    rw [List.foldr_cons]
    have hfirst := h first List.mem_cons_self
    have hrest := ih fun scope hscope => h scope (List.mem_cons_of_mem _ hscope)
    omega

end Terms

/-- What holds of a variable. -/
structure VariableRecord.Sound (w : World) (record : VariableRecord) : Prop where
  numeric (h : record.flags.numeric = true) :
    record.value.isLambda = true ∨ record.value.tag.isNumeric = true
  fixed (h : record.flags.fixed = true) : record.value.unfixed w = false
  marked {c : Constraint} (h : record.constraint = some c) :
    record.value.tag? Value.constraintTag = some (Digest.short c.source)

theorem VariableRecord.Sound.later {w v : World} {record : VariableRecord} (h : record.Sound w)
    (hv : Value.KeepsFixed w v) : record.Sound v :=
  ⟨h.numeric, fun hf => Value.unfixed_of_keepsFixed hv _ (h.fixed hf), h.marked⟩

namespace World

/-- The variable that a scope itself declares under a name. -/
def own? (w : World) (scope : ScopeId) (name : String) : Option VariableId :=
  Entries.get? (w.scopeAt scope).vars name

/-- Some scope declares the variable under the name. -/
def Named (w : World) (id : VariableId) (name : String) : Prop :=
  ∃ scope, w.own? scope name = some id

/-- What holds of the variables and scopes of a state. -/
structure Sound (w : World) : Prop where
  /-- No lambda keeps a deferred result. -/
  settled {id : LambdaId} {v : Value} (h : (w.lambdaAt id).cache = .holding v) : v.lambda? = none
  record {id : VariableId} (h : id.index < w.vars.size) : (w.variableAt id).Sound w
  bound {id : VariableId} {name : String} (h : w.Named id name) : id.index < w.vars.size
  named {id : VariableId} {name other : String} (h : w.Named id name) (h' : w.Named id other) :
    other = name
  pure {scope : ScopeId} {name : String} {id : VariableId} (h : (w.scopeAt scope).pure = true)
    (hid : w.own? scope name = some id) :
    (w.variableAt id).flags.pure = true ∧ (w.variableAt id).flags.volatile = false

/-- A name means another variable than before: the old one could be replaced, and the new one has
its constraint. -/
structure Replaced (T : Terms) (u w : World) (name : String) (old new : VariableId) : Prop where
  writable : (u.variableAt old).flags.readonly = false
  free : name ∉ T.busy
  constraint {c : Constraint} (h : (u.variableAt old).constraint = some c) :
    ∃ c', (w.variableAt new).constraint = some c' ∧ c'.source = c.source

/-- A variable may have been assigned by a name. -/
structure Assigned (T : Terms) (u : World) (id : VariableId) (name : String) : Prop where
  writable : (u.variableAt id).flags.readonly = false
  owner : (u.variableAt id).flags.volatile = true ∨ id ∉ T.idle
  named : u.Named id name
  free : name ∉ T.busy

/-- What a state has in common with later ones. -/
structure Leads (T : Terms) (u w : World) : Prop where
  scopes : u.scopes.size ≤ w.scopes.size
  vars : u.vars.size ≤ w.vars.size
  fixable : Value.KeepsFixed u w
  pure {scope : ScopeId} (h : scope.index < u.scopes.size) :
    (w.scopeAt scope).pure = (u.scopeAt scope).pure
  /-- A variable keeps all but its value. -/
  record {id : VariableId} (h : id.index < u.vars.size) :
    w.variableAt id = { u.variableAt id with value := (w.variableAt id).value }
  named {id : VariableId} {name : String} (h : id.index < u.vars.size) (h' : w.Named id name) :
    u.Named id name
  value {id : VariableId} (h : id.index < u.vars.size) :
    (w.variableAt id).value = (u.variableAt id).value ∨ ∃ name, Assigned T u id name
  binding {scope : ScopeId} (h : scope ∈ T.spared) {name : String} {id : VariableId}
    (hid : u.own? scope name = some id) (hlt : id.index < u.vars.size) :
    ∃ new, w.own? scope name = some new ∧ new.index < w.vars.size ∧
      (new = id ∨ Replaced T u w name id new)
  /-- No scope gets a variable by a name that others are writing. -/
  fresh {scope : ScopeId} (h : scope.index < u.scopes.size) {name : String} (hname : name ∈ T.busy)
    {id : VariableId} (hid : w.own? scope name = some id) : u.own? scope name = some id

namespace Leads

variable {T : Terms} {u v w : World}

theorem refl (w : World) : Leads T w w where
  scopes := Nat.le_refl _
  vars := Nat.le_refl _
  fixable := fun _ h => h
  pure _ := rfl
  record _ := rfl
  named _ h := h
  value _ := .inl rfl
  binding _ _ _ hid hlt := ⟨_, hid, hlt, .inl rfl⟩
  fresh _ _ _ _ hid := hid

/-- What may be assigned later may be assigned before. -/
theorem assigned (h : Leads T u v) {id : VariableId} (hid : id.index < u.vars.size) {name : String}
    (ha : Assigned T v id name) : Assigned T u id name := by
  have hrecord := h.record hid
  refine ⟨?_, ?_, h.named hid ha.named, ha.free⟩
  · have hw := ha.writable
    rw [hrecord] at hw
    exact hw
  · have ho := ha.owner
    rw [hrecord] at ho
    exact ho

theorem replaced (h : Leads T u v) (h' : Leads T v w) {name : String} {a b c : VariableId}
    (ha : a.index < u.vars.size) (hb : b.index < v.vars.size) (hab : b = a ∨ Replaced T u v name a b)
    (hbc : c = b ∨ Replaced T v w name b c) : c = a ∨ Replaced T u w name a c := by
  rcases hab with rfl | hab
  · rcases hbc with rfl | hbc
    · exact .inl rfl
    · have hrecord := h.record ha
      refine .inr ⟨?_, hbc.free, fun hc => hbc.constraint ?_⟩
      · have hw := hbc.writable
        rw [hrecord] at hw
        exact hw
      · rw [hrecord]
        exact hc
  · refine .inr ⟨hab.writable, hab.free, fun hc => ?_⟩
    obtain ⟨c', hc', hs'⟩ := hab.constraint hc
    rcases hbc with rfl | hbc
    · refine ⟨c', ?_, hs'⟩
      rw [h'.record hb]
      exact hc'
    · obtain ⟨c'', hc'', hs''⟩ := hbc.constraint hc'
      exact ⟨c'', hc'', hs''.trans hs'⟩

theorem trans (h : Leads T u v) (h' : Leads T v w) : Leads T u w where
  scopes := Nat.le_trans h.scopes h'.scopes
  vars := Nat.le_trans h.vars h'.vars
  fixable id hid := h'.fixable id (h.fixable id hid)
  pure hlt := (h'.pure (Nat.lt_of_lt_of_le hlt h.scopes)).trans (h.pure hlt)
  record hlt := by
    rw [h'.record (Nat.lt_of_lt_of_le hlt h.vars), h.record hlt]
  named hlt hn := h.named hlt (h'.named (Nat.lt_of_lt_of_le hlt h.vars) hn)
  value hlt := by
    rcases h'.value (Nat.lt_of_lt_of_le hlt h.vars) with same | ⟨name, ha⟩
    · rcases h.value hlt with same' | ha
      · exact .inl (same.trans same')
      · exact .inr ha
    · exact .inr ⟨name, h.assigned hlt ha⟩
  binding hs name id hid hlt := by
    obtain ⟨b, hb, hblt, hab⟩ := h.binding hs hid hlt
    obtain ⟨c, hc, hclt, hbc⟩ := h'.binding hs hb hblt
    exact ⟨c, hc, hclt, h.replaced h' hlt hblt hab hbc⟩
  fresh hs name hname id hid :=
    h.fresh hs hname (h'.fresh (Nat.lt_of_lt_of_le hs h.scopes) hname hid)

/-- What leads on under stricter terms does so under these. -/
theorem weaken {T T' : Terms} {u w : World} (h : Leads T' u w) (hspared : T.spared = T'.spared)
    (hidle : T.idle = T'.idle) (hbusy : ∀ name ∈ T.busy, name ∈ T'.busy) : Leads T u w where
  scopes := h.scopes
  vars := h.vars
  fixable := h.fixable
  pure := h.pure
  record := h.record
  named := h.named
  value hlt := by
    rcases h.value hlt with same | ⟨name, ha⟩
    · exact .inl same
    · exact .inr ⟨name, ha.writable, hidle ▸ ha.owner, ha.named, fun hb => ha.free (hbusy name hb)⟩
  binding hs name id hid hlt := by
    obtain ⟨new, hnew, hnlt, same | hr⟩ := h.binding (hspared ▸ hs) hid hlt
    · exact ⟨new, hnew, hnlt, .inl same⟩
    · exact ⟨new, hnew, hnlt, .inr ⟨hr.writable, fun hb => hr.free (hbusy name hb), hr.constraint⟩⟩
  fresh hs name hname id hid := h.fresh hs (hbusy name hname) hid

end Leads

end World

end Reactor
