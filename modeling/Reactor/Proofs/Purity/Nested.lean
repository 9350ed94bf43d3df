import Reactor.Engine.Variable

/-!
# The tree of scopes

In every state a scope comes after its parent, below a pure scope there are only pure ones, and a
variable has one name in all scopes that share it (`World.Nested`). Scopes never move, so it is
enough that a scope that comes to the state fits in (`ScopeRecord.Opens`). What is above a scope is
then the scope itself and what is above its parent (`World.Nested.ancestors_eq`).
-/

namespace Reactor

/-- The record fits into the state as a new scope: its parent is there, it is pure if its parent is,
and another scope has its variables under the same names. -/
structure ScopeRecord.Opens (record : ScopeRecord) (w : World) : Prop where
  parent_lt {above : ScopeId} (h : record.parent = some above) : above.index < w.scopes.size
  pure {above : ScopeId} (h : record.parent = some above) (hpure : (w.scopeAt above).pure = true) :
    record.pure = true
  known {name : String} {id : VariableId} (h : (name, id) ∈ record.vars) :
    ∃ scope, (name, id) ∈ (w.scopeAt scope).vars

/-- A scope comes after its parent, it is pure if its parent is, and its variables are there, each of
them under one name. -/
structure World.Nested (w : World) : Prop where
  parent_lt {scope above : ScopeId} (h : (w.scopeAt scope).parent = some above) :
    above.index < scope.index
  pure {scope above : ScopeId} (h : (w.scopeAt scope).parent = some above)
    (hpure : (w.scopeAt above).pure = true) : (w.scopeAt scope).pure = true
  bound {scope : ScopeId} {name : String} {id : VariableId}
    (h : (name, id) ∈ (w.scopeAt scope).vars) : id.index < w.vars.size
  named {scope other : ScopeId} {name name' : String} {id : VariableId}
    (h : (name, id) ∈ (w.scopeAt scope).vars) (h' : (name', id) ∈ (w.scopeAt other).vars) :
    name' = name

/-- Nothing is done in a scope that has been destroyed. -/
theorem ScopeId.checkAlive_of_destroyed {scope : ScopeId} {w : World} (h : (w.scopeAt scope).destroyed = true)
    (ctx : Context) : scope.checkAlive ctx w =
      .error (.assertion ("Scope " ++ w.scopeText scope ++ " has been destroyed")) w := by
  unfold checkAlive record text
  rw [Eval.bind_apply, Eval.gets_apply, Outcome.bind_value, if_pos h]
  rfl

theorem ScopeId.checkAlive_cases (scope : ScopeId) (ctx : Context) (w : World) :
    (∃ e, scope.checkAlive ctx w = .error e w) ∨
      ((w.scopeAt scope).destroyed = false ∧ scope.checkAlive ctx w = .value () w) := by
  cases hd : (w.scopeAt scope).destroyed with
  | true => exact .inl ⟨_, checkAlive_of_destroyed hd ctx⟩
  | false =>
    refine .inr ⟨rfl, ?_⟩
    unfold checkAlive record
    rw [Eval.bind_apply, Eval.gets_apply, Outcome.bind_value, hd]
    rfl

namespace World

variable {w v : World}

theorem scopeAt_of_le {scope : ScopeId} (h : w.scopes.size ≤ scope.index) :
    w.scopeAt scope = default := by
  simp [scopeAt, Array.getD, Nat.not_lt.2 h]

/-- A scope beyond the table counts as destroyed. -/
theorem lt_of_alive {scope : ScopeId} (h : (w.scopeAt scope).destroyed = false) :
    scope.index < w.scopes.size := by
  apply Nat.lt_of_not_le
  intro hle
  rw [scopeAt_of_le hle] at h
  cases h

/-- A scope beyond the table has no parent. -/
theorem lt_of_parent_eq_some {scope above : ScopeId} (h : (w.scopeAt scope).parent = some above) :
    scope.index < w.scopes.size := by
  apply Nat.lt_of_not_le
  intro hle
  rw [scopeAt_of_le hle] at h
  cases h

theorem scopeAt_push (w : World) (record : ScopeRecord) (scope : ScopeId) :
    ({ w with scopes := w.scopes.push record } : World).scopeAt scope =
      if scope.index = w.scopes.size then record else w.scopeAt scope :=
  getD_push _ _ _ _

/-! ## States with the same scopes -/

/-- What is above a scope depends on parents only. -/
theorem ancestors_of_parents (h : ∀ id, (v.scopeAt id).parent = (w.scopeAt id).parent)
    (scope : ScopeId) : v.ancestors scope = w.ancestors scope := by
  unfold ancestors
  generalize scope.index + 1 = n
  induction n generalizing scope with
  | zero => rfl
  | succ n ih =>
    rw [ancestorsUpTo, ancestorsUpTo, h]
    cases (w.scopeAt scope).parent with
    | none => rfl
    | some parent => exact congrArg (scope :: ·) (ih parent)

section Same

variable (h : v.scopes = w.scopes)
include h

theorem scopeAt_congr (scope : ScopeId) : v.scopeAt scope = w.scopeAt scope := by
  rw [scopeAt, scopeAt, h]

theorem ancestors_congr (scope : ScopeId) : v.ancestors scope = w.ancestors scope :=
  ancestors_of_parents (fun id => by rw [scopeAt_congr h]) scope

theorem findVariable?_congr (scope : ScopeId) (name : String) :
    v.findVariable? scope name = w.findVariable? scope name := by
  unfold findVariable?
  rw [ancestors_congr h]
  simp only [scopeAt_congr h]

theorem findParameter?_congr (scope : ScopeId) (key : String) :
    v.findParameter? scope key = w.findParameter? scope key := by
  unfold findParameter? parameterScopes
  rw [ancestors_congr h]
  simp only [scopeAt_congr h]

end Same

/-! ## Changes of the tree -/

/-- The variables of a scope that fits in are among those of the others. -/
theorem known_of_push {record : ScopeRecord} (h : record.Opens w) {scope : ScopeId}
    {name : String} {id : VariableId}
    (hvar : (name, id) ∈ (({ w with scopes := w.scopes.push record } : World).scopeAt scope).vars) :
    ∃ scope, (name, id) ∈ (w.scopeAt scope).vars := by
  rw [scopeAt_push] at hvar
  split at hvar
  · exact h.known hvar
  · exact ⟨scope, hvar⟩

namespace Nested

/-- Scopes stay where they are, and they bind no variables but their own ones. -/
theorem ofSame (hw : w.Nested) (hparent : ∀ id, (v.scopeAt id).parent = (w.scopeAt id).parent)
    (hpure : ∀ id, (v.scopeAt id).pure = (w.scopeAt id).pure)
    (hvars : ∀ id, ∀ entry ∈ (v.scopeAt id).vars, entry ∈ (w.scopeAt id).vars)
    (hsize : w.vars.size ≤ v.vars.size) : v.Nested where
  parent_lt h := hw.parent_lt (hparent _ ▸ h)
  pure h habove := by
    rw [hparent] at h
    rw [hpure] at habove ⊢
    exact hw.pure h habove
  bound h := Nat.lt_of_lt_of_le (hw.bound (hvars _ _ h)) hsize
  named h h' := hw.named (hvars _ _ h) (hvars _ _ h')

theorem ofScopes (hw : w.Nested) (hs : v.scopes = w.scopes) (hsize : w.vars.size ≤ v.vars.size) :
    v.Nested := by
  have same (id : ScopeId) : v.scopeAt id = w.scopeAt id := by simp [scopeAt, hs]
  refine hw.ofSame (fun id => by rw [same]) (fun id => by rw [same]) (fun id entry h => ?_) hsize
  rwa [same] at h

theorem modifyScope (hw : w.Nested) (scope : ScopeId) {f : ScopeRecord → ScopeRecord}
    (hparent : ∀ r, (f r).parent = r.parent) (hpure : ∀ r, (f r).pure = r.pure)
    (hvars : ∀ r, ∀ entry ∈ (f r).vars, entry ∈ r.vars) : (w.modifyScope scope f).Nested := by
  refine hw.ofSame (fun id => ?_) (fun id => ?_) (fun id entry h => ?_) (Nat.le_refl _)
  · rw [scopeAt_modifyScope]
    split
    · exact hparent _
    · rfl
  · rw [scopeAt_modifyScope]
    split
    · exact hpure _
    · rfl
  · rw [scopeAt_modifyScope] at h
    split at h
    · exact hvars _ _ h
    · exact h

theorem ended (hw : w.Nested) (scope : ScopeId) : (w.modifyScope scope ScopeRecord.ended).Nested := by
  refine hw.modifyScope scope ScopeRecord.parent_ended ScopeRecord.pure_ended fun r entry h => ?_
  rcases r.vars_ended with same | none
  · rwa [same] at h
  · rw [none] at h
    cases h

/-- A scope that fits in comes to the state. -/
theorem push (hw : w.Nested) {record : ScopeRecord} (h : record.Opens w) :
    ({ w with scopes := w.scopes.push record } : World).Nested where
  parent_lt {scope above} hparent := by
    rw [scopeAt_push] at hparent
    split at hparent
    · rename_i hscope
      rw [hscope]
      exact h.parent_lt hparent
    · exact hw.parent_lt hparent
  pure {scope above} hparent hpure := by
    have older (hlt : above.index < w.scopes.size) : (w.scopeAt above).pure = true := by
      rwa [scopeAt_push, if_neg (Nat.ne_of_lt hlt)] at hpure
    rw [scopeAt_push] at hparent ⊢
    split at hparent
    · rename_i hscope
      rw [if_pos hscope]
      exact h.pure hparent (older (h.parent_lt hparent))
    · rename_i hscope
      rw [if_neg hscope]
      exact hw.pure hparent (older (Nat.lt_trans (hw.parent_lt hparent) (lt_of_parent_eq_some hparent)))
  bound hvar := (known_of_push h hvar).elim fun _ hknown => hw.bound hknown
  named hvar hvar' := by
    obtain ⟨_, hknown⟩ := known_of_push h hvar
    obtain ⟨_, hknown'⟩ := known_of_push h hvar'
    exact hw.named hknown hknown'

/-- What a scope binds after it has bound a name to a new variable. -/
theorem mem_vars_bindVariable {scope other : ScopeId} {name : String} {record : VariableRecord}
    {entry : String × VariableId} (h : entry ∈ ((w.bindVariable scope name record).scopeAt other).vars) :
    entry ∈ (w.scopeAt other).vars ∨ entry = (name, ⟨w.vars.size⟩) := by
  rw [scopeAt_bindVariable] at h
  split at h
  · exact Entries.mem_insert h
  · exact .inl h

theorem size_vars_bindVariable (w : World) (scope : ScopeId) (name : String)
    (record : VariableRecord) : (w.bindVariable scope name record).vars.size = w.vars.size + 1 := by
  simp [World.bindVariable, World.modifyScope]

/-- A scope binds a name to a new variable. -/
theorem bindVariable (hw : w.Nested) (scope : ScopeId) (name : String) (record : VariableRecord) :
    (w.bindVariable scope name record).Nested where
  parent_lt {other above} h := by
    rw [scopeAt_bindVariable] at h
    split at h <;> exact hw.parent_lt h
  pure {other above} h habove := by
    have same (id : ScopeId) : ((w.bindVariable scope name record).scopeAt id).pure =
        (w.scopeAt id).pure := by
      rw [scopeAt_bindVariable]
      split <;> rfl
    rw [same] at habove ⊢
    rw [scopeAt_bindVariable] at h
    split at h <;> exact hw.pure h habove
  bound h := by
    rw [size_vars_bindVariable]
    rcases mem_vars_bindVariable h with h | h
    · exact Nat.lt_succ_of_lt (hw.bound h)
    · cases h
      exact Nat.lt_succ_self _
  named h h' := by
    rcases mem_vars_bindVariable h with h | h
    · rcases mem_vars_bindVariable h' with h' | h'
      · exact hw.named h h'
      · cases h'
        exact absurd (hw.bound h) (Nat.lt_irrefl _)
    · cases h
      rcases mem_vars_bindVariable h' with h' | h'
      · exact absurd (hw.bound h') (Nat.lt_irrefl _)
      · cases h'
        rfl

theorem storeValue (hw : w.Nested) (id : VariableId) (value : Value) : (w.storeValue id value).Nested :=
  hw.ofScopes rfl (by simp [World.storeValue, World.modifyVariable])

/-- A scope that is there fits in once more, with the same variables or with none. -/
theorem opens (hw : w.Nested) {scope : ScopeId} (hscope : scope.index < w.scopes.size)
    {record : ScopeRecord} (hparent : record.parent = (w.scopeAt scope).parent)
    (hpure : record.pure = (w.scopeAt scope).pure)
    (hvars : ∀ entry ∈ record.vars, entry ∈ (w.scopeAt scope).vars) : record.Opens w where
  parent_lt h := Nat.lt_trans (hw.parent_lt (hparent ▸ h)) hscope
  pure h habove := hpure ▸ hw.pure (hparent ▸ h) habove
  known h := ⟨scope, hvars _ h⟩

end Nested

/-! ## Ancestors -/

/-- Steps beyond the number of the scope lead nowhere. -/
theorem Nested.ancestorsUpTo_eq (hw : w.Nested) (scope : ScopeId) {n : Nat} (hn : scope.index < n) :
    w.ancestorsUpTo n scope = w.ancestors scope := by
  induction hi : scope.index using Nat.strongRecOn generalizing scope n with
  | _ i ih =>
    subst hi
    obtain ⟨m, rfl⟩ : ∃ m, n = m + 1 := ⟨n - 1, by omega⟩
    rw [ancestors, ancestorsUpTo, ancestorsUpTo]
    cases hparent : (w.scopeAt scope).parent with
    | none => rfl
    | some above =>
      have hlt := hw.parent_lt hparent
      show scope :: w.ancestorsUpTo m above = scope :: w.ancestorsUpTo scope.index above
      rw [ih above.index hlt above (by omega) rfl, ih above.index hlt above hlt rfl]

/-- Above a scope there is the scope itself and what is above its parent. -/
theorem Nested.ancestors_eq (hw : w.Nested) (scope : ScopeId) :
    w.ancestors scope =
      scope :: (match (w.scopeAt scope).parent with
        | some above => w.ancestors above
        | none => []) := by
  rw [ancestors, ancestorsUpTo]
  cases hparent : (w.scopeAt scope).parent with
  | none => rfl
  | some above => exact congrArg (scope :: ·) (hw.ancestorsUpTo_eq above (hw.parent_lt hparent))

/-- What is above a scope depends on parents of older scopes only. -/
theorem Nested.ancestors_of_older (hw : w.Nested) {scope : ScopeId}
    (h : ∀ id, id.index ≤ scope.index → (v.scopeAt id).parent = (w.scopeAt id).parent) :
    v.ancestors scope = w.ancestors scope := by
  unfold ancestors
  generalize scope.index + 1 = n
  induction n generalizing scope with
  | zero => rfl
  | succ n ih =>
    rw [ancestorsUpTo, ancestorsUpTo, h scope (Nat.le_refl _)]
    cases hparent : (w.scopeAt scope).parent with
    | none => rfl
    | some above =>
      have hlt := hw.parent_lt hparent
      exact congrArg (scope :: ·) (ih fun id hid => h id (by omega))

theorem Nested.ancestors_push_of_lt (hw : w.Nested) {record : ScopeRecord} {scope : ScopeId}
    (h : scope.index < w.scopes.size) :
    ({ w with scopes := w.scopes.push record } : World).ancestors scope = w.ancestors scope := by
  refine hw.ancestors_of_older fun id hid => ?_
  rw [scopeAt_push, if_neg (by omega)]

/-- Above a scope that has come to the state there is what is above its parent. -/
theorem Nested.ancestors_push (hw : w.Nested) {record : ScopeRecord} (hopens : record.Opens w)
    {scope above : ScopeId} (hparent : record.parent = some above)
    (h : scope.index = w.scopes.size) :
    ({ w with scopes := w.scopes.push record } : World).ancestors scope =
      scope :: w.ancestors above := by
  rw [(hw.push hopens).ancestors_eq, scopeAt_push, if_pos h, hparent]
  exact congrArg (scope :: ·) (hw.ancestors_push_of_lt (hopens.parent_lt hparent))

theorem Nested.mem_ancestors_iff (hw : w.Nested) {top scope : ScopeId} :
    top ∈ w.ancestors scope ↔
      top = scope ∨ ∃ above, (w.scopeAt scope).parent = some above ∧ top ∈ w.ancestors above := by
  rw [hw.ancestors_eq]
  cases (w.scopeAt scope).parent with
  | none => simp
  | some above => simp

/-- What holds of a scope and goes on from parents to children holds of all that is below it. -/
theorem Nested.of_mem_ancestors (hw : w.Nested) {p : ScopeId → Prop} {top scope : ScopeId}
    (h : top ∈ w.ancestors scope) (htop : p top)
    (hstep : ∀ {scope above}, (w.scopeAt scope).parent = some above → p above → p scope) :
    p scope := by
  induction hi : scope.index using Nat.strongRecOn generalizing scope with
  | _ i ih =>
    subst hi
    rcases hw.mem_ancestors_iff.1 h with rfl | ⟨above, hparent, h⟩
    · exact htop
    · exact hstep hparent (ih above.index (hw.parent_lt hparent) h rfl)

/-- Below a pure scope there are only pure ones. -/
theorem Nested.pure_of_mem_ancestors (hw : w.Nested) {top scope : ScopeId}
    (h : top ∈ w.ancestors scope) (hpure : (w.scopeAt top).pure = true) :
    (w.scopeAt scope).pure = true :=
  hw.of_mem_ancestors h hpure hw.pure

/-! ## Names -/

/-- A name that is found stands for a variable of a scope above. -/
theorem of_findVariable? {scope owner : ScopeId} {name : String} {id : VariableId}
    (h : w.findVariable? scope name = some (owner, id)) :
    owner ∈ w.ancestors scope ∧ (name, id) ∈ (w.scopeAt owner).vars := by
  obtain ⟨above, habove, hfound⟩ := List.exists_of_findSome?_eq_some h
  obtain ⟨found, hget, heq⟩ := Option.map_eq_some_iff.1 hfound
  cases heq
  exact ⟨habove, Entries.mem_of_get?_eq_some hget⟩

/-- A parameter that is found belongs to a scope above. -/
theorem of_findParameter? {scope : ScopeId} {key : String} {value : Value}
    (h : w.findParameter? scope key = some value) :
    ∃ above ∈ w.ancestors scope, (key, value) ∈ (w.scopeAt above).parameters := by
  unfold findParameter? at h
  obtain ⟨above, habove, hfound⟩ := List.exists_of_findSome?_eq_some h
  refine ⟨above, ?_, Entries.mem_of_get?_eq_some hfound⟩
  split at habove
  · exact (List.mem_filter.1 (List.mem_of_mem_take habove)).1
  · exact (List.mem_filter.1 habove).1

end World

end Reactor
