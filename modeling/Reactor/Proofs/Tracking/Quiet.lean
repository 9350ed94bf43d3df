import Reactor.Proofs.Names.Written
import Reactor.Proofs.Tracking.Silence

/-!
# States without callbacks

`World.Quiet` says that nothing but the engine itself runs when a variable changes: no lambda has a callback,
nobody handles errors, and variables hold plain values under conditions that are not deferred. All changes of
scopes and variables keep it.

What a name means from a scope stays the same (`World.MeansSame`) when another scope is made
(`World.meansSame_push`), when a scope that is not asked for it is emptied (`World.meansSame_emptied`), and
beside what has been written (`World.Wrote.heard`).
-/

namespace Reactor

namespace World

/-- No lambda has a callback, nobody handles errors, and variables and parameters hold plain values, under
conditions that are not deferred. -/
structure Quiet (w : World) : Prop where
  nested : w.Nested
  silent : w.Silent
  handlers (scope : ScopeId) : (w.scopeAt scope).handlers = []
  plain (id : VariableId) : (w.variableAt id).value.Plain
  condition (id : VariableId) {c : Constraint} (hc : (w.variableAt id).constraint = some c) :
    c.predicate.Plain
  parameter (scope : ScopeId) {key : String} {value : Value}
    (h : Entries.get? (w.scopeAt scope).parameters key = some value) : value.Plain

variable {u v w : World} {scope owner reader : ScopeId} {name : String} {id : VariableId} {x : Value}

namespace Quiet

variable (hw : w.Quiet)
include hw

/-- A scope that lives may be read. -/
theorem readable (halive : (w.scopeAt scope).destroyed = false) : w.Readable scope where
  alive := halive
  unhandled _ := hw.handlers _
  bound h := hw.nested.bound (of_findVariable? h).2
  plain _ := hw.plain _
  condition _ _ hc := hw.condition _ hc
  distinct h h' := hw.nested.named (of_findVariable? h).2 (of_findVariable? h').2
  parameter h := by
    obtain ⟨above, -, found⟩ := List.exists_of_findSome?_eq_some h
    exact hw.parameter above found

/-- Scopes may be followed by others. -/
theorem ofScopes (silent : v.Silent) (hscope : ∀ scope, v.scopeAt scope =
      { w.scopeAt scope with listeners := (v.scopeAt scope).listeners })
    (hvars : v.vars = w.vars) : v.Quiet where
  nested := hw.nested.ofSame (fun id => by rw [hscope]) (fun id => by rw [hscope])
    (fun id entry h => by rwa [hscope] at h) (Nat.le_of_eq (congrArg Array.size hvars.symm))
  silent := silent
  handlers scope := by
    rw [hscope]
    exact hw.handlers scope
  plain id := by
    rw [variableAt, hvars]
    exact hw.plain id
  condition id c hc := by
    rw [variableAt, hvars] at hc
    exact hw.condition id hc
  parameter scope key value h := by
    rw [hscope] at h
    exact hw.parameter scope h

theorem recached (h : w.Recached v) : v.Quiet := by
  refine hw.ofScopes ⟨fun k => ?_, fun k => ?_⟩ (fun scope => ?_) h.vars
  · rw [callbacks, h.record k]
    exact hw.silent.callbacks k
  · rw [h.record k]
    exact hw.silent.notified k
  · rw [scopeAt_congr h.scopes]

theorem storeValue (hx : x.Plain) (id : VariableId) : (w.storeValue id x).Quiet where
  nested := hw.nested.storeValue id x
  silent := ⟨hw.silent.callbacks, hw.silent.notified⟩
  handlers := hw.handlers
  plain other := by
    rw [World.storeValue, variableAt_modifyVariable]
    split
    · exact hx
    · exact hw.plain other
  condition other c hc := by
    rw [World.storeValue, variableAt_modifyVariable] at hc
    split at hc
    · exact hw.condition other hc
    · exact hw.condition other hc
  parameter := hw.parameter

theorem bindVariable {record : VariableRecord} (hx : record.value.Plain)
    (hc : ∀ c, record.constraint = some c → c.predicate.Plain) (scope : ScopeId) (name : String) :
    (w.bindVariable scope name record).Quiet where
  nested := hw.nested.bindVariable scope name record
  silent := ⟨hw.silent.callbacks, hw.silent.notified⟩
  handlers other := by
    rw [scopeAt_bindVariable]
    split
    · exact hw.handlers other
    · exact hw.handlers other
  plain other := by
    rw [variableAt_bindVariable]
    split
    · exact hx
    · exact hw.plain other
  condition other c hcond := by
    rw [variableAt_bindVariable] at hcond
    split at hcond
    · exact hc c hcond
    · exact hw.condition other hcond
  parameter other key value h := by
    rw [scopeAt_bindVariable] at h
    split at h
    · exact hw.parameter other h
    · exact hw.parameter other h

theorem emptied (scope : ScopeId) : (w.modifyScope scope ScopeRecord.emptied).Quiet where
  nested := hw.nested.modifyScope scope (fun _ => rfl) (fun _ => rfl) fun _ _ h => nomatch h
  silent := ⟨hw.silent.callbacks, hw.silent.notified⟩
  handlers other := by
    rw [scopeAt_modifyScope]
    split
    · rfl
    · exact hw.handlers other
  plain := hw.plain
  condition := hw.condition
  parameter other key value h := by
    rw [scopeAt_modifyScope] at h
    split at h
    · cases h
    · exact hw.parameter other h

theorem push {record : ScopeRecord} (hopens : record.Opens w) (hhandlers : record.handlers = [])
    (hparameters : ∀ {key value}, Entries.get? record.parameters key = some value → value.Plain) :
    ({ w with scopes := w.scopes.push record } : World).Quiet where
  nested := hw.nested.push hopens
  silent := ⟨hw.silent.callbacks, hw.silent.notified⟩
  handlers other := by
    rw [scopeAt_push]
    split
    · exact hhandlers
    · exact hw.handlers other
  plain := hw.plain
  condition := hw.condition
  parameter other key value h := by
    rw [scopeAt_push] at h
    split at h
    · exact hparameters h
    · exact hw.parameter other h

end Quiet

/-! ## What names mean after a change -/

theorem followersAt_bindVariable (w : World) (scope other : ScopeId) (name key : String)
    (record : VariableRecord) :
    (w.bindVariable scope name record).followersAt other key = w.followersAt other key := by
  rw [followersAt, followersAt, scopeAt_bindVariable]
  split <;> rfl

theorem Recached.keeps (h : w.Recached v) : w.Keeps v where
  scopes := Nat.le_of_eq (congrArg Array.size h.scopes.symm)
  scope _ := scopeAt_congr h.scopes _
  vars := Nat.le_of_eq (congrArg Array.size h.vars.symm)
  record _ := by rw [variableAt, variableAt, h.vars]

/-- Where no scope has changed names mean the same. -/
theorem Stands.meansSame_of_own (h : w.Stands v) (hn : w.Nested) (hr : reader.index < w.scopes.size)
    (hown : ∀ scope : ScopeId, scope.index < w.scopes.size → v.own? scope name = w.own? scope name)
    (hvars : v.vars = w.vars) : w.MeansSame v reader name := by
  refine h.meansSame hn hr (h.findVariable? hn hr fun above habove => ?_) fun _ id _ => ?_
  · exact hown above (Nat.lt_of_le_of_lt (hn.index_le habove) hr)
  · rw [variableAt, variableAt, hvars]

theorem Recached.meansSame (h : w.Recached v) (hn : w.Nested) (hr : reader.index < w.scopes.size) :
    w.MeansSame v reader name :=
  h.keeps.stands.meansSame_of_own hn hr (fun _ hs => h.keeps.own? hs name) h.vars

/-- A new scope changes no name from those that were there. -/
theorem meansSame_push (hn : w.Nested) (record : ScopeRecord) (hr : reader.index < w.scopes.size) :
    w.MeansSame { w with scopes := w.scopes.push record } reader name := by
  have same {scope : ScopeId} (hs : scope.index < w.scopes.size) :
      ({ w with scopes := w.scopes.push record } : World).scopeAt scope = w.scopeAt scope := by
    rw [scopeAt_push, if_neg (Nat.ne_of_lt hs)]
  have stands : w.Stands { w with scopes := w.scopes.push record } := by
    refine ⟨?_, fun hs => by rw [same hs]⟩
    exact Nat.le_trans (Nat.le_succ _) (Nat.le_of_eq (Array.size_push _).symm)
  exact stands.meansSame_of_own hn hr (fun scope hs => by rw [own?, same hs]; rfl) rfl

/-- After a write the name may be followed by others. -/
theorem Wrote.heard (h : w.Wrote u owner name id x) (hv : u.Heard scope name v) :
    w.Wrote v owner name id x := by
  have own (scope : ScopeId) (key : String) : v.own? scope key = u.own? scope key := by
    rw [own?, own?, hv.scope]
  have variableAt (j : VariableId) : v.variableAt j = u.variableAt j := by
    rw [hv.rest]
    rfl
  refine ⟨⟨?_, fun hs => ?_⟩, fun hs hne => (own ..).trans (h.own hs hne), (own ..).trans h.bound, ?_,
    fun hj hne => (variableAt _).trans (h.others hj hne)⟩
  · exact Nat.le_trans h.stands.size (Nat.le_of_eq hv.scopes.symm)
  · rw [hv.scope, h.stands.scope hs]
  · rw [variableAt]
    exact h.value

section Emptied

variable (hn : w.Nested)
include hn

omit hn in
theorem own?_emptied (hr : reader.index < w.scopes.size) :
    (w.modifyScope scope ScopeRecord.emptied).own? reader name =
      if scope = reader then none else w.own? reader name := by
  rw [own?, scopeAt_modifyScope]
  by_cases hs : scope = reader
  · rw [if_pos ⟨hs, hr⟩, if_pos hs]
    rfl
  · rw [if_neg fun h => hs h.1, if_neg hs]
    rfl

/-- Where a name is found in another scope it is still found. -/
theorem find_emptied (hr : reader.index < w.scopes.size)
    (h : ∀ owner id, w.findVariable? reader name = some (owner, id) → owner ≠ scope) :
    (w.modifyScope scope ScopeRecord.emptied).findVariable? reader name =
      w.findVariable? reader name := by
  have parent (other : ScopeId) : ((w.modifyScope scope ScopeRecord.emptied).scopeAt other).parent =
      (w.scopeAt other).parent := by
    rw [scopeAt_modifyScope]
    split <;> rfl
  have nested := hn.modifyScope scope (f := ScopeRecord.emptied) (fun _ => rfl) (fun _ => rfl)
    fun _ _ h => nomatch h
  induction hi : reader.index using Nat.strongRecOn generalizing reader with
  | _ i ih =>
    subst hi
    have hfind := hn.findVariable?_eq reader name
    rw [nested.findVariable?_eq, own?_emptied hr, parent, hfind]
    cases hown : w.own? reader name with
    | some id =>
      rw [hown] at hfind
      rw [if_neg fun hs => h reader id hfind hs.symm]
    | none =>
      rw [ite_self]
      cases hparent : (w.scopeAt reader).parent with
      | none => rfl
      | some above =>
        rw [hown, hparent] at hfind
        have hlt := hn.parent_lt hparent
        exact ih above.index hlt (Nat.lt_trans hlt hr) (fun o id hfound => h o id (hfind.trans hfound)) rfl

/-- A name means the same if it is found in another scope, or if the emptied scope is not above. -/
theorem meansSame_emptied (hr : reader.index < w.scopes.size)
    (elsewhere : ∀ owner id, w.findVariable? reader name = some (owner, id) → owner ≠ scope)
    (aside : isPositional name = true ∨ w.findVariable? reader name = none →
      scope ∉ w.ancestors reader) :
    w.MeansSame (w.modifyScope scope ScopeRecord.emptied) reader name := by
  refine .of_find ?_ (find_emptied hn hr elsewhere) (fun _ _ _ => rfl) fun hp => ?_
  · rw [scopeAt_modifyScope]
    split <;> rfl
  · refine findParameter?_of_ancestors (ancestors_of_parents (fun other => ?_) reader)
      (fun above habove => ?_) name
    · rw [scopeAt_modifyScope]
      split <;> rfl
    · have hne : scope ≠ above := fun hs => aside hp (hs ▸ habove)
      rw [scopeAt_modifyScope, if_neg fun found => hne found.1]
      exact ⟨rfl, rfl⟩

end Emptied

end World

end Reactor
