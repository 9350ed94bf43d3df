import Reactor.Proofs.Network.Names
import Reactor.Proofs.Variables.Terms

/-!
# What a name means in a scope

A name means the variable of the nearest scope that declares it (`World.Nearest`). In a state whose
scopes make a tree this is what `World.findVariable?` finds (`World.Nested.findVariable?_eq_some_iff`),
and reading the name, asking for it and following it go by that variable.

`World.Stands` says that scopes stay where they are, with the same parameters. What names mean changes
then only where scopes bind them to other variables.
-/

namespace Reactor

/-- A search depends on what it finds among the elements only. -/
theorem findSome?_congr {α β : Type} {f g : α → Option β} {items : List α}
    (h : ∀ x ∈ items, f x = g x) : items.findSome? f = items.findSome? g := by
  induction items with
  | nil => rfl
  | cons x xs ih =>
    rw [List.findSome?_cons, List.findSome?_cons, h x List.mem_cons_self,
      ih fun y hy => h y (List.mem_cons_of_mem _ hy)]

namespace World

variable {w v : World} {scope owner : ScopeId} {name : String} {id : VariableId}

/-! ## The nearest declaration -/

/-- The nearest scope that declares a name, from a scope upwards, and the variable that it declares. -/
inductive Nearest (w : World) (name : String) : ScopeId → ScopeId → VariableId → Prop
  | here {scope : ScopeId} {id : VariableId} (h : w.own? scope name = some id) :
    Nearest w name scope scope id
  | above {scope parent owner : ScopeId} {id : VariableId} (h : w.own? scope name = none)
    (hparent : (w.scopeAt scope).parent = some parent) (h' : Nearest w name parent owner id) :
    Nearest w name scope owner id

/-- A name is looked up in the scope itself, then from its parent on. -/
theorem Nested.findVariable?_eq (hw : w.Nested) (scope : ScopeId) (name : String) :
    w.findVariable? scope name =
      match w.own? scope name with
      | some id => some (scope, id)
      | none =>
        match (w.scopeAt scope).parent with
        | some parent => w.findVariable? parent name
        | none => none := by
  rw [findVariable?, hw.ancestors_eq, List.findSome?_cons]
  unfold own?
  cases Entries.get? (w.scopeAt scope).vars name with
  | some id => rfl
  | none =>
    cases (w.scopeAt scope).parent with
    | some parent => rfl
    | none => rfl

/-- What is found is the nearest declaration. -/
theorem Nested.findVariable?_eq_some_iff (hw : w.Nested) :
    w.findVariable? scope name = some (owner, id) ↔ w.Nearest name scope owner id := by
  constructor
  · intro h
    induction hi : scope.index using Nat.strongRecOn generalizing scope with
    | _ i ih =>
      subst hi
      rw [hw.findVariable?_eq] at h
      cases hown : w.own? scope name with
      | some found =>
        rw [hown] at h
        cases h
        exact .here hown
      | none =>
        rw [hown] at h
        cases hparent : (w.scopeAt scope).parent with
        | none =>
          rw [hparent] at h
          cases h
        | some parent =>
          rw [hparent] at h
          exact .above hown hparent (ih parent.index (hw.parent_lt hparent) h rfl)
  · intro h
    induction h with
    | here hown => rw [hw.findVariable?_eq, hown]
    | above hown hparent _ ih =>
      rw [hw.findVariable?_eq, hown, hparent]
      exact ih

/-- Nothing is found if no scope from here upwards declares the name. -/
theorem findVariable?_eq_none_iff :
    w.findVariable? scope name = none ↔ ∀ above ∈ w.ancestors scope, w.own? above name = none := by
  rw [findVariable?, List.findSome?_eq_none_iff]
  exact forall₂_congr fun above _ => Option.map_eq_none_iff

theorem own?_of_findVariable? (h : w.findVariable? scope name = some (owner, id)) :
    owner ∈ w.ancestors scope ∧ w.own? owner name = some id := by
  obtain ⟨above, habove, hfound⟩ := List.exists_of_findSome?_eq_some h
  obtain ⟨found, hget, heq⟩ := Option.map_eq_some_iff.1 hfound
  cases heq
  exact ⟨habove, hget⟩

/-- Scopes above a scope are not younger. -/
theorem Nested.index_le (hw : w.Nested) {above : ScopeId} (h : above ∈ w.ancestors scope) :
    above.index ≤ scope.index := by
  induction hi : scope.index using Nat.strongRecOn generalizing scope with
  | _ i ih =>
    subst hi
    rcases hw.mem_ancestors_iff.1 h with rfl | ⟨parent, hparent, h⟩
    · exact Nat.le_refl _
    · have hlt := hw.parent_lt hparent
      exact Nat.le_trans (ih parent.index hlt h rfl) (Nat.le_of_lt hlt)

/-! ## Reading a name -/

/-- A scope that may read the variable gives its value. -/
theorem look_of_found (hname : isPositional name = false) (halive : (w.scopeAt scope).destroyed = false)
    (h : w.findVariable? scope name = some (owner, id))
    (hread : (w.scopeAt scope).pure = false ∨ (w.variableAt id).isPureReadable = true) (must : Bool) :
    w.look scope name must = .ok (w.variableAt id).value := by
  have readable : ((w.scopeAt scope).pure && !(w.variableAt id).isPureReadable) = false := by
    rcases hread with h | h <;> simp [h]
  rw [look, halive, if_neg Bool.false_ne_true, hname, if_neg Bool.false_ne_true, h]
  dsimp only
  rw [readable, if_neg Bool.false_ne_true]

/-- What is found for a parameter depends on the parameters of the scopes above. -/
theorem findParameter?_of_ancestors (hancestors : v.ancestors scope = w.ancestors scope)
    (h : ∀ above ∈ w.ancestors scope,
      (v.scopeAt above).parameterScope = (w.scopeAt above).parameterScope ∧
        (v.scopeAt above).parameters = (w.scopeAt above).parameters) (key : String) :
    v.findParameter? scope key = w.findParameter? scope key := by
  have scopes : v.parameterScopes scope = w.parameterScopes scope := by
    rw [parameterScopes, parameterScopes, hancestors]
    exact List.filter_congr fun above habove => (h above habove).1
  rw [findParameter?, findParameter?, scopes]
  refine findSome?_congr fun above habove => ?_
  have hmem : above ∈ w.parameterScopes scope := by
    split at habove
    · exact List.mem_of_mem_take habove
    · exact habove
  rw [(h above (List.mem_filter.1 hmem).1).2]

/-! ## Scopes that stay where they are -/

/-- Scopes stay where they are, with the same parameters. They may bind other variables and be listened
to by others. -/
structure Stands (w v : World) : Prop where
  size : w.scopes.size ≤ v.scopes.size
  scope {scope : ScopeId} (h : scope.index < w.scopes.size) :
    v.scopeAt scope = { w.scopeAt scope with
      vars := (v.scopeAt scope).vars
      listeners := (v.scopeAt scope).listeners }

namespace Stands

variable (h : w.Stands v) (hw : w.Nested) (hs : scope.index < w.scopes.size)
include h hw hs

theorem ancestors : v.ancestors scope = w.ancestors scope :=
  hw.ancestors_of_older fun id hid => by rw [h.scope (Nat.lt_of_le_of_lt hid hs)]

theorem scope_of_mem {above : ScopeId} (habove : above ∈ w.ancestors scope) :
    v.scopeAt above = { w.scopeAt above with
      vars := (v.scopeAt above).vars
      listeners := (v.scopeAt above).listeners } :=
  h.scope (Nat.lt_of_le_of_lt (hw.index_le habove) hs)

theorem findVariable? (hown : ∀ above ∈ w.ancestors scope, v.own? above name = w.own? above name) :
    v.findVariable? scope name = w.findVariable? scope name := by
  rw [World.findVariable?, World.findVariable?, h.ancestors hw hs]
  refine findSome?_congr fun above habove => ?_
  exact congrArg (Option.map fun found => (above, found)) (hown above habove)

theorem parameterScopes : v.parameterScopes scope = w.parameterScopes scope := by
  rw [World.parameterScopes, World.parameterScopes, h.ancestors hw hs]
  refine List.filter_congr fun above habove => ?_
  rw [h.scope_of_mem hw hs habove]

theorem parameters_of_mem {above : ScopeId} (habove : above ∈ w.parameterScopes scope) :
    (v.scopeAt above).parameters = (w.scopeAt above).parameters := by
  rw [h.scope_of_mem hw hs (List.mem_filter.1 habove).1]

theorem findParameter? (key : String) : v.findParameter? scope key = w.findParameter? scope key := by
  refine findParameter?_of_ancestors (h.ancestors hw hs) (fun above habove => ?_) key
  rw [h.scope_of_mem hw hs habove]
  exact ⟨rfl, rfl⟩

theorem parameters : v.parameters scope = w.parameters scope := by
  rw [World.parameters, World.parameters, h.parameterScopes hw hs]
  cases hscopes : w.parameterScopes scope with
  | nil => rfl
  | cons above rest =>
    dsimp only
    rw [h.parameters_of_mem hw hs (hscopes ▸ List.mem_cons_self)]

end Stands

end World

end Reactor
