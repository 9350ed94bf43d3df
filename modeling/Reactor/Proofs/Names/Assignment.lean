import Reactor.Proofs.Names.Written

/-!
# What an assignment changes

A name is read, asked for, followed and assigned at the nearest scope that declares it. An assignment
overwrites the variable that the name means, or it extends the scope itself, and changes nothing else
(`ScopeId.names_mean_nearest`). Scopes are a tree in every state that a session can reach
(`Session.Reachable.nested`).
-/

namespace Reactor

namespace ScopeId

open World

variable {between : World → World → Prop} {budget : Nat} {thread : Thread} {ctx : Context}
  {scope owner : ScopeId} {name : String} {id : VariableId} {value x : Value} {u v w : World}

theorem alive_of_set (h : (scope.set name value ctx w).Reaches between (.value x v)) :
    (w.scopeAt scope).destroyed = false ∧ isPositional name = false := by
  unfold ScopeId.set at h
  obtain ⟨_, u, alive, h⟩ := Eval.reaches_bind_value h
  rcases checkAlive_cases scope ctx w with ⟨e, run⟩ | ⟨halive, -⟩
  · rw [run] at alive
    cases alive
  · cases hp : isPositional name with
    | false => exact ⟨halive, rfl⟩
    | true =>
      rw [hp] at h
      cases h

/-- A scope that does not declare the name has no constraint to check. -/
theorem keeps_of_propose {proposal : Proposal} (hvalue : value.Plain)
    (halive : (w.scopeAt scope).destroyed = false) (hname : isPositional name = false)
    (hown : w.own? scope name = none)
    (h : (scope.propose name value {} (.ofBudget budget thread) w).Reaches between
      (.value proposal u)) : w.Keeps u := by
  have hget : Entries.get? (w.scopeAt scope).vars name = none := hown
  unfold propose at h
  rw [Eval.bind_apply, checkAlive_apply halive, Outcome.bind_value, hname, if_neg nofun,
    Eval.bind_apply] at h
  rcases declaredFlags_cases scope name (.ofBudget budget thread) w {} with ⟨e, run⟩ | ⟨flags, -, run⟩
  · rw [run] at h
    cases h
  · rw [run, Outcome.bind_value, Eval.bind_apply, Eval.gets_apply, Outcome.bind_value, hget,
      Option.map_none, Eval.bind_apply] at h
    change ((Eval.holding _ _ : Eval Proposal) _ w).Reaches between _ at h
    rw [Eval.holding_apply, Context.ofBudget_withThread] at h
    obtain ⟨stored, u', stored, h⟩ := Eval.reaches_bind_value h
    cases h
    exact keeps_of_storable halive hvalue (fun _ hc => by cases hc) stored

section Set

variable (hw : w.Nested) (hvalue : value.Plain)
  (h : (scope.set name value (.ofBudget budget thread) w).Reaches between (.value x v))
include hw hvalue h

/-- An assignment of a name that means a variable stores the value in it. -/
theorem wrote_of_assign (hfound : w.findVariable? scope name = some (owner, id))
    (hfree : w.followersAt owner name = [])
    (hc : ∀ c, (w.variableAt id).constraint = some c → c.Harmless between w) :
    w.Wrote v owner name id x ∧ v.variableAt id = { w.variableAt id with value := x } := by
  obtain ⟨halive, hname⟩ := alive_of_set h
  obtain ⟨hmem, hown⟩ := own?_of_findVariable? hfound
  have hlt : owner.index < w.scopes.size :=
    Nat.lt_of_le_of_lt (hw.index_le hmem) (lt_of_alive halive)
  have hid := hw.bound (Entries.mem_of_get?_eq_some hown)
  unfold ScopeId.set at h
  rw [Eval.bind_apply, checkAlive_apply halive, Outcome.bind_value, hname, if_neg nofun,
    Eval.bind_apply, Eval.gets_apply, Outcome.bind_value, hfound] at h
  unfold ScopeId.assign at h
  obtain ⟨stored, u, proposed, h⟩ := Eval.reaches_bind_value h
  have kept : w.Keeps u := by
    rcases proposeValue_cases scope name (.ofBudget budget thread) w owner id value with
      ⟨e, run⟩ | ⟨-, -, run⟩
    · rw [run] at proposed
      cases proposed
    · rw [run, Eval.holding_apply, Context.ofBudget_withThread] at proposed
      exact keeps_of_storable halive hvalue hc proposed
  have free : (u.storeValue id stored).followersAt owner name = [] := by
    rw [followersAt, World.storeValue, scopeAt_modifyVariable, kept.scope hlt]
    exact hfree
  rw [Eval.bind_apply, Eval.modify_apply, Outcome.bind_value, Eval.bind_apply, Eval.holding_apply,
    notify_of_no_followers free, Outcome.bind_value] at h
  cases h
  refine ⟨(Wrote.ofStore hw kept hown hlt).forget, ?_⟩
  rw [forget, variableAt_modifyScope, World.storeValue, variableAt_modifyVariable,
    if_pos ⟨rfl, Nat.lt_of_lt_of_le hid kept.vars⟩, kept.record hid]

omit hw in
/-- An assignment of a name that means nothing binds it to a new variable. -/
theorem wrote_of_new (hnone : w.findVariable? scope name = none)
    (hfree : w.followersAt scope name = []) :
    ∃ id, w.vars.size ≤ id.index ∧ w.Wrote v scope name id x := by
  obtain ⟨halive, hname⟩ := alive_of_set h
  have hlt := lt_of_alive halive
  unfold ScopeId.set at h
  rw [Eval.bind_apply, checkAlive_apply halive, Outcome.bind_value, hname, if_neg nofun,
    Eval.bind_apply, Eval.gets_apply, Outcome.bind_value, hnone] at h
  unfold ScopeId.declare at h
  obtain ⟨proposal, u, proposed, h⟩ := Eval.reaches_bind_value h
  have hown := findVariable?_eq_none_iff.1 hnone scope (w.mem_ancestors_self scope)
  have kept : w.Keeps u := keeps_of_propose hvalue halive hname hown proposed
  have free : (u.bindVariable scope name proposal.record).followersAt scope name = [] := by
    rw [followersAt, scopeAt_bindVariable, if_pos ⟨rfl, Nat.lt_of_lt_of_le hlt kept.scopes⟩,
      kept.scope hlt]
    exact hfree
  rw [Eval.bind_apply, Eval.modify_apply, Outcome.bind_value, Eval.bind_apply, Eval.holding_apply,
    notify_of_no_followers free, Outcome.bind_value] at h
  cases h
  exact ⟨⟨u.vars.size⟩, kept.vars, (Wrote.ofBind kept hlt rfl).forget⟩

end Set

/-- A lambda that listens to a name follows it at the scope that declares the name. -/
theorem followed_of_listen {listener : Value} {lambda : LambdaId}
    (halive : (w.scopeAt scope).destroyed = false) (hlt : owner.index < w.scopes.size)
    (hfound : w.findVariable? scope name = some (owner, id)) (hl : listener.lambda? = some lambda)
    (ctx : Context) :
    ∃ v, scope.listen name listener ctx w = .value () v ∧ w.Followed v owner name lambda := by
  refine ⟨w.modifyScope owner fun record => record.followedBy name lambda, ?_, ?_⟩
  · unfold listen
    rw [Eval.bind_apply, checkAlive_apply halive, Outcome.bind_value, hl]
    dsimp only
    rw [Eval.bind_apply, Eval.gets_apply, Outcome.bind_value, hfound]
    rfl
  · have at_owner : (w.modifyScope owner fun record => record.followedBy name lambda).scopeAt owner =
        (w.scopeAt owner).followedBy name lambda := by
      rw [scopeAt_modifyScope, if_pos ⟨rfl, hlt⟩]
    refine ⟨?_, ?_, fun {reader other} hne => ?_, fun reader => ?_, rfl⟩
    · rw [followersAt, at_owner]
      exact ScopeRecord.mem_followedBy ..
    · rw [followersAt, followersAt, at_owner, ScopeRecord.get?_followedBy]
      split
      · exact List.prefix_rfl
      · exact List.prefix_append _ _
    · unfold followersAt
      rw [scopeAt_modifyScope]
      split
      · rename_i found
        rw [ScopeRecord.get?_followedBy_of_ne]
        exact hne.resolve_left fun h => h found.1.symm
      · rfl
    · rw [scopeAt_modifyScope]
      split
      · exact ScopeRecord.followedBy_eq _ name lambda
      · rfl

/-- What is asked of names is asked of the nearest scope that declares the name. An assignment changes
what the name means where it means the variable that is written, and nothing else. -/
theorem names_mean_nearest (hw : w.Nested) (halive : (w.scopeAt scope).destroyed = false)
    (hname : isPositional name = false) :
    (∀ owner id, w.Nearest name scope owner id →
      ((w.scopeAt scope).pure = false ∨ (w.variableAt id).isPureReadable = true →
        w.Shows scope name (w.variableAt id).value) ∧
      w.hasName scope name = true ∧
      ∀ listener lambda ctx, listener.lambda? = some lambda →
        ∃ v, scope.listen name listener ctx w = .value () v ∧ w.Followed v owner name lambda) ∧
    ∀ between budget thread value x v, value.Plain → w.followers scope name = [] →
      (∀ owner id c, w.Nearest name scope owner id → (w.variableAt id).constraint = some c →
        c.Harmless between w) →
      (scope.set name value (.ofBudget budget thread) w).Reaches between (.value x v) →
      w.Framed v name ∧
      (∀ owner id, w.Nearest name scope owner id → w.Overwritten v name id x) ∧
      ((∀ owner id, ¬ w.Nearest name scope owner id) → w.Extended v scope name x) := by
  refine ⟨fun owner id hn => ?_, fun between budget thread value x v hvalue hfree hc run => ?_⟩
  · have hfound := hw.findVariable?_eq_some_iff.2 hn
    have hlt := Nat.lt_of_le_of_lt (hw.index_le (own?_of_findVariable? hfound).1) (lt_of_alive halive)
    refine ⟨fun hread => shows_of_found hname halive hfound hread, ?_, fun listener lambda ctx hl => ?_⟩
    · rw [hasName, hfound]
      rfl
    · exact followed_of_listen halive hlt hfound hl ctx
  · cases hfound : w.findVariable? scope name with
    | none =>
      have home : w.home scope name = scope := by rw [World.home, hfound]; rfl
      rw [followers_eq, home] at hfree
      obtain ⟨id, fresh, wrote⟩ := wrote_of_new hvalue run hfound hfree
      have hnot : ∀ owner id, ¬ w.Nearest name scope owner id := fun owner id hn => by
        rw [hw.findVariable?_eq_some_iff.2 hn] at hfound
        cases hfound
      refine ⟨wrote.framed hw (.inr fresh), fun owner id hn => (hnot owner id hn).elim, fun _ => ?_⟩
      exact wrote.extended hw hname hfound fresh
    | some found =>
      obtain ⟨owner, id⟩ := found
      have home : w.home scope name = owner := by rw [World.home, hfound]; rfl
      rw [followers_eq, home] at hfree
      have hn := hw.findVariable?_eq_some_iff.1 hfound
      obtain ⟨wrote, stored⟩ := wrote_of_assign hw hvalue run hfound hfree fun c => hc owner id c hn
      have hown := (own?_of_findVariable? hfound).2
      refine ⟨wrote.framed hw (.inl hown), fun owner' id' hn' => ?_, fun hnot => (hnot owner id hn).elim⟩
      rw [hw.findVariable?_eq_some_iff.2 hn'] at hfound
      cases hfound
      exact wrote.overwritten hw hname hown stored

end ScopeId

/-- A scope that declares a name under a condition, a scope below it and a copy of it. -/
def World.ofCopies : World :=
  let root : ScopeRecord :=
    { name := "root", parent := none, source := default, pure := false, vars := [("x", ⟨0⟩)] }
  { scopes := #[root, { root with name := "child", parent := some ⟨0⟩, vars := [] },
      { root with name := "copy" }]
    vars := #[{ value := .integer 1, flags := {}, thread := default
                constraint := some { predicate := .lambda ⟨0⟩, source := "holds" } }]
    lambdas := #[{ operation := "holds", source := default, scope := ⟨0⟩, inputs := []
                   body := .script (.boolean true), fixable := true }] }

theorem World.scopeAt_ofCopies (scope : ScopeId) :
    scope = ⟨0⟩ ∨ scope = ⟨1⟩ ∨ scope = ⟨2⟩ ∨ ofCopies.scopeAt scope = default := by
  obtain ⟨i⟩ := scope
  match i with
  | 0 => exact .inl rfl
  | 1 => exact .inr (.inl rfl)
  | 2 => exact .inr (.inr (.inl rfl))
  | i + 3 => exact .inr (.inr (.inr (scopeAt_of_le (Nat.le_add_left 3 i))))

theorem World.bare_ofCopies (scope : ScopeId) :
    (ofCopies.scopeAt scope).handlers = [] ∧ (ofCopies.scopeAt scope).parameters = [] := by
  rcases scopeAt_ofCopies scope with rfl | rfl | rfl | none
  · exact ⟨rfl, rfl⟩
  · exact ⟨rfl, rfl⟩
  · exact ⟨rfl, rfl⟩
  · rw [none]
    exact ⟨rfl, rfl⟩

theorem World.nested_ofCopies : ofCopies.Nested := by
  have vars {scope : ScopeId} {entry : String × VariableId} (h : entry ∈ (ofCopies.scopeAt scope).vars) :
      entry = ("x", ⟨0⟩) := by
    rcases scopeAt_ofCopies scope with rfl | rfl | rfl | none
    · exact List.mem_singleton.1 h
    · cases h
    · exact List.mem_singleton.1 h
    · rw [none] at h
      cases h
  have parent {scope above : ScopeId} (h : (ofCopies.scopeAt scope).parent = some above) :
      scope = ⟨1⟩ ∧ above = ⟨0⟩ := by
    rcases scopeAt_ofCopies scope with rfl | rfl | rfl | none
    · cases h
    · cases h
      exact ⟨rfl, rfl⟩
    · cases h
    · rw [none] at h
      cases h
  exact
    { parent_lt := fun h => by
        obtain ⟨rfl, rfl⟩ := parent h
        decide
      pure := fun h hpure => by
        obtain ⟨rfl, rfl⟩ := parent h
        cases hpure
      bound := fun h => by
        cases vars h
        decide
      named := fun h h' => by
        cases vars h
        cases vars h'
        rfl }

theorem World.harmless_ofCopies {constraint : Constraint}
    (h : (ofCopies.variableAt ⟨0⟩).constraint = some constraint) :
    constraint.Harmless (fun _ _ => False) ofCopies := by
  cases h
  intro lambda budget thread scope u v verdict hl _ kept hlambdas run
  cases hl
  have body : (u.lambdaAt ⟨0⟩).body = .script (.boolean true) := by
    rw [lambdaAt, hlambdas]
    rfl
  unfold LambdaId.applyIn Eval.nested at run
  dsimp only at run
  split at run
  · cases run
  · obtain ⟨value, t, computed, run⟩ := Eval.reaches_bind_value run
    unfold LambdaId.compute LambdaId.record at computed
    rw [Eval.bind_apply, Eval.gets_apply, Outcome.bind_value, body] at computed
    cases budget with
    | zero => cases computed
    | succ budget =>
      cases computed
      cases run
      exact ⟨kept, rfl⟩

/-- A scope shares its variable with its copy, and what is declared below it is not seen from it. -/
theorem ScopeId.assignment_seen_by_copy :
    let w := World.ofCopies
    let ctx := Context.ofBudget 3 default
    (∃ x v, (ScopeId.set ⟨1⟩ "x" (.integer 2) ctx w).Reaches (fun _ _ => False) (.value x v) ∧
      x.data = .integer 2 ∧ v.Shows ⟨2⟩ "x" x) ∧
    ∃ x v, (ScopeId.set ⟨1⟩ "y" (.integer 2) ctx w).Reaches (fun _ _ => False) (.value x v) ∧
      v.Shows ⟨1⟩ "y" x ∧ w.MeansSame v ⟨0⟩ "y" := by
  intro w ctx
  have hw : w.Nested := World.nested_ofCopies
  have alive : (w.scopeAt ⟨1⟩).destroyed = false := rfl
  constructor
  · have nearest : w.Nearest "x" ⟨1⟩ ⟨0⟩ ⟨0⟩ := .above rfl rfl (.here rfl)
    have resolved := (names_mean_nearest hw alive (rfl : isPositional "x" = false)).2
    refine ⟨_, _, .value, rfl, ?_⟩
    have written := resolved (fun _ _ => False) 3 default (.integer 2) _ _ rfl rfl ?_ .value
    · exact (written.2.1 _ _ nearest).shows (.here rfl) rfl (.inl rfl)
    · intro owner id constraint hn hc
      have same := (hw.findVariable?_eq_some_iff.2 hn).symm.trans (hw.findVariable?_eq_some_iff.2 nearest)
      cases same
      exact World.harmless_ofCopies hc
  · have undeclared (reader : ScopeId) (h : w.findVariable? reader "y" = none) (owner : ScopeId)
        (id : VariableId) : ¬ w.Nearest "y" reader owner id := fun hn => by
      rw [hw.findVariable?_eq_some_iff.2 hn] at h
      cases h
    have resolved := (names_mean_nearest hw alive (rfl : isPositional "y" = false)).2
    refine ⟨_, _, .value, ?_⟩
    have written := resolved (fun _ _ => False) 3 default (.integer 2) _ _ rfl rfl
      (fun owner id _ hn => (undeclared ⟨1⟩ rfl owner id hn).elim) .value
    have extended := written.2.2 (undeclared ⟨1⟩ rfl)
    exact ⟨extended.shows (w.mem_ancestors_self ⟨1⟩) (undeclared ⟨1⟩ rfl) alive rfl,
      extended.unseen (by decide) (by decide)⟩
end Reactor
