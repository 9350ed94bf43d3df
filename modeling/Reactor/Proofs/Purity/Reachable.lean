import Reactor.Proofs.Discipline.Sessions

/-!
# Scopes of reachable states

Every computation leaves scopes in a tree, with only pure scopes below pure ones. As a discipline of
its own (`Discipline.nesting`) this is kept by all that the engine, scripts and hosts do, and so it
holds of every state that a session can reach (`Session.Reachable.nested`).
-/

namespace Reactor

/-- No lambda keeps a deferred result. -/
def World.KeepsSettled (w : World) : Prop :=
  ∀ (id : LambdaId) (v : Value), (w.lambdaAt id).cache = .holding v → v.lambda? = none

namespace World.KeepsSettled

variable {w v : World}

theorem ofLambdas (hw : w.KeepsSettled) (h : v.lambdas = w.lambdas) : v.KeepsSettled := by
  intro id value hv
  apply hw id value
  rwa [lambdaAt, h] at hv

theorem modifyLambda (hw : w.KeepsSettled) (id : LambdaId) {f : LambdaRecord → LambdaRecord}
    {allows : Expr → Prop} (h : (w.lambdaAt id).Tame allows (f (w.lambdaAt id))) :
    (w.modifyLambda id f).KeepsSettled := by
  intro other value hv
  rw [lambdaAt_modifyLambda] at hv
  split at hv
  · rename_i found
    rw [← found.1] at hv
    exact (h.cache hv).elim (hw id value) (fun settled => settled)
  · exact hw other value hv

theorem newLambda (hw : w.KeepsSettled) {record : LambdaRecord} (h : record.cache = .empty) :
    ({ w with lambdas := w.lambdas.push record } : World).KeepsSettled := by
  intro id value hv
  rw [lambdaAt, getD_push] at hv
  split at hv
  · rw [h] at hv
    cases hv
  · exact hw id value hv

end World.KeepsSettled

namespace Discipline

/-- Scopes make a tree with only pure scopes below pure ones. All scripts are allowed. -/
def nesting : Discipline where
  allows _ := True
  single := True
  holds w := w.Nested ∧ w.KeepsSettled
  leads _ _ := True
  firstScope := 0
  lets _ _ := True
  refl _ := trivial
  trans _ _ := trivial
  script _ _ _ _ := trivial
  callback _ _ _ _ _ := trivial
  settled hw _ _ h := hw.2 _ _ h
  subscriber _ _ _ _ _ := trivial
  forked _ _ := trivial
  firstScope_le _ := Nat.zero_le _
  lets_of_not_bears _ _ _ _ := trivial
  aside h hw :=
    ⟨⟨hw.1.ofScopes h.scopes (Nat.le_of_eq (congrArg Array.size h.vars.symm)),
      hw.2.ofLambdas h.lambdas⟩, trivial⟩
  lambda id _ h _ hw := ⟨⟨hw.1.ofScopes rfl (Nat.le_refl _), hw.2.modifyLambda id h⟩, trivial⟩
  newLambda h hw := ⟨⟨hw.1.ofScopes rfl (Nat.le_refl _), hw.2.newLambda h.cache⟩, trivial⟩
  queue _ _ _ hw := ⟨⟨hw.1.ofScopes rfl (Nat.le_refl _), hw.2.ofLambdas rfl⟩, trivial⟩
  newQueue _ hw := ⟨⟨hw.1.ofScopes rfl (Nat.le_refl _), hw.2.ofLambdas rfl⟩, trivial⟩
  newFork _ _ hw := ⟨⟨hw.1.ofScopes rfl (Nat.le_refl _), hw.2.ofLambdas rfl⟩, trivial⟩
  scope id _ h hw :=
    ⟨⟨hw.1.modifyScope id (fun r => (h r).parent) (fun r => (h r).pure)
      (fun r _ hentry => (h r).vars ▸ hentry), hw.2.ofLambdas rfl⟩, trivial⟩
  newScope _ hopens hw := ⟨⟨hw.1.push hopens, hw.2.ofLambdas rfl⟩, trivial⟩
  destroy _ hw := ⟨⟨hw.1.ended _, hw.2.ofLambdas rfl⟩, trivial⟩

theorem reigns_nesting : nesting.Reigns where
  change h hn hw := ⟨⟨hn hw.1, hw.2.ofLambdas h.lambdas⟩, trivial⟩
  allows_iff := ⟨fun _ => .inl trivial, fun _ => trivial⟩
  defined _ _ _ _ := trivial
  define hw _ _ _ := ⟨⟨hw.1.ofScopes rfl (Nat.le_refl _), hw.2.ofLambdas rfl⟩, trivial⟩
  finish hw _ _ := ⟨hw.1.ofScopes rfl (Nat.le_refl _), hw.2.ofLambdas rfl⟩
  single := trivial
  leads _ _ := trivial

end Discipline

theorem Session.Reachable.nesting {s : Session} (h : s.Reachable) : Discipline.nesting.holds s.world := by
  have fresh (config : Configuration) : Discipline.nesting.holds
      { config, learner := { expiry := config.predictionExpiry } } :=
    ⟨{ parent_lt := fun h => nomatch h
       pure := fun h _ => nomatch h
       bound := fun h => nomatch h
       named := fun h => nomatch h }, fun _ _ h => nomatch h⟩
  exact (h.held Discipline.reigns_nesting fresh).world

/-- Scopes make a tree in every state that a session can reach, below a pure scope there are only pure
ones, and every variable has one name. -/
theorem Session.Reachable.nested {s : Session} (h : s.Reachable) : s.world.Nested :=
  h.nesting.1

/-- No lambda keeps a deferred result. -/
theorem Session.Reachable.keepsSettled {s : Session} (h : s.Reachable) : s.world.KeepsSettled :=
  h.nesting.2

end Reactor
