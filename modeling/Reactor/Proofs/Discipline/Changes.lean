import Reactor.Engine.Variable
import Reactor.Proofs.Discipline.Basic

/-!
# Changes of the state

The changes of the state that the engine makes neither look at the learner nor touch it, and they bring no
script that is not allowed (`Discipline.Respects`).
-/

namespace Reactor

/-- The marks are left alone. -/
theorem LambdaRecord.Marked.same {lets : Mark → Prop} {old new : LambdaRecord}
    (hcache : new.cache = old.cache) (hnotifying : new.notifying = old.notifying) :
    old.Marked lets new := by
  intro mark _ h
  cases mark with
  | computing owner => exact hcache.trans h
  | notifying thread =>
    show thread ∈ new.notifying
    rw [hnotifying]
    exact h

namespace Discipline

variable {D : Discipline}

theorem tame_refl (record : LambdaRecord) : record.Tame D.allows record :=
  ⟨rfl, rfl, .inl, .inl⟩

namespace Respects

theorem id : D.Respects id :=
  ⟨fun _ _ => rfl, fun {w} hw => ⟨hw, D.refl w⟩⟩

theorem comp {g f : World → World} (hg : D.Respects g) (hf : D.Respects f) :
    D.Respects fun w => g (f w) :=
  ⟨fun w learner => by rw [hf.withLearner, hg.withLearner], fun hw =>
    ⟨(hg.holds (hf.holds hw).1).1, D.trans (hf.holds hw).2 (hg.holds (hf.holds hw).1).2⟩⟩

theorem foldlOn {α : Type} {g : World → α → World} {items : List α}
    (h : ∀ a ∈ items, D.Respects fun w => g w a) : D.Respects fun w => items.foldl g w := by
  induction items with
  | nil => exact id
  | cons item items ih =>
    exact (ih fun a ha => h a (List.mem_cons_of_mem _ ha)).comp (h item List.mem_cons_self)

theorem foldl {α : Type} {g : World → α → World} (h : ∀ a, D.Respects fun w => g w a)
    (items : List α) : D.Respects fun w => items.foldl g w :=
  foldlOn fun a _ => h a

/-- A change that depends on a part of the state which is no part of the learner. -/
theorem choose {γ : Type} (f : World → γ) (hf : ∀ w learner, f (w.withLearner learner) = f w)
    {g : γ → World → World} (h : ∀ c, D.Respects (g c)) : D.Respects fun w => g (f w) w :=
  ⟨fun w learner => by rw [hf, (h _).withLearner], fun hw => (h _).holds hw⟩

theorem ofTame (lambda : LambdaId) {f : LambdaRecord → LambdaRecord}
    (h : ∀ record : LambdaRecord, record.Tame D.allows (f record))
    (hmarks : ∀ record : LambdaRecord, record.Marked (D.lets lambda) (f record)) :
    D.Respects fun w => w.modifyLambda lambda f :=
  ⟨fun _ _ => rfl, fun hw => D.lambda lambda (h _) (hmarks _) hw⟩

theorem removeListener (lambda : LambdaId) (key : ListenerKey) :
    D.Respects fun w => w.removeListener lambda key :=
  ofTame lambda (fun _ => ⟨rfl, rfl, fun h => .inl (Entries.mem_of_mem_erase h), .inl⟩)
    fun _ => .same rfl rfl

theorem tame_dropResult (record : LambdaRecord) : record.Tame D.allows (World.dropResult record) := by
  refine ⟨rfl, rfl, .inl, fun {v} h => ?_⟩
  exact absurd h (World.cache_dropResult_ne_holding record v)

theorem marked_dropResult (lets : Mark → Prop) (record : LambdaRecord) :
    record.Marked lets (World.dropResult record) := by
  intro mark _ h
  cases mark with
  | computing owner => exact World.cache_dropResult_of_computing h
  | notifying thread => exact h

/-- The result goes, and with it the edge that it brought. -/
theorem dropped (lambda : LambdaId) (followed : Option LambdaId) :
    D.Respects fun w => match followed with
      | some followed =>
        (w.modifyLambda lambda World.dropResult).removeListener followed (.dependent lambda)
      | none => w.modifyLambda lambda World.dropResult := by
  have dropped := ofTame (D := D) lambda tame_dropResult fun _ => marked_dropResult _ _
  cases followed with
  | none => exact dropped
  | some followed => exact (removeListener followed _).comp dropped

theorem invalidate (lambda : LambdaId) : D.Respects fun w => w.invalidate lambda :=
  choose (fun w => (w.lambdaAt lambda).followed) (fun _ _ => rfl) (dropped lambda)

theorem addDependent_withLearner (w : World) (learner : Learner) (source dependent : LambdaId) :
    (w.withLearner learner).addDependent source dependent =
      ((w.addDependent source dependent).1.withLearner learner,
        (w.addDependent source dependent).2) := by
  rw [World.addDependent, World.addDependent,
    show (w.withLearner learner).lambdaAt source = w.lambdaAt source from rfl]
  split <;> rfl

theorem addDependent (source dependent : LambdaId) :
    D.Respects fun w => (w.addDependent source dependent).1 := by
  refine ⟨fun w learner => by rw [addDependent_withLearner], fun {w} hw => ?_⟩
  unfold World.addDependent
  split
  · exact ⟨hw, D.refl w⟩
  · refine D.lambda source ⟨rfl, rfl, fun h => .inl ?_, .inl⟩ (.same rfl rfl) hw
    rcases Entries.mem_insert h with h | h
    · exact h
    · cases h

/-- The edge that a result brings takes the place of the one before it. -/
theorem followed (lambda inner : LambdaId) (previous : Option LambdaId) :
    D.Respects fun w =>
      let w := w.modifyLambda lambda fun record => { record with followed := some inner }
      match previous with
      | some previous => w.removeListener previous (.dependent lambda)
      | none => w := by
  have changed : D.Respects fun w => w.modifyLambda lambda fun record =>
      { record with followed := some inner } :=
    ofTame lambda (fun _ => ⟨rfl, rfl, .inl, .inl⟩) fun _ => .same rfl rfl
  cases previous with
  | none => exact changed
  | some previous => exact (removeListener previous _).comp changed

/-- A result is followed, unless it was followed already. -/
theorem refollowed (lambda inner : LambdaId) (previous : Option LambdaId) :
    D.Respects fun w =>
      if previous = some inner then w
      else
        match w.addDependent inner lambda with
        | (w, false) => w
        | (w, true) =>
          let w := w.modifyLambda lambda fun record => { record with followed := some inner }
          match previous with
          | some previous => w.removeListener previous (.dependent lambda)
          | none => w := by
  have added := addDependent (D := D) inner lambda
  have changed := followed (D := D) lambda inner previous
  refine ⟨fun w learner => ?_, fun {w} hw => ?_⟩
  · rw [addDependent_withLearner]
    split
    · rfl
    · obtain ⟨v, isNew⟩ := w.addDependent inner lambda
      cases isNew with
      | false => rfl
      | true => exact changed.withLearner v learner
  · split
    · exact ⟨hw, D.refl w⟩
    · have hv : D.holds (w.addDependent inner lambda).1 ∧ D.leads w (w.addDependent inner lambda).1 :=
        added.holds hw
      generalize w.addDependent inner lambda = result at hv ⊢
      obtain ⟨v, isNew⟩ := result
      cases isNew with
      | false => exact hv
      | true => exact ⟨(changed.holds hv.1).1, D.trans hv.2 (changed.holds hv.1).2⟩

theorem follow (lambda inner : LambdaId) : D.Respects fun w => w.follow lambda inner :=
  choose (fun w => (w.lambdaAt lambda).followed) (fun _ _ => rfl) (refollowed lambda inner)

theorem enterNotify (thread : ThreadId) (lambda : LambdaId) :
    D.Respects fun w => w.enterNotify thread lambda := by
  refine ofTame lambda (fun _ => ⟨rfl, rfl, .inl, .inl⟩) fun record mark _ h => ?_
  cases mark with
  | computing owner => exact h
  | notifying other => exact List.mem_cons_of_mem _ h

theorem leaveNotify {thread : ThreadId} {lambda : LambdaId} (hlets : D.lets lambda (.notifying thread)) :
    D.Respects fun w => w.leaveNotify thread lambda := by
  refine ofTame lambda (fun _ => ⟨rfl, rfl, .inl, .inl⟩) fun record mark hmark h => ?_
  cases mark with
  | computing owner => exact h
  | notifying other =>
    refine List.mem_filter.2 ⟨h, decide_eq_true fun same => hmark ?_⟩
    rwa [same]

theorem pruneListeners (live : Holders) (lambda : LambdaId) :
    D.Respects fun w => w.pruneListeners live lambda :=
  ofTame lambda (fun _ => ⟨rfl, rfl, fun h => .inl (List.mem_filter.1 h).1, .inl⟩)
    fun _ => .same rfl rfl

end Respects

/-! ## Discovery -/

theorem discover_withLearner (live : Holders) (thread : ThreadId) (steps : Nat) (w : World)
    (learner : Learner) (pending : List LambdaId) :
    World.discover live thread steps (w.withLearner learner) pending =
      ((World.discover live thread steps w pending).1,
        (World.discover live thread steps w pending).2.withLearner learner) := by
  induction steps generalizing w pending with
  | zero => rfl
  | succ steps ih =>
    cases pending with
    | nil => rfl
    | cons lambda pending =>
      have next : ((w.withLearner learner).enterNotify thread lambda).pruneListeners live lambda =
          ((w.enterNotify thread lambda).pruneListeners live lambda).withLearner learner := rfl
      rw [World.discover, World.discover,
        show (w.withLearner learner).isNotifying thread lambda = w.isNotifying thread lambda from rfl]
      split
      · exact ih w pending
      · dsimp only
        rw [next, show ∀ v : World, (v.withLearner learner).dependents lambda = v.dependents lambda
          from fun _ => rfl, ih]

theorem holds_discover (live : Holders) (thread : ThreadId) (steps : Nat) {w : World}
    (hw : D.holds w) (pending : List LambdaId) :
    D.holds (World.discover live thread steps w pending).2 ∧
      D.leads w (World.discover live thread steps w pending).2 := by
  induction steps generalizing w pending with
  | zero => exact ⟨hw, D.refl w⟩
  | succ steps ih =>
    cases pending with
    | nil => exact ⟨hw, D.refl w⟩
    | cons lambda pending =>
      rw [World.discover]
      split
      · exact ih hw pending
      · have entered : D.Respects fun w =>
            (w.enterNotify thread lambda).pruneListeners live lambda :=
          (Respects.pruneListeners live lambda).comp (Respects.enterNotify thread lambda)
        obtain ⟨hold, lead⟩ := entered.holds hw
        obtain ⟨hold', lead'⟩ := ih hold _
        exact ⟨hold', D.trans lead lead'⟩

/-- A pass reaches only lambdas that the thread was not notifying when it was begun. -/
theorem not_notifying_of_mem_discover (live : Holders) (thread : ThreadId) (steps : Nat) (w : World)
    (pending : List LambdaId) {lambda : LambdaId}
    (h : lambda ∈ (World.discover live thread steps w pending).1) :
    thread ∉ (w.lambdaAt lambda).notifying := by
  induction steps generalizing w pending with
  | zero => cases h
  | succ steps ih =>
    cases pending with
    | nil => cases h
    | cons first pending =>
      rw [World.discover] at h
      split at h
      · exact ih w pending h
      · rename_i idle
        rcases List.mem_cons.1 h with rfl | h
        · simpa [World.isNotifying] using idle
        · refine fun hmem => ih _ _ h ?_
          unfold World.pruneListeners World.enterNotify
          rw [World.lambdaAt_modifyLambda, World.lambdaAt_modifyLambda]
          split
          · split
            · exact List.mem_cons_of_mem _ hmem
            · exact hmem
          · split
            · exact List.mem_cons_of_mem _ hmem
            · exact hmem

end Discipline

end Reactor
