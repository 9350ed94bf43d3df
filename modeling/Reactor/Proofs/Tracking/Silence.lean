import Reactor.Proofs.Discipline.Marks
import Reactor.Proofs.Names.Written
import Reactor.Proofs.Network.Alive

/-!
# Passes that call nobody

Where no lambda has a callback, a pass forgets results and drops registrations, and changes nothing else
(`World.Cooled`). It forgets the results of the lambdas that it was started with, and of no lambda beside
them that depends on none (`LambdaId.propagate_silent`). So those who follow a name are told of a write to
it, and others are not (`ScopeId.notify_silent`).
-/

namespace Reactor

/-- A result may have been forgotten, if that is permitted, and registrations may have been dropped. -/
structure LambdaRecord.Cools (forgot : Prop) (old new : LambdaRecord) : Prop where
  same : new = { old with
    cache := new.cache
    generation := new.generation
    listeners := new.listeners
    followed := new.followed
    notifying := new.notifying }
  cache : new.cache = old.cache ∨ forgot ∧ new.cache = .empty
  listeners : new.listeners ⊆ old.listeners

namespace World

/-- No lambda has a callback, and none is being notified. -/
structure Silent (w : World) : Prop where
  callbacks (k : LambdaId) : w.callbacks k = []
  notified (k : LambdaId) : (w.lambdaAt k).notifying = []

/-- Results of some lambdas may have been forgotten and registrations dropped, and nothing else has
changed. -/
structure Cooled (forgot : LambdaId → Prop) (w v : World) : Prop where
  rest : v = { w with lambdas := v.lambdas }
  size : v.lambdas.size = w.lambdas.size
  record (k : LambdaId) : (w.lambdaAt k).Cools (forgot k) (v.lambdaAt k)

variable {u v w : World} {forgot more : LambdaId → Prop} {k j : LambdaId} {live : Holders}
  {thread : ThreadId} {ks : List LambdaId}

end World

namespace LambdaRecord.Cools

variable {forgot more : Prop} {r s t : LambdaRecord}

theorem refl (forgot : Prop) (r : LambdaRecord) : r.Cools forgot r :=
  ⟨rfl, .inl rfl, List.Subset.refl _⟩

theorem trans (h : r.Cools forgot s) (h' : s.Cools forgot t) : r.Cools forgot t where
  same := by rw [h'.same, h.same]
  cache := by
    rcases h'.cache with same | empty
    · rw [same]
      exact h.cache
    · exact .inr empty
  listeners := List.Subset.trans h'.listeners h.listeners

theorem mono (h : r.Cools forgot s) (hmore : forgot → more) : r.Cools more s :=
  ⟨h.same, h.cache.imp_right fun h => ⟨hmore h.1, h.2⟩, h.listeners⟩

theorem dropResult (r : LambdaRecord) : r.Cools True (World.dropResult r) := by
  refine ⟨rfl, ?_, List.Subset.refl _⟩
  cases hc : r.cache with
  | empty => exact .inl (by simp [World.dropResult, hc])
  | computing owner => exact .inl (by simp [World.dropResult, hc])
  | holding value => exact .inr (by simp [World.dropResult, hc])

end LambdaRecord.Cools

namespace World

variable {u v w : World} {forgot more : LambdaId → Prop} {k j : LambdaId} {live : Holders}
  {thread : ThreadId} {ks : List LambdaId}

namespace Cooled

theorem refl (forgot : LambdaId → Prop) (w : World) : w.Cooled forgot w :=
  ⟨rfl, rfl, fun _ => .refl _ _⟩

theorem trans (h : Cooled forgot u v) (h' : v.Cooled forgot w) : Cooled forgot u w :=
  ⟨by rw [h'.rest, h.rest], h'.size.trans h.size, fun k => (h.record k).trans (h'.record k)⟩

theorem modifyLambda (w : World) (k : LambdaId) {f : LambdaRecord → LambdaRecord}
    (h : (w.lambdaAt k).Cools (forgot k) (f (w.lambdaAt k))) :
    w.Cooled forgot (w.modifyLambda k f) := by
  refine ⟨rfl, Array.size_modify .., fun j => ?_⟩
  rw [lambdaAt_modifyLambda]
  split
  · rename_i found
    rw [← found.1]
    exact h
  · exact .refl _ _

theorem foldl {g : World → LambdaId → World} {ks : List LambdaId}
    (h : ∀ k ∈ ks, ∀ w : World, w.Cooled forgot (g w k)) (w : World) :
    w.Cooled forgot (ks.foldl g w) := by
  induction ks generalizing w with
  | nil => exact .refl _ w
  | cons k ks ih =>
    exact (h k List.mem_cons_self w).trans (ih (fun j hj => h j (List.mem_cons_of_mem _ hj)) _)

variable (h : w.Cooled forgot v)
include h

theorem dependents_subset (k : LambdaId) : v.dependents k ⊆ w.dependents k := by
  intro j hj
  obtain ⟨entry, hentry, found⟩ := List.mem_filterMap.1 hj
  exact List.mem_filterMap.2 ⟨entry, (h.record k).listeners hentry, found⟩

theorem callbacks_subset (k : LambdaId) : v.callbacks k ⊆ w.callbacks k := by
  intro c hc
  obtain ⟨entry, hentry, found⟩ := List.mem_filterMap.1 hc
  exact List.mem_filterMap.2 ⟨entry, (h.record k).listeners hentry, found⟩

theorem cache_of_not (hk : ¬ forgot k) : (v.lambdaAt k).cache = (w.lambdaAt k).cache :=
  (h.record k).cache.resolve_right fun found => hk found.1

/-- What is not kept is not kept afterwards. -/
theorem not_holding (hk : ∀ x, (w.lambdaAt k).cache ≠ .holding x) (x : Value) :
    (v.lambdaAt k).cache ≠ .holding x := by
  rcases (h.record k).cache with same | ⟨-, empty⟩
  · rw [same]
    exact hk x
  · rw [empty]
    exact nofun

end Cooled

/-! ## The parts of a pass -/

theorem cooled_entered (w : World) (live : Holders) (thread : ThreadId) (k : LambdaId) :
    w.Cooled forgot ((w.enterNotify thread k).pruneListeners live k) :=
  (Cooled.modifyLambda w k ⟨rfl, .inl rfl, List.Subset.refl _⟩).trans
    (.modifyLambda _ k ⟨rfl, .inl rfl, fun _ h => (List.mem_filter.1 h).1⟩)

theorem cooled_discover (live : Holders) (thread : ThreadId) (steps : Nat) (w : World)
    (pending : List LambdaId) : w.Cooled forgot (discover live thread steps w pending).2 := by
  induction steps generalizing w pending with
  | zero => exact .refl _ w
  | succ steps ih =>
    cases pending with
    | nil => exact .refl _ w
    | cons first pending =>
      rw [discover]
      split
      · exact ih w pending
      · exact (cooled_entered w live thread first).trans (ih _ _)

theorem cooled_removeListener (w : World) (k : LambdaId) (key : ListenerKey) :
    w.Cooled forgot (w.removeListener k key) :=
  .modifyLambda w k ⟨rfl, .inl rfl, fun _ h => Entries.mem_of_mem_erase h⟩

theorem cooled_invalidate (w : World) {k : LambdaId} (hk : forgot k) : w.Cooled forgot (w.invalidate k) := by
  have dropped : w.Cooled forgot (w.modifyLambda k dropResult) :=
    .modifyLambda w k ((LambdaRecord.Cools.dropResult _).mono fun _ => hk)
  unfold invalidate
  dsimp only
  cases (w.lambdaAt k).followed with
  | none => exact dropped
  | some followed => exact dropped.trans (cooled_removeListener _ _ _)

theorem cooled_leaveNotify (w : World) (thread : ThreadId) (k : LambdaId) :
    w.Cooled forgot (w.leaveNotify thread k) :=
  .modifyLambda w k ⟨rfl, .inl rfl, List.Subset.refl _⟩

theorem mem_discover {steps : Nat} {pending : List LambdaId} (h : k ∈ pending.take steps)
    (hk : thread ∉ (w.lambdaAt k).notifying) : k ∈ (discover live thread steps w pending).1 := by
  induction steps generalizing w pending with
  | zero => cases h
  | succ steps ih =>
    cases pending with
    | nil => cases h
    | cons first pending =>
      rw [List.take_succ_cons] at h
      rw [discover]
      split
      · rename_i noted
        rcases List.mem_cons.1 h with rfl | h
        · exact absurd (by simpa [isNotifying] using noted) hk
        · exact ih h hk
      · by_cases hfirst : k = first
        · exact hfirst ▸ List.mem_cons_self
        · refine List.mem_cons_of_mem _ (ih ?_ ?_)
          · have later := (List.mem_cons.1 h).resolve_left hfirst
            rw [List.take_append]
            exact List.mem_append_left _ later
          · unfold pruneListeners enterNotify
            rwa [lambdaAt_modifyLambda, if_neg fun found => hfirst found.1.symm, lambdaAt_modifyLambda,
              if_neg fun found => hfirst found.1.symm]

/-- A pass reaches what it is started with, unless the thread is notifying it. -/
theorem mem_entered {roots : List LambdaId} (h : k ∈ roots) (hk : thread ∉ (w.lambdaAt k).notifying) :
    k ∈ (w.enter live thread roots).1 := by
  have few : roots.take (roots.length + w.listenerTotal + 1) = roots := List.take_of_length_le (by omega)
  exact mem_discover (few.symm ▸ h) hk

/-- What a pass reaches it was started with, or it depends on something. -/
theorem mem_pending_of_mem_discover {steps : Nat} {pending : List LambdaId}
    (h : k ∈ (discover live thread steps w pending).1) : k ∈ pending ∨ ∃ j, k ∈ w.dependents j := by
  induction steps generalizing w pending with
  | zero => cases h
  | succ steps ih =>
    cases pending with
    | nil => cases h
    | cons first pending =>
      rw [discover] at h
      split at h
      · exact (ih h).imp_left (List.mem_cons_of_mem _)
      · have entered : w.Cooled (fun _ => False) ((w.enterNotify thread first).pruneListeners live first) :=
          cooled_entered w live thread first
        rcases List.mem_cons.1 h with rfl | h
        · exact .inl List.mem_cons_self
        · rcases ih h with h | ⟨j, hj⟩
          · rcases List.mem_append.1 h with h | h
            · exact .inl (List.mem_cons_of_mem _ h)
            · exact .inr ⟨first, entered.dependents_subset first h⟩
          · exact .inr ⟨j, entered.dependents_subset j hj⟩

theorem notifying_entered {other : ThreadId}
    (h : other ∈ (((w.enterNotify thread j).pruneListeners live j).lambdaAt k).notifying) :
    other ∈ (w.lambdaAt k).notifying ∨ other = thread ∧ k = j := by
  unfold pruneListeners enterNotify at h
  rw [lambdaAt_modifyLambda, lambdaAt_modifyLambda] at h
  by_cases hj : j = k
  · have either : other ∈ (w.lambdaAt k).notifying ∨ other ∈ thread :: (w.lambdaAt k).notifying := by
      split at h
      · split at h
        · exact .inr h
        · exact .inl h
      · split at h
        · exact .inr h
        · exact .inl h
    rcases either with h | h
    · exact .inl h
    · exact (List.mem_cons.1 h).symm.imp_right fun h => ⟨h, hj.symm⟩
  · rw [if_neg fun found => hj found.1, if_neg fun found => hj found.1] at h
    exact .inl h

/-- A pass marks only what it reaches. -/
theorem notifying_discover {steps : Nat} {pending : List LambdaId} {other : ThreadId}
    (h : other ∈ ((discover live thread steps w pending).2.lambdaAt k).notifying) :
    other ∈ (w.lambdaAt k).notifying ∨
      other = thread ∧ k ∈ (discover live thread steps w pending).1 := by
  induction steps generalizing w pending with
  | zero => exact .inl h
  | succ steps ih =>
    cases pending with
    | nil => exact .inl h
    | cons first pending =>
      rw [discover] at h ⊢
      split at h
      · rename_i noted
        rw [if_pos noted]
        exact ih h
      · rename_i new
        rw [if_neg new]
        rcases ih h with h | ⟨rfl, h⟩
        · refine (notifying_entered h).imp_right fun found => ⟨found.1, ?_⟩
          exact found.2 ▸ List.mem_cons_self
        · exact .inr ⟨rfl, List.mem_cons_of_mem _ h⟩

theorem notifying_invalidate (w : World) (k j : LambdaId) :
    ((w.invalidate j).lambdaAt k).notifying = (w.lambdaAt k).notifying := by
  have dropped : ((w.modifyLambda j dropResult).lambdaAt k).notifying = (w.lambdaAt k).notifying := by
    rw [lambdaAt_modifyLambda]
    split <;> rfl
  unfold invalidate
  dsimp only
  cases (w.lambdaAt j).followed with
  | none => exact dropped
  | some followed =>
    unfold removeListener
    rw [lambdaAt_modifyLambda]
    split
    · exact dropped
    · exact dropped

theorem notifying_foldl_invalidate (w : World) (ks : List LambdaId) (k : LambdaId) :
    ((ks.foldl World.invalidate w).lambdaAt k).notifying = (w.lambdaAt k).notifying := by
  induction ks generalizing w with
  | nil => rfl
  | cons j ks ih => rw [List.foldl_cons, ih, notifying_invalidate]

theorem not_holding_invalidate (w : World) (k : LambdaId) (x : Value) :
    ((w.invalidate k).lambdaAt k).cache ≠ .holding x := by
  have dropped : ((w.modifyLambda k dropResult).lambdaAt k).cache ≠ .holding x := by
    rw [lambdaAt_modifyLambda]
    split
    · exact cache_dropResult_ne_holding _ x
    · rename_i missing
      rw [lambdaAt_of_size_le (Nat.le_of_not_lt fun h => missing ⟨rfl, h⟩)]
      exact nofun
  unfold invalidate
  dsimp only
  cases (w.lambdaAt k).followed with
  | none => exact dropped
  | some followed =>
    unfold removeListener
    rw [lambdaAt_modifyLambda]
    split
    · exact dropped
    · exact dropped

/-- The results of all lambdas that are invalidated are gone. -/
theorem not_holding_foldl_invalidate (hk : k ∈ ks) (x : Value) :
    ((ks.foldl World.invalidate w).lambdaAt k).cache ≠ .holding x := by
  induction ks generalizing w with
  | nil => cases hk
  | cons first ks ih =>
    rcases List.mem_cons.1 hk with rfl | hk
    · have rest : (w.invalidate k).Cooled (fun _ => True) (ks.foldl World.invalidate (w.invalidate k)) :=
        .foldl (fun j _ w => cooled_invalidate w trivial) _
      exact rest.not_holding (not_holding_invalidate w k) x
    · exact ih hk

end World

/-! ## Whole passes -/

/-- Where no lambda has a callback nothing runs. -/
theorem LambdaId.runAllCallbacks_silent {ks : List LambdaId} {ctx : Context} {w : World}
    (h : ∀ k, w.callbacks k = []) : runAllCallbacks ks ctx w = .value () w := by
  induction ks with
  | nil => rfl
  | cons k ks ih =>
    have none : k.runCallbacks ctx w = .value () w := by
      unfold runCallbacks
      rw [Eval.bind_apply, Eval.gets_apply, Outcome.bind_value, h k]
      rfl
    rw [runAllCallbacks, Eval.bind_apply, none, Outcome.bind_value, ih]

section Pass

variable {ctx : Context} {w : World} {roots : List LambdaId}

/-- The lambdas whose results a pass may forget: those that it is started with, and those that depend on
something. -/
def World.Within (w : World) (roots : List LambdaId) (k : LambdaId) : Prop :=
  k ∈ roots ∨ ∃ j, k ∈ w.dependents j

/-- A pass forgets the results of the lambdas that it is started with, and perhaps those of lambdas that
depend on something. -/
theorem LambdaId.propagate_silent (hw : w.Silent) (hdepth : ctx.thread.depth < w.config.maxDepth)
    (roots : List LambdaId) :
    ∃ v, propagate roots ctx w = .value () v ∧ w.Cooled (w.Within roots) v ∧ v.Silent ∧
      ∀ k ∈ roots, ∀ x, (v.lambdaAt k).cache ≠ .holding x := by
  by_cases hne : roots = []
  · subst hne
    exact ⟨w, rfl, .refl _ w, hw, fun _ hk => nomatch hk⟩
  obtain ⟨reached, u, henter⟩ : ∃ reached u,
      w.enter (w.liveness ctx.thread.held) ctx.thread.id roots = (reached, u) := ⟨_, _, rfl⟩
  have hreached : (w.enter (w.liveness ctx.thread.held) ctx.thread.id roots).1 = reached := by rw [henter]
  have hu : (w.enter (w.liveness ctx.thread.held) ctx.thread.id roots).2 = u := by rw [henter]
  obtain ⟨later, later', run⟩ := propagate_of_enter hne hdepth henter
  have entered : w.Cooled (w.Within roots) u := hu ▸ World.cooled_discover _ _ _ w roots
  have forgotten : u.Cooled (w.Within roots) (reached.foldl World.invalidate u) :=
    .foldl (fun k hk w' => World.cooled_invalidate w'
      (World.mem_pending_of_mem_discover (hreached ▸ hk))) u
  have left : (reached.foldl World.invalidate u).Cooled (w.Within roots)
      (reached.foldl (fun w j => w.leaveNotify ctx.thread.id j) (reached.foldl World.invalidate u)) :=
    .foldl (fun k _ w' => World.cooled_leaveNotify w' _ k) _
  have nobody {v : World} (h : w.Cooled (w.Within roots) v) (k : LambdaId) : v.callbacks k = [] :=
    List.subset_nil.1 (hw.callbacks k ▸ h.callbacks_subset k)
  have cooled := (entered.trans forgotten).trans left
  refine ⟨_, ?_, cooled, ⟨nobody cooled, fun k => ?_⟩, fun k hk x => ?_⟩
  · rw [run, runAllCallbacks_silent (nobody (entered.trans forgotten))]
    rfl
  · refine List.eq_nil_iff_forall_not_mem.2 fun other h => ?_
    obtain ⟨h, hne⟩ := World.mem_notifying_left_iff.1 h
    rw [World.notifying_foldl_invalidate, ← hu] at h
    rcases World.notifying_discover h with old | ⟨same, found⟩
    · rw [hw.notified] at old
      cases old
    · exact hne (hreached ▸ found) same
  · have idle : ctx.thread.id ∉ (w.lambdaAt k).notifying := by
      rw [hw.notified]
      exact List.not_mem_nil
    exact left.not_holding (World.not_holding_foldl_invalidate (hreached ▸ World.mem_entered hk idle)) x

/-- Those who follow a name have been told that it was written: they keep no result, and all who are held
still follow what they followed. -/
structure World.Heard (w : World) (owner : ScopeId) (name : String) (v : World) : Prop where
  rest : v = { w with scopes := v.scopes, lambdas := v.lambdas }
  scopes : v.scopes.size = w.scopes.size
  scope (scope : ScopeId) :
    v.scopeAt scope = { w.scopeAt scope with listeners := (v.scopeAt scope).listeners }
  lambdas : v.lambdas.size = w.lambdas.size
  record (k : LambdaId) : (w.lambdaAt k).Cools (w.Within (w.followersAt owner name) k) (v.lambdaAt k)
  silent : v.Silent
  forgotten {k : LambdaId} (held : Place.lambda k ∈ entriesPlaces w.desk.registers)
    (h : k ∈ w.followersAt owner name) (x : Value) : (v.lambdaAt k).cache ≠ .holding x
  kept {k : LambdaId} (held : Place.lambda k ∈ entriesPlaces w.desk.registers) {scope : ScopeId}
    {key : String} (h : k ∈ w.followersAt scope key) : k ∈ v.followersAt scope key

theorem ScopeId.liveListeners_eq (owner : ScopeId) (name : String) (ctx : Context) (w : World) :
    owner.liveListeners name ctx w =
      .value ((w.followersAt owner name).filter (w.liveness ctx.thread.held).hasLambda) w := by
  unfold liveListeners record
  rw [Eval.bind_apply, Eval.gets_apply, Outcome.bind_value]
  generalize hlisteners : (Entries.get? (w.scopeAt owner).listeners name).getD [] = listeners
  rw [show w.followersAt owner name = listeners from hlisteners]
  cases listeners with
  | nil => rfl
  | cons first rest => rfl

theorem Entries.get?_modify {κ α : Type} [DecidableEq κ] (entries : Entries κ α) (key k : κ) (f : α → α) :
    get? (modify entries key f) k = (get? entries k).map fun a => if k = key then f a else a := by
  induction entries with
  | nil => rfl
  | cons entry entries ih =>
    obtain ⟨first, a⟩ := entry
    unfold modify at ih ⊢
    simp only [List.map_cons, get?]
    by_cases hk : first = k
    · rw [if_pos hk, if_pos hk, hk]
      rfl
    · rw [if_neg hk, if_neg hk, ih]

theorem World.followersAt_congr {v : World} (h : v.scopes = w.scopes) (scope : ScopeId) (name : String) :
    v.followersAt scope name = w.followersAt scope name := by
  rw [followersAt, followersAt, scopeAt_congr h]

/-- Who is told still follows the name, and what others follow stays. -/
theorem World.mem_followersAt_of_told {owner scope : ScopeId} {name key : String} {k : LambdaId}
    {told : List LambdaId} (h : k ∈ w.followersAt scope key)
    (htold : k ∈ w.followersAt owner name → k ∈ told) :
    k ∈ (w.modifyScope owner fun record =>
      { record with listeners := Entries.modify record.listeners name fun _ => told }).followersAt
        scope key := by
  unfold followersAt at h ⊢
  rw [scopeAt_modifyScope]
  split
  · rename_i found
    obtain ⟨rfl, -⟩ := found
    cases hkey : Entries.get? (w.scopeAt owner).listeners key with
    | none =>
      rw [hkey] at h
      cases h
    | some followers =>
      rw [Entries.get?_modify, hkey]
      by_cases hname : key = name
      · subst hname
        simpa using htold h
      · rw [hkey] at h
        simpa [hname] using h
  · exact h

/-- To notify those who follow a name tells them, and nobody else who depends on nothing. -/
theorem ScopeId.notify_silent (hw : w.Silent) (hdepth : ctx.thread.depth < w.config.maxDepth)
    (owner : ScopeId) (name : String) :
    ∃ v, owner.notify name ctx w = .value () v ∧ w.Heard owner name v := by
  generalize htold : (w.followersAt owner name).filter (w.liveness ctx.thread.held).hasLambda = told
  generalize hu : (w.modifyScope owner fun record =>
    { record with listeners := Entries.modify record.listeners name fun _ => told }) = u
  have run : owner.notify name ctx w = LambdaId.propagate told ctx u := by
    unfold notify
    rw [Eval.bind_apply, liveListeners_eq, htold, Outcome.bind_value, Eval.bind_apply, Eval.modify_apply,
      Outcome.bind_value, hu]
  have shallow : ctx.thread.depth < u.config.maxDepth := hu ▸ hdepth
  obtain ⟨v, passed, cooled, quiet, forgotten⟩ := LambdaId.propagate_silent
    (hu ▸ ⟨hw.callbacks, hw.notified⟩ : u.Silent) shallow told
  have live {k : LambdaId} (held : Place.lambda k ∈ entriesPlaces w.desk.registers)
      (h : k ∈ w.followersAt owner name) : k ∈ told :=
    htold ▸ List.mem_filter.2 ⟨h, World.hasLambda_of_held held _⟩
  have scopes : v.scopes = u.scopes := by rw [cooled.rest]
  have scopeAt (scope : ScopeId) : v.scopeAt scope = u.scopeAt scope := World.scopeAt_congr scopes scope
  have lambdas : u.lambdas = w.lambdas := hu ▸ rfl
  have lambdaAt (k : LambdaId) : u.lambdaAt k = w.lambdaAt k := by
    rw [World.lambdaAt, World.lambdaAt, lambdas]
  refine ⟨v, run.trans passed, ?_⟩
  exact
    { rest := by rw [cooled.rest, ← hu]; rfl
      scopes := by rw [scopes, ← hu]; exact Array.size_modify ..
      scope := fun scope => by
        rw [scopeAt, ← hu, World.scopeAt_modifyScope]
        split <;> rfl
      lambdas := by rw [cooled.size, lambdas]
      record := fun k => by
        have cools := cooled.record k
        rw [lambdaAt] at cools
        refine cools.mono fun h => h.imp (fun h => (List.mem_filter.1 (htold ▸ h)).1) ?_
        rintro ⟨j, hj⟩
        rw [World.dependents, lambdaAt] at hj
        exact ⟨j, hj⟩
      silent := quiet
      forgotten := fun held h => forgotten _ (live held h)
      kept := fun {k} held {scope key} h => by
        rw [World.followersAt_congr scopes, ← hu]
        exact World.mem_followersAt_of_told h (live held) }

end Pass

end Reactor
