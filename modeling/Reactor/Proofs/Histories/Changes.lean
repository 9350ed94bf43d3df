import Reactor.Proofs.Histories.Basic
import Reactor.Proofs.Passes.Sweep

/-!
# What an event changes

Most events change nothing but who is registered with a lambda (`World.Rewired`). Those of a pass also change
what is noted of notifications, and they take results away. What is left of the results is said for every list of
lambdas that is invalidated in turn, with or without repetitions (`World.Hit`), so that it is said once for a
change that invalidates nothing, for one that invalidates a lambda and for a whole pass.
-/

namespace Reactor.World

variable {u v w : World} {α : Type}

/-- Registrations have changed, and nothing else of a lambda. -/
structure Rewired (w v : World) : Prop where
  threads : v.threads = w.threads
  size : v.lambdas.size = w.lambdas.size
  record (k : LambdaId) : v.lambdaAt k =
    { w.lambdaAt k with
      listeners := (v.lambdaAt k).listeners
      nextListener := (v.lambdaAt k).nextListener
      followed := (v.lambdaAt k).followed }

namespace Rewired

theorem refl (w : World) : w.Rewired w :=
  ⟨rfl, rfl, fun _ => rfl⟩

theorem trans (h : u.Rewired v) (h' : v.Rewired w) : u.Rewired w := by
  refine ⟨h'.threads.trans h.threads, h'.size.trans h.size, fun k => ?_⟩
  rw [h'.record k, h.record k]

theorem modifyLambda (k : LambdaId) {f : LambdaRecord → LambdaRecord}
    (hf : ∀ r : LambdaRecord, f r =
      { r with
        listeners := (f r).listeners, nextListener := (f r).nextListener, followed := (f r).followed }) :
    w.Rewired (w.modifyLambda k f) := by
  refine ⟨rfl, Array.size_modify .., fun j => ?_⟩
  rw [lambdaAt_modifyLambda]
  split
  · exact hf _
  · rfl

theorem foldl {g : World → α → World} (h : ∀ w a, Rewired w (g w a)) (items : List α) (w : World) :
    w.Rewired (items.foldl g w) := by
  induction items generalizing w with
  | nil => exact refl w
  | cons item items ih => exact (h w item).trans (ih _)

theorem addDependent (w : World) (source dependent : LambdaId) :
    w.Rewired (w.addDependent source dependent).1 := by
  unfold World.addDependent
  split
  · exact refl w
  · exact modifyLambda source fun _ => rfl

theorem removeListener (w : World) (k : LambdaId) (key : ListenerKey) : w.Rewired (w.removeListener k key) :=
  modifyLambda k fun _ => rfl

theorem follow (w : World) (k inner : LambdaId) : w.Rewired (w.follow k inner) := by
  have added := addDependent w inner k
  unfold World.follow
  dsimp only
  split
  · exact refl w
  · split
    · rename_i v hadd
      rw [hadd] at added
      exact added
    · rename_i v hadd
      rw [hadd] at added
      have followed : w.Rewired (v.modifyLambda k fun record => { record with followed := some inner }) :=
        added.trans (modifyLambda k fun _ => rfl)
      split
      · exact followed.trans (removeListener _ _ _)
      · exact followed

theorem listened (w : World) (k : LambdaId) (key : ListenerKey) (callback : Callback) :
    w.Rewired (w.modifyLambda k fun record => record.listened key callback) := by
  refine modifyLambda k fun record => ?_
  unfold LambdaRecord.listened
  split <;> rfl

theorem numbered (w : World) (k : LambdaId) :
    w.Rewired (w.modifyLambda k fun record => { record with nextListener := record.nextListener + 1 }) :=
  modifyLambda k fun _ => rfl

/-- A new lambda is registered with others. -/
theorem withLambda (w : World) (record : LambdaRecord) :
    Rewired { w with lambdas := w.lambdas.push record } (w.withLambda record) := by
  refine foldl (fun w input => ?_) _ _
  cases input.lambda? with
  | some source => exact addDependent w source _
  | none => exact refl w

end Rewired

end Reactor.World

namespace Reactor

/-- What is left of a result that is invalidated. -/
def Cache.dropped : Cache → Cache
  | .holding _ => .empty
  | cache => cache

theorem Cache.dropped_dropped (cache : Cache) : cache.dropped.dropped = cache.dropped := by
  cases cache <;> rfl

theorem Cache.dropped_ne_holding (cache : Cache) (x : Value) : cache.dropped ≠ .holding x := by
  cases cache <;> exact nofun

theorem Cache.dropped_ne_computing {cache : Cache} {thread : ThreadId} (h : cache ≠ .computing thread) :
    cache.dropped ≠ .computing thread := by
  cases cache with
  | computing other => exact h
  | empty => exact nofun
  | holding x => exact nofun

namespace World

variable {u v w : World} {ks js : List LambdaId}

theorem cache_dropResult (record : LambdaRecord) : (dropResult record).cache = record.cache.dropped := by
  unfold dropResult
  cases record.cache <;> rfl

/-- Some lambdas have been invalidated in turn. The others have the results that they had. -/
structure Hit (w : World) (ks : List LambdaId) (v : World) : Prop where
  threads : v.threads = w.threads
  size : v.lambdas.size = w.lambdas.size
  fixable (k : LambdaId) : (v.lambdaAt k).fixable = (w.lambdaAt k).fixable
  cache (k : LambdaId) :
    (v.lambdaAt k).cache = if k ∈ ks then (w.lambdaAt k).cache.dropped else (w.lambdaAt k).cache
  generation {k : LambdaId} (hlt : k.index < w.lambdas.size) :
    (v.lambdaAt k).generation = (w.lambdaAt k).generation + ks.count k

namespace Hit

theorem append (h : u.Hit ks v) (h' : v.Hit js w) : u.Hit (ks ++ js) w where
  threads := h'.threads.trans h.threads
  size := h'.size.trans h.size
  fixable k := (h'.fixable k).trans (h.fixable k)
  cache k := by
    rw [h'.cache k, h.cache k]
    by_cases hks : k ∈ ks <;> by_cases hjs : k ∈ js <;> simp [hks, hjs, Cache.dropped_dropped]
  generation {k} hlt := by
    have hlt' : k.index < v.lambdas.size := h.size.symm ▸ hlt
    rw [h'.generation hlt', h.generation hlt, List.count_append, Nat.add_assoc]

theorem ofRecords (hthreads : v.threads = w.threads) (hsize : v.lambdas.size = w.lambdas.size)
    (hfixable : ∀ k, (v.lambdaAt k).fixable = (w.lambdaAt k).fixable)
    (hcache : ∀ k, (v.lambdaAt k).cache = (w.lambdaAt k).cache)
    (hgeneration : ∀ k, (v.lambdaAt k).generation = (w.lambdaAt k).generation) : w.Hit [] v :=
  ⟨hthreads, hsize, hfixable, hcache, fun _ => hgeneration _⟩

theorem ofStill (h : w.Still v) : w.Hit [] v := by
  refine ofRecords h.threads (congrArg Array.size h.lambdas) (fun k => ?_) (fun k => ?_) fun k => ?_
  all_goals rw [lambdaAt, lambdaAt, h.lambdas]

theorem ofRewired (h : w.Rewired v) : w.Hit [] v := by
  refine ofRecords h.threads h.size (fun k => ?_) (fun k => ?_) fun k => ?_
  all_goals rw [h.record k]

theorem modifyLambda (k : LambdaId) {f : LambdaRecord → LambdaRecord}
    (hfixable : ∀ r : LambdaRecord, (f r).fixable = r.fixable)
    (hcache : ∀ r : LambdaRecord, (f r).cache = r.cache)
    (hgeneration : ∀ r : LambdaRecord, (f r).generation = r.generation) :
    w.Hit [] (w.modifyLambda k f) := by
  have same {α : Type} {g : LambdaRecord → α} (h : ∀ r, g (f r) = g r) (j : LambdaId) :
      g ((w.modifyLambda k f).lambdaAt j) = g (w.lambdaAt j) := by
    rw [lambdaAt_modifyLambda]
    split
    · exact h _
    · rfl
  exact ofRecords rfl (Array.size_modify ..) (same hfixable) (same hcache) (same hgeneration)

theorem invalidate (w : World) (j : LambdaId) : w.Hit [j] (w.invalidate j) where
  threads := by
    rw [rest_invalidate]
  size := size_invalidate w j
  fixable k := by
    rw [lambdaAt_invalidate]
    split <;> rfl
  cache k := by
    rw [lambdaAt_invalidate]
    simp only [List.mem_singleton]
    by_cases hlt : k.index < w.lambdas.size
    · by_cases hj : j = k
      · rw [if_pos ⟨hj, hlt⟩, if_pos hj.symm]
        exact cache_dropResult _
      · rw [if_neg fun h => hj h.1, if_neg fun h => hj h.symm]
        rfl
    · rw [if_neg fun h => hlt h.2, lambdaAt_of_size_le (Nat.le_of_not_lt hlt)]
      split <;> rfl
  generation {k} hlt := by
    rw [lambdaAt_invalidate, List.count_singleton]
    by_cases hj : j = k <;> simp [hj, hlt, LambdaRecord.unfollowed]

theorem foldl (ks : List LambdaId) (w : World) : w.Hit ks (ks.foldl World.invalidate w) := by
  induction ks generalizing w with
  | nil => exact ofStill ⟨rfl, rfl⟩
  | cons k ks ih => exact (invalidate w k).append (ih _)

/-- What a pass notes of the lambdas that it reaches takes no result away. -/
theorem discover (live : Holders) (thread : ThreadId) (steps : Nat) (w : World) (pending : List LambdaId) :
    w.Hit [] (World.discover live thread steps w pending).2 := by
  induction steps generalizing w pending with
  | zero => exact ofStill ⟨rfl, rfl⟩
  | succ steps ih =>
    cases pending with
    | nil => exact ofStill ⟨rfl, rfl⟩
    | cons first pending =>
      rw [World.discover]
      split
      · exact ih w pending
      · have visited : w.Hit [] (w.visit live thread first) :=
          modifyLambda first (fun _ => rfl) (fun _ => rfl) fun _ => rfl
        rw [World.visit_eq]
        exact visited.append (ih _ _)

theorem swept (w : World) (thread : ThreadId) (held : List Place) (roots : List LambdaId) :
    w.Hit (w.enter (w.liveness held) thread roots).1 (w.swept thread held roots) :=
  (discover _ thread _ w roots).append (foldl _ _)

/-- Nobody is noted as notifying the lambdas any more. -/
theorem left (thread : ThreadId) (ks : List LambdaId) (w : World) :
    w.Hit [] (ks.foldl (fun v k => v.leaveNotify thread k) w) := by
  induction ks generalizing w with
  | nil => exact ofStill ⟨rfl, rfl⟩
  | cons k ks ih =>
    have step : w.Hit [] (w.leaveNotify thread k) :=
      modifyLambda k (fun _ => rfl) (fun _ => rfl) fun _ => rfl
    exact step.append (ih _)

end Hit

/-! ## Forces -/

section Forces

variable {thread : ThreadId} {k j : LambdaId} {outcome : Except Error Value}

@[simp] theorem threads_opened : (w.opened thread k).threads = w.threads := by
  unfold opened
  split <;> rfl

@[simp] theorem threads_closed : (w.closed thread k outcome u).threads = u.threads := by
  unfold closed
  split <;> rfl

@[simp] theorem size_opened : (w.opened thread k).lambdas.size = w.lambdas.size := by
  unfold opened
  split
  · exact Array.size_modify ..
  · rfl

@[simp] theorem size_closed : (w.closed thread k outcome u).lambdas.size = u.lambdas.size := by
  unfold closed
  split
  · exact Array.size_modify ..
  · rfl

/-- When a force returns, nothing but the cache of its lambda has changed. -/
theorem lambdaAt_closed (w u : World) (thread : ThreadId) (k : LambdaId) (outcome : Except Error Value) :
    ∃ cache, (w.closed thread k outcome u).lambdaAt k = { u.lambdaAt k with cache } := by
  unfold closed
  split
  · rw [lambdaAt_modifyLambda]
    split
    · unfold LambdaId.settle
      split
      · split <;> exact ⟨_, rfl⟩
      · split <;> exact ⟨_, rfl⟩
      · exact ⟨_, rfl⟩
    · exact ⟨_, rfl⟩
  · exact ⟨_, rfl⟩

end Forces

end World

/-! ## Histories -/

/-- How often a lambda is invalidated when something happens. -/
def Happening.hits (k : LambdaId) : Happening → Nat
  | .notified _ ks => ks.count k
  | _ => 0

/-- How often a lambda has been invalidated in the course of some events. -/
def LambdaId.hits (k : LambdaId) (es : List Occurrence) : Nat :=
  es.foldr (fun e count => e.happening.hits k + count) 0

@[simp] theorem LambdaId.hits_nil (k : LambdaId) : k.hits [] = 0 := rfl

@[simp] theorem LambdaId.hits_cons (k : LambdaId) (e : Occurrence) (es : List Occurrence) :
    k.hits (e :: es) = e.happening.hits k + k.hits es := rfl

@[simp] theorem LambdaId.hits_append (k : LambdaId) (es es' : List Occurrence) :
    k.hits (es ++ es') = k.hits es + k.hits es' := by
  induction es with
  | nil => simp
  | cons e es ih => simp [ih, Nat.add_assoc]

/-- What happens at once changes registrations only, unless a lambda is made. -/
theorem Happening.Takes.rewired {thread : ThreadId} {happening : Happening} {w v : World}
    (h : happening.Takes thread w v) (hmade : ∀ k, happening ≠ .made k) : w.Rewired v := by
  cases h with
  | made h => exact absurd rfl (hmade _)
  | numbered k => exact .numbered w k
  | listened k _ callback => exact .listened w k _ callback
  | unlistened k key => exact .removeListener w k key
  | answered _ _ => exact .refl w
  | refused _ _ => exact .refl w

theorem Happening.Takes.hits {thread : ThreadId} {happening : Happening} {w v : World} {k : LambdaId}
    (h : happening.Takes thread w v) : happening.hits k = 0 := by
  cases h <;> rfl

/-- What lasts of a lambda in the course of some events, and how often it has been invalidated. -/
structure World.Lasts (k : LambdaId) (es : List Occurrence) (w v : World) : Prop where
  size : w.lambdas.size ≤ v.lambdas.size
  threads : w.threads ≤ v.threads
  fixable (h : k.index < w.lambdas.size) : (v.lambdaAt k).fixable = (w.lambdaAt k).fixable
  generation (h : k.index < w.lambdas.size) :
    (v.lambdaAt k).generation = (w.lambdaAt k).generation + k.hits es

namespace World.Lasts

variable {k j : LambdaId} {es es' : List Occurrence} {u v w : World} {thread : ThreadId}
  {outcome : Except Error Value} {happening : Happening}

theorem append (h : u.Lasts k es v) (h' : v.Lasts k es' w) : u.Lasts k (es ++ es') w where
  size := h.size.trans h'.size
  threads := h.threads.trans h'.threads
  fixable hlt := (h'.fixable (by have := h.size; omega)).trans (h.fixable hlt)
  generation hlt := by
    rw [h'.generation (by have := h.size; omega), h.generation hlt, LambdaId.hits_append, Nat.add_assoc]

theorem ofHit {ks : List LambdaId} (h : w.Hit ks v) (hks : happening.hits k = ks.count k) :
    w.Lasts k [⟨happening, w, v⟩] v where
  size := h.size.ge
  threads := h.threads.ge
  fixable _ := h.fixable k
  generation hlt := by
    rw [h.generation hlt, LambdaId.hits_cons, hks]
    rfl

theorem ofSame (h : w.Hit [] v) : w.Lasts k [] v where
  size := h.size.ge
  threads := h.threads.ge
  fixable _ := h.fixable k
  generation := h.generation

/-- What concerns the cache only lasts no time. -/
theorem ofCache (hsize : v.lambdas.size = w.lambdas.size) (hthreads : v.threads = w.threads)
    (h : ∃ cache, v.lambdaAt k = { w.lambdaAt k with cache }) : w.Lasts k [] v := by
  obtain ⟨cache, h⟩ := h
  refine ⟨hsize.ge, hthreads.ge, fun _ => ?_, fun _ => ?_⟩
  · rw [h]
  · rw [h]
    rfl

theorem opened (w : World) (thread : ThreadId) (j : LambdaId) : w.Lasts k [] (w.opened thread j) := by
  refine ofCache size_opened threads_opened ?_
  by_cases hj : k = j
  · subst hj
    exact lambdaAt_opened w thread k
  · exact ⟨_, lambdaAt_opened_of_ne hj⟩

theorem closed (w u : World) (thread : ThreadId) (j : LambdaId) (outcome : Except Error Value) :
    u.Lasts k [] (w.closed thread j outcome u) := by
  refine ofCache size_closed threads_closed ?_
  by_cases hj : k = j
  · subst hj
    exact lambdaAt_closed w u thread k outcome
  · exact ⟨_, lambdaAt_closed_of_ne hj⟩

/-- A new lambda comes last. -/
theorem made (w : World) (record : LambdaRecord) : w.Lasts k [] (w.withLambda record) := by
  have wired := Rewired.withLambda w record
  have pushed : w.Lasts k [] { w with lambdas := w.lambdas.push record } := by
    have same (hlt : k.index < w.lambdas.size) :
        ({ w with lambdas := w.lambdas.push record } : World).lambdaAt k = w.lambdaAt k := by
      rw [lambdaAt, getD_push, if_neg (Nat.ne_of_lt hlt)]
      rfl
    refine ⟨?_, Nat.le_refl _, fun hlt => ?_, fun hlt => ?_⟩
    · simp
    · rw [same hlt]
    · rw [same hlt]
      rfl
  exact pushed.append (ofSame (.ofRewired wired))

/-- The same with events that do not invalidate the lambda. -/
theorem withEvents (h : w.Lasts k es v) (hes : k.hits es' = k.hits es) : w.Lasts k es' v :=
  ⟨h.size, h.threads, h.fixable, fun hlt => by rw [hes, h.generation hlt]⟩

theorem ofTakes (h : happening.Takes thread w v) : w.Lasts k [⟨happening, w, v⟩] v := by
  have unhit : k.hits [⟨happening, w, v⟩] = 0 := by
    rw [LambdaId.hits_cons, h.hits]
    rfl
  by_cases hmade : ∃ j, happening = .made j
  · obtain ⟨j, rfl⟩ := hmade
    cases h with
    | made h => exact (made w _).withEvents unhit
  · have wired := h.rewired fun j hj => hmade ⟨j, hj⟩
    exact (ofSame (.ofRewired wired)).withEvents unhit

/-- A pass has invalidated what it reaches. -/
theorem swept (w : World) (thread : ThreadId) (held : List Place) (roots : List LambdaId) :
    w.Lasts k
      [⟨.notified held (w.enter (w.liveness held) thread roots).1, w, w.swept thread held roots⟩]
      (w.swept thread held roots) :=
  ofHit (.swept w thread held roots) rfl

variable {serve : LambdaId → Eval Value}

/-- What lasts of a lambda while a thread works and no other one does anything. -/
theorem ofHistory (h : World.History serve World.Still thread es w v) : w.Lasts k es v := by
  induction h with
  | aside h => exact ofSame (.ofStill h)
  | others h => exact ofSame (.ofStill h)
  | trans _ _ ih ih' => exact ih.append ih'
  | begun _ ih => exact ⟨ih.size, Nat.le_of_succ_le ih.threads, ih.fixable, ih.generation⟩
  | took h => exact ofTakes h
  | @read _ thread scope j inner value es w v _ _ _ ih =>
    have followed : v.Lasts k [] (v.follow j inner) := ofSame (.ofRewired (.follow v j inner))
    exact ih.append (followed.withEvents rfl)
  | @computed _ thread j outcome es w v _ _ _ _ ih =>
    have whole := (opened (k := k) w thread.id j).append (ih.append (closed w v thread.id j outcome))
    refine whole.withEvents ?_
    simp [Happening.hits]
  | @unknown _ thread j outcome es w v _ _ _ ih =>
    have whole := (opened (k := k) w thread.id j).append (ih.append (closed w v thread.id j outcome))
    refine whole.withEvents ?_
    simp
  | @passed thread held roots es w v _ ih =>
    have left : v.Lasts k [] (w.passed thread held roots v) := ofSame (.left thread _ v)
    refine ((swept w thread held roots).append (ih.append left)).withEvents ?_
    simp

theorem ofMidway (h : World.Midway serve World.Still thread es w v) : w.Lasts k es v := by
  induction h with
  | returned h => exact ofHistory h
  | trans h _ ih => exact (ofHistory h).append ih
  | begun _ ih => exact ⟨ih.size, Nat.le_of_succ_le ih.threads, ih.fixable, ih.generation⟩
  | @computing thread j es w v _ _ _ ih => exact ((opened w thread j).append ih).withEvents (by simp [Happening.hits])
  | @unknown thread j es w v _ _ ih => exact (opened w thread j).append ih
  | @passing thread held roots es w v _ ih => exact (swept w thread held roots).append ih

end World.Lasts

end Reactor
