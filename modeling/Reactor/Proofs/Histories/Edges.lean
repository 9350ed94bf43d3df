import Reactor.Proofs.Histories.Changes
import Reactor.Proofs.Network.Growth

/-!
# What a lambda is registered with

A lambda is registered with the lambdas that it is made of, for good, and with the one that it follows, until it
is invalidated. Both kinds of registrations are kept under the same key, so that the table does not tell one from
the other. `World.Linked` says that they are told apart all the same: there is no registration but those two, and
none that is both.

Nearly all changes leave alone what a lambda is registered with (`World.KeepsEdges`). Three do not: it is made,
it follows another lambda, and it is invalidated. Each of them leads to the registrations that it should
(`Linked.made`, `Linked.follow`, `Linked.invalidate`). No change does who uses the key of the lambda for something
else, and a pass drops no registration of a lambda that lives.
-/

namespace Reactor

/-- The entries that have to do with a lambda are the same. -/
structure LambdaRecord.TellsAs (k : LambdaId) (old new : LambdaRecord) : Prop where
  keyed (listener : Listener) : (.dependent k, listener) ∈ new.listeners ↔ (.dependent k, listener) ∈ old.listeners
  listed {key : ListenerKey} (h : (key, .dependent k) ∈ new.listeners) : (key, .dependent k) ∈ old.listeners

namespace World

/-- A lambda is registered with another one. -/
def Edge (w : World) (source k : LambdaId) : Prop :=
  (.dependent k, .dependent k) ∈ (w.lambdaAt source).listeners

/-- A lambda is registered with those that it is made of and with the one that it follows, and with no other. -/
structure Linked (k : LambdaId) (w : World) : Prop where
  /-- Its key is used for its registrations, and no other key is. -/
  keyed {source : LambdaId} {key : ListenerKey} {listener : Listener}
    (h : (key, listener) ∈ (w.lambdaAt source).listeners) : key = .dependent k ↔ listener = .dependent k
  edge_iff {source : LambdaId} : w.Edge source k ↔
    source ∈ lambdasOf (w.lambdaAt k).inputs ∨ (w.lambdaAt k).followed = some source
  /-- It does not follow a lambda that it is made of. -/
  apart {source : LambdaId} (h : (w.lambdaAt k).followed = some source) :
    source ∉ lambdasOf (w.lambdaAt k).inputs

/-- What a lambda is registered with has not changed, nor what it should be registered with. -/
structure KeepsEdges (k : LambdaId) (w v : World) : Prop where
  inputs : (v.lambdaAt k).inputs = (w.lambdaAt k).inputs
  followed : (v.lambdaAt k).followed = (w.lambdaAt k).followed
  record (source : LambdaId) : (w.lambdaAt source).TellsAs k (v.lambdaAt source)

end World

/-! ## Entries -/

namespace LambdaRecord.TellsAs

variable {k j : LambdaId} {old new record : LambdaRecord} {key : ListenerKey}

theorem ofListeners (h : new.listeners = old.listeners) : old.TellsAs k new :=
  ⟨fun _ => by rw [h], fun hentry => by rwa [h] at hentry⟩

theorem trans {next : LambdaRecord} (h : old.TellsAs k new) (h' : new.TellsAs k next) : old.TellsAs k next :=
  ⟨fun listener => (h'.keyed listener).trans (h.keyed listener), fun hentry => h.listed (h'.listed hentry)⟩

/-- A new entry under another key for somebody else does not matter. -/
theorem insert {listener : Listener} (hnew : Entries.contains record.listeners key = false)
    (hkey : key ≠ .dependent k) (hlistener : listener ≠ .dependent k) :
    record.TellsAs k { record with listeners := Entries.insert record.listeners key listener } := by
  have missing : Entries.get? record.listeners key = none := by
    simpa [Entries.contains] using hnew
  refine ⟨fun other => ⟨fun h => ?_, Entries.mem_insert_of_new missing⟩, fun h => ?_⟩
  · refine (Entries.mem_insert h).resolve_right fun same => ?_
    cases same
    exact hkey rfl
  · refine (Entries.mem_insert h).resolve_right fun same => ?_
    cases same
    exact hlistener rfl

theorem listened (hkey : key ≠ .dependent k) (callback : Callback) :
    record.TellsAs k (record.listened key callback) := by
  unfold LambdaRecord.listened
  split
  · exact ofListeners rfl
  · rename_i hnew
    exact insert (Bool.eq_false_of_not_eq_true hnew) hkey nofun

theorem enlist (hj : j ≠ k) : record.TellsAs k (record.enlist j) := by
  unfold LambdaRecord.enlist
  split
  · exact ofListeners rfl
  · rename_i hnew
    exact insert (Bool.eq_false_of_not_eq_true hnew) (by simpa using hj) (by simpa using hj)

/-- Entries are dropped, but none under the key of the lambda. -/
theorem filter {p : ListenerKey × Listener → Bool} (hnew : new.listeners = old.listeners.filter p)
    (h : ∀ listener, (.dependent k, listener) ∈ old.listeners → p (.dependent k, listener) = true) :
    old.TellsAs k new := by
  refine ⟨fun listener => ?_, fun hentry => ?_⟩
  · rw [hnew, List.mem_filter]
    exact and_iff_left_of_imp (h listener)
  · rw [hnew] at hentry
    exact (List.mem_filter.1 hentry).1

theorem erase (hkey : key ≠ .dependent k) :
    record.TellsAs k { record with listeners := Entries.erase record.listeners key } :=
  filter rfl fun _ _ => by simpa using hkey.symm

theorem unfollowed {followers : List LambdaId} (h : k ∉ followers) :
    record.TellsAs k (record.unfollowed followers) := by
  refine filter rfl fun _ _ => ?_
  simpa using h

end LambdaRecord.TellsAs

namespace World

variable {u v w : World} {k j : LambdaId} {α : Type}

/-! ## A new lambda -/

/-- Nobody is registered with a new lambda. -/
theorem listeners_push {record : LambdaRecord} (h : record.Blank) (k : LambdaId) :
    (({ w with lambdas := w.lambdas.push record } : World).lambdaAt k).listeners = (w.lambdaAt k).listeners := by
  rw [lambdaAt_push]
  split
  · rename_i new
    rw [h.listeners, lambdaAt_of_size_le new.ge]
    rfl
  · rfl

theorem inputs_withLambda (w : World) (record : LambdaRecord) :
    ((w.withLambda record).lambdaAt ⟨w.lambdas.size⟩).inputs = record.inputs := by
  rw [(Rewired.withLambda w record).record, lambdaAt_push, if_pos rfl]

theorem withLambda_eq (w : World) (record : LambdaRecord) :
    w.withLambda record = (lambdasOf record.inputs).foldl
      (fun v source => (v.addDependent source ⟨w.lambdas.size⟩).1)
      { w with lambdas := w.lambdas.push record } :=
  foldl_addDependent _ _ _

theorem enlisted_withLambda {record : LambdaRecord}
    (holder : ∀ source ∈ lambdasOf record.inputs, source.index < w.lambdas.size) :
    World.Enlisted ⟨w.lambdas.size⟩ (lambdasOf record.inputs) { w with lambdas := w.lambdas.push record }
      (w.withLambda record) := by
  rw [withLambda_eq]
  refine enlisted_foldl fun source hsource => ⟨holder source hsource, ?_⟩
  have older := holder source hsource
  show source.index < (w.lambdas.push record).size
  rw [Array.size_push]
  omega

/-! ## Changes that leave the registrations of a lambda alone -/

namespace KeepsEdges

theorem ofLambdas (h : v.lambdas = w.lambdas) : w.KeepsEdges k v := by
  have same (j : LambdaId) : v.lambdaAt j = w.lambdaAt j := by rw [lambdaAt, lambdaAt, h]
  refine ⟨?_, ?_, fun source => .ofListeners ?_⟩
  all_goals rw [same]

theorem refl (w : World) : w.KeepsEdges k w :=
  ofLambdas rfl

theorem trans (h : u.KeepsEdges k v) (h' : v.KeepsEdges k w) : u.KeepsEdges k w :=
  ⟨h'.inputs.trans h.inputs, h'.followed.trans h.followed, fun source => (h.record source).trans (h'.record source)⟩

theorem foldl {g : World → α → World} (h : ∀ w a, KeepsEdges k w (g w a)) (items : List α) (w : World) :
    w.KeepsEdges k (items.foldl g w) := by
  induction items generalizing w with
  | nil => exact refl w
  | cons item items ih => exact (h w item).trans (ih _)

theorem modifyLambda {f : LambdaRecord → LambdaRecord} (hinputs : ∀ r : LambdaRecord, (f r).inputs = r.inputs)
    (hfollowed : j = k → ∀ r : LambdaRecord, (f r).followed = r.followed)
    (h : (w.lambdaAt j).TellsAs k (f (w.lambdaAt j))) : w.KeepsEdges k (w.modifyLambda j f) := by
  refine ⟨?_, ?_, fun source => ?_⟩
  all_goals rw [lambdaAt_modifyLambda]; split
  · exact hinputs _
  · rfl
  · rename_i found
    exact hfollowed found.1 _
  · rfl
  · rename_i found
    exact found.1 ▸ h
  · exact .ofListeners rfl

/-- The table of a lambda is not looked at. -/
theorem modifyRecord (j : LambdaId) {f : LambdaRecord → LambdaRecord}
    (hinputs : ∀ r : LambdaRecord, (f r).inputs = r.inputs)
    (hfollowed : ∀ r : LambdaRecord, (f r).followed = r.followed)
    (hlisteners : ∀ r : LambdaRecord, (f r).listeners = r.listeners) : w.KeepsEdges k (w.modifyLambda j f) :=
  modifyLambda hinputs (fun _ => hfollowed) (.ofListeners (hlisteners _))

theorem listened {key : ListenerKey} (hkey : key ≠ .dependent k) (j : LambdaId) (callback : Callback) :
    w.KeepsEdges k (w.modifyLambda j fun record => record.listened key callback) := by
  refine modifyLambda (fun r => ?_) (fun _ r => ?_) (.listened hkey callback)
  all_goals unfold LambdaRecord.listened; split <;> rfl

theorem removeListener {key : ListenerKey} (hkey : key ≠ .dependent k) (j : LambdaId) :
    w.KeepsEdges k (w.removeListener j key) :=
  modifyLambda (fun _ => rfl) (fun _ _ => rfl) (.erase hkey)

theorem addDependent (hj : j ≠ k) (w : World) (source : LambdaId) :
    w.KeepsEdges k (w.addDependent source j).1 := by
  by_cases hself : j = source
  · subst hself
    rw [addDependent_self]
    exact refl w
  · rw [addDependent_eq hself]
    refine modifyLambda (fun r => ?_) (fun _ r => ?_) (.enlist hj)
    all_goals rw [LambdaRecord.enlist_eq]

/-- Another lambda is made. -/
theorem made {record : LambdaRecord} (h : record.Blank) (hk : k ≠ ⟨w.lambdas.size⟩) :
    w.KeepsEdges k (w.withLambda record) := by
  have other : k.index ≠ w.lambdas.size := fun same => hk (same ▸ rfl)
  have pushed : w.KeepsEdges k { w with lambdas := w.lambdas.push record } := by
    refine ⟨?_, ?_, fun source => .ofListeners (listeners_push h source)⟩
    all_goals rw [lambdaAt_push, if_neg other]
  rw [withLambda_eq]
  exact pushed.trans (foldl (fun v source => addDependent hk.symm v source) _ _)

/-- Another lambda follows one. -/
theorem follow (hj : j ≠ k) (w : World) (inner : LambdaId) : w.KeepsEdges k (w.follow j inner) := by
  have added := addDependent hj w inner
  unfold World.follow
  dsimp only
  split
  · exact refl w
  · split
    · rename_i v hadd
      rw [hadd] at added
      exact added
    · rename_i v hadd
      rw [hadd] at added
      have noted : w.KeepsEdges k (v.modifyLambda j fun record => { record with followed := some inner }) :=
        added.trans (modifyLambda (fun _ => rfl) (fun same => absurd same hj) (.ofListeners rfl))
      split
      · exact noted.trans (removeListener (by simpa using hj) _)
      · exact noted

/-- Another lambda is invalidated. -/
theorem invalidate (hj : j ≠ k) (w : World) : w.KeepsEdges k (w.invalidate j) := by
  have others (source : LambdaId) : k ∉ w.followersAmong [j] source := fun h =>
    hj (List.mem_singleton.1 (List.mem_filter.1 h).1).symm
  refine ⟨?_, ?_, fun source => ?_⟩
  · rw [lambdaAt_invalidate, if_neg fun found => hj found.1]
    rfl
  · rw [lambdaAt_invalidate, if_neg fun found => hj found.1]
    rfl
  · rw [lambdaAt_invalidate]
    split
    · have dropped : (w.lambdaAt source).TellsAs k (dropResult (w.lambdaAt source)) := .ofListeners rfl
      exact dropped.trans (.unfollowed (others source))
    · exact .unfollowed (others source)

theorem opened (w : World) (thread : ThreadId) (j : LambdaId) : w.KeepsEdges k (w.opened thread j) := by
  unfold World.opened
  split
  · exact modifyRecord j (fun _ => rfl) (fun _ => rfl) fun _ => rfl
  · exact refl w

theorem closed (w u : World) (thread : ThreadId) (j : LambdaId) (outcome : Except Error Value) :
    u.KeepsEdges k (w.closed thread j outcome u) := by
  have same (source : LambdaId) : ∃ cache,
      (w.closed thread j outcome u).lambdaAt source = { u.lambdaAt source with cache } := by
    by_cases hj : source = j
    · subst hj
      exact lambdaAt_closed w u thread source outcome
    · exact ⟨_, lambdaAt_closed_of_ne hj⟩
  obtain ⟨cache, own⟩ := same k
  refine ⟨?_, ?_, fun source => .ofListeners ?_⟩
  · rw [own]
  · rw [own]
  · obtain ⟨cache, other⟩ := same source
    rw [other]

/-- Nobody is noted as notifying some lambdas any more. -/
theorem left (thread : ThreadId) (ks : List LambdaId) (w : World) :
    w.KeepsEdges k (ks.foldl (fun v k => v.leaveNotify thread k) w) :=
  foldl (fun _ j => by exact modifyRecord j (fun _ => rfl) (fun _ => rfl) fun _ => rfl) ks w

end KeepsEdges

/-! ## A lambda follows another one -/

/-- Only lambdas that exist have registrations. -/
theorem Edge.lt {source : LambdaId} (h : w.Edge source k) : source.index < w.lambdas.size := by
  by_contra hge
  unfold Edge at h
  rw [lambdaAt_of_size_le (Nat.le_of_not_lt hge)] at h
  cases h

/-- A lambda follows another one instead of the one before. -/
structure Switched (k inner : LambdaId) (w v : World) : Prop where
  inputs : (v.lambdaAt k).inputs = (w.lambdaAt k).inputs
  followed : (v.lambdaAt k).followed = some inner
  entries (source : LambdaId) (entry : ListenerKey × Listener) : entry ∈ (v.lambdaAt source).listeners ↔
    (entry ∈ (w.lambdaAt source).listeners ∧ ((w.lambdaAt k).followed = some source → entry.1 ≠ .dependent k)) ∨
      (source = inner ∧ entry = (.dependent k, .dependent k))

/-- A lambda is registered with another one, and notes that it follows that one. -/
theorem noted_entries {inner : LambdaId} (hinner : inner.index < w.lambdas.size)
    (hlisted : ¬ Entries.contains (w.lambdaAt inner).listeners (.dependent k) = true)
    (source : LambdaId) (entry : ListenerKey × Listener) :
    entry ∈ (((w.modifyLambda inner (.enlist k)).modifyLambda k fun record =>
      { record with followed := some inner }).lambdaAt source).listeners ↔
        entry ∈ (w.lambdaAt source).listeners ∨ (source = inner ∧ entry = (.dependent k, .dependent k)) := by
  have same : (((w.modifyLambda inner (.enlist k)).modifyLambda k fun record =>
      { record with followed := some inner }).lambdaAt source).listeners =
        ((w.modifyLambda inner (.enlist k)).lambdaAt source).listeners := by
    rw [lambdaAt_modifyLambda]
    split <;> rfl
  have missing : Entries.get? (w.lambdaAt inner).listeners (.dependent k) = none := by
    simpa [Entries.contains] using hlisted
  rw [same, lambdaAt_modifyLambda]
  by_cases hsource : inner = source
  · subst hsource
    rw [if_pos ⟨rfl, hinner⟩, LambdaRecord.enlist, if_neg hlisted]
    refine ⟨fun h => (Entries.mem_insert h).imp_right fun same => ⟨rfl, same⟩, ?_⟩
    rintro (old | ⟨-, rfl⟩)
    · exact Entries.mem_insert_of_new missing old
    · exact Entries.mem_insert_self ..
  · rw [if_neg fun found => hsource found.1]
    simp [Ne.symm hsource]

theorem Switched.ofFollow {inner : LambdaId} (hk : k.index < w.lambdas.size) (hinner : inner.index < w.lambdas.size)
    (hself : inner ≠ k) (hlisted : ¬ Entries.contains (w.lambdaAt inner).listeners (.dependent k) = true)
    (hother : (w.lambdaAt k).followed ≠ some inner)
    (hprevious : ∀ p, (w.lambdaAt k).followed = some p → p.index < w.lambdas.size) :
    w.Switched k inner (w.follow k inner) := by
  have added : w.addDependent inner k = (w.modifyLambda inner (.enlist k), true) := by
    refine Prod.ext (addDependent_eq hself.symm) ?_
    unfold World.addDependent
    rw [if_neg (by simpa [hself.symm] using hlisted)]
  have noted := noted_entries (w := w) (k := k) hinner hlisted
  have own : ((w.modifyLambda inner (.enlist k)).modifyLambda k fun record =>
      { record with followed := some inner }).lambdaAt k = { w.lambdaAt k with followed := some inner } := by
    rw [lambdaAt_modifyLambda, if_pos ⟨rfl, (Array.size_modify ..).symm ▸ hk⟩, lambdaAt_modifyLambda,
      if_neg fun found => hself found.1]
  generalize hv : ((w.modifyLambda inner (.enlist k)).modifyLambda k fun record =>
    { record with followed := some inner }) = v at noted own
  have size : v.lambdas.size = w.lambdas.size := by
    subst hv
    exact (Array.size_modify ..).trans (Array.size_modify ..)
  unfold World.follow
  rw [added, if_neg hother]
  dsimp only
  rw [hv]
  cases hfollowed : (w.lambdaAt k).followed with
  | none =>
    refine ⟨by rw [own], by rw [own], fun source entry => ?_⟩
    rw [noted]
    simp [hfollowed]
  | some p =>
    have record (source : LambdaId) : (v.removeListener p (.dependent k)).lambdaAt source =
        if p = source then { v.lambdaAt source with
          listeners := Entries.erase (v.lambdaAt source).listeners (.dependent k) } else v.lambdaAt source := by
      unfold World.removeListener
      rw [lambdaAt_modifyLambda]
      by_cases hp : p = source
      · subst hp
        rw [if_pos ⟨rfl, size.symm ▸ hprevious _ hfollowed⟩, if_pos rfl]
      · rw [if_neg fun found => hp found.1, if_neg hp]
    refine ⟨?_, ?_, fun source entry => ?_⟩
    · rw [record]
      split <;> rw [own]
    · rw [record]
      split <;> rw [own]
    · rw [record]
      by_cases hp : p = source
      · subst hp
        have apart : p ≠ inner := fun same => hother (same ▸ hfollowed)
        rw [if_pos rfl]
        simp [Entries.erase, noted, hfollowed, apart]
      · rw [if_neg hp, noted]
        simp [hfollowed, hp]

/-! ## The registrations of a lambda -/

namespace Linked

theorem ofKeeps (hw : w.Linked k) (h : w.KeepsEdges k v) : v.Linked k := by
  have edge (source : LambdaId) : v.Edge source k ↔ w.Edge source k := (h.record source).keyed _
  refine ⟨fun {source key listener} hentry => ⟨?_, ?_⟩, fun {source} => ?_, fun {source} hfollowed => ?_⟩
  · rintro rfl
    exact (hw.keyed (((h.record source).keyed listener).1 hentry)).1 rfl
  · rintro rfl
    exact (hw.keyed ((h.record source).listed hentry)).2 rfl
  · rw [edge, hw.edge_iff, h.inputs, h.followed]
  · rw [h.followed] at hfollowed
    rw [h.inputs]
    exact hw.apart hfollowed

/-- The dependents of a lambda are those that are registered with it. -/
theorem mem_dependents_iff (hw : w.Linked k) (source : LambdaId) : k ∈ w.dependents source ↔ w.Edge source k := by
  unfold dependents Edge
  rw [List.mem_filterMap]
  constructor
  · rintro ⟨⟨key, listener⟩, hentry, hlistener⟩
    cases listener with
    | callback callback => cases hlistener
    | dependent id =>
      cases hlistener
      rwa [(hw.keyed hentry).2 rfl] at hentry
  · exact fun hentry => ⟨_, hentry, rfl⟩

theorem edge_of_contains (hw : w.Linked k) {source : LambdaId}
    (h : Entries.contains (w.lambdaAt source).listeners (.dependent k) = true) : w.Edge source k := by
  obtain ⟨listener, hlistener⟩ := Option.isSome_iff_exists.1 h
  have hentry := Entries.mem_of_get?_eq_some hlistener
  rwa [(hw.keyed hentry).1 rfl] at hentry

/-- If nothing has been registered for a lambda that is made of no others, or that does not exist yet. -/
theorem ofFree (hinputs : lambdasOf (w.lambdaAt k).inputs = []) (hfollowed : (w.lambdaAt k).followed = none)
    (hfree : ∀ source, ∀ entry ∈ (w.lambdaAt source).listeners, entry.1 ≠ .dependent k ∧ entry.2 ≠ .dependent k) :
    w.Linked k := by
  refine ⟨fun {source key listener} hentry => ?_, fun {source} => ?_, fun hsource => ?_⟩
  · obtain ⟨hkey, hlistener⟩ := hfree source _ hentry
    exact iff_of_false hkey hlistener
  · rw [hinputs, hfollowed]
    refine iff_of_false (fun hedge => (hfree source _ hedge).1 rfl) ?_
    simp
  · rw [hfollowed] at hsource
    cases hsource

/-! ## Changes of the registrations of a lambda -/

/-- A lambda is made of others, and registered with them. -/
theorem made {record : LambdaRecord} (hw : w.Linked ⟨w.lambdas.size⟩) (h : record.Blank)
    (holder : ∀ source ∈ lambdasOf record.inputs, source.index < w.lambdas.size) :
    (w.withLambda record).Linked ⟨w.lambdas.size⟩ := by
  have enlisted := enlisted_withLambda holder
  have own : (w.withLambda record).lambdaAt ⟨w.lambdas.size⟩ =
      { record with listeners := ((w.withLambda record).lambdaAt ⟨w.lambdas.size⟩).listeners } := by
    rw [enlisted.record, lambdaAt_push, if_pos rfl]
  have inputs := inputs_withLambda w record
  have followed : ((w.withLambda record).lambdaAt ⟨w.lambdas.size⟩).followed = none := by rw [own, h.followed]
  -- Until now the key has not been used.
  have unused (source : LambdaId) : ¬ w.Edge source ⟨w.lambdas.size⟩ := by
    have unborn : w.lambdaAt ⟨w.lambdas.size⟩ = default := lambdaAt_of_size_le (Nat.le_refl w.lambdas.size)
    rw [hw.edge_iff, unborn]
    rintro (hsource | hfollowed)
    · cases hsource
    · cases hfollowed
  have keyed {source : LambdaId} {key : ListenerKey} {listener : Listener}
      (hentry : (key, listener) ∈ ((w.withLambda record).lambdaAt source).listeners) :
      key = .dependent ⟨w.lambdas.size⟩ ↔ listener = .dependent ⟨w.lambdas.size⟩ := by
    rcases enlisted.listener hentry with old | ⟨-, rfl, rfl⟩
    · rw [listeners_push h] at old
      exact hw.keyed old
    · exact iff_of_true rfl rfl
  refine ⟨keyed, fun {source} => ?_, fun hfollowed => ?_⟩
  · rw [inputs, followed]
    refine ⟨fun hedge => ?_, fun hsource => ?_⟩
    · rcases enlisted.listener hedge with old | ⟨hsource, -⟩
      · rw [listeners_push h] at old
        exact absurd old (unused source)
      · exact .inl hsource
    · have listed := enlisted.enlisted (hsource.resolve_right nofun)
      obtain ⟨listener, hlistener⟩ := Option.isSome_iff_exists.1 listed
      have hentry := Entries.mem_of_get?_eq_some hlistener
      rwa [(keyed hentry).1 rfl] at hentry
  · rw [followed] at hfollowed
    cases hfollowed

/-- A lambda that is invalidated is registered with those only that it is made of. -/
theorem invalidate (hw : w.Linked k) :
    (w.invalidate k).Linked k ∧ ((w.invalidate k).lambdaAt k).followed = none := by
  have kept (source : LambdaId) : ((w.invalidate k).lambdaAt source).listeners =
      ((w.lambdaAt source).unfollowed (w.followersAmong [k] source)).listeners := by
    rw [lambdaAt_invalidate]
    split <;> rfl
  have inputs : ((w.invalidate k).lambdaAt k).inputs = (w.lambdaAt k).inputs := by
    rw [lambdaAt_invalidate]
    split <;> rfl
  have followed : ((w.invalidate k).lambdaAt k).followed = none := by
    rw [lambdaAt_invalidate]
    split
    · rfl
    · rename_i missing
      rw [lambdaAt_of_size_le (Nat.le_of_not_lt fun hlt => missing ⟨rfl, hlt⟩)]
      rfl
  have edge (source : LambdaId) :
      (w.invalidate k).Edge source k ↔ w.Edge source k ∧ (w.lambdaAt k).followed ≠ some source := by
    unfold Edge
    rw [kept]
    by_cases hsource : (w.lambdaAt k).followed = some source
    · rw [followersAmong_of_followed hsource]
      simp [LambdaRecord.unfollowed, hsource]
    · rw [followersAmong_of_not_followed hsource, unfollowed_nil]
      simp [hsource]
  refine ⟨⟨fun hentry => ?_, fun {source} => ?_, fun hfollowed => ?_⟩, followed⟩
  · rw [kept] at hentry
    exact hw.keyed (List.mem_filter.1 hentry).1
  · rw [edge, hw.edge_iff, inputs, followed]
    constructor
    · rintro ⟨hsource | hsource, other⟩
      · exact .inl hsource
      · exact absurd hsource other
    · intro hsource
      have declared := hsource.resolve_right (Option.some_ne_none source).symm
      exact ⟨.inl declared, fun hfollowed => hw.apart hfollowed declared⟩
  · rw [followed] at hfollowed
    cases hfollowed

/-- The lambda is registered with the one that it follows now, and no longer with the one before. -/
theorem ofSwitched {inner : LambdaId} (hw : w.Linked k) (hnew : ¬ w.Edge inner k) (h : w.Switched k inner v) :
    v.Linked k := by
  have edge (source : LambdaId) : v.Edge source k ↔
      (w.Edge source k ∧ (w.lambdaAt k).followed ≠ some source) ∨ source = inner := by
    unfold Edge
    rw [h.entries]
    simp
  refine ⟨fun {source key listener} hentry => ?_, fun {source} => ?_, fun {source} hsource => ?_⟩
  · rcases (h.entries source _).1 hentry with ⟨old, -⟩ | ⟨-, same⟩
    · exact hw.keyed old
    · cases same
      exact iff_of_true rfl rfl
  · rw [edge, hw.edge_iff, h.inputs, h.followed, Option.some.injEq, eq_comm (a := inner)]
    refine or_congr_left ⟨?_, fun hsource => ⟨.inl hsource, fun hprevious => hw.apart hprevious hsource⟩⟩
    rintro ⟨hsource | hsource, other⟩
    · exact hsource
    · exact absurd hsource other
  · rw [h.followed] at hsource
    cases hsource
    rw [h.inputs]
    exact fun declared => hnew (hw.edge_iff.2 (.inl declared))

/-- A lambda that follows another one is registered with it. -/
theorem follow {inner : LambdaId} (hw : w.Linked k) (hk : k.index < w.lambdas.size)
    (hinner : inner.index < w.lambdas.size) :
    (w.follow k inner).Linked k ∧ (inner ≠ k → (w.follow k inner).Edge inner k) := by
  by_cases hself : inner = k
  · subst hself
    unfold World.follow
    rw [addDependent_self]
    refine ⟨?_, fun other => absurd rfl other⟩
    dsimp only
    split <;> exact hw
  by_cases hlisted : Entries.contains (w.lambdaAt inner).listeners (.dependent k) = true
  · have refused : w.addDependent inner k = (w, false) := if_pos (.inr hlisted)
    unfold World.follow
    rw [refused]
    dsimp only
    split <;> exact ⟨hw, fun _ => hw.edge_of_contains hlisted⟩
  · have hnew : ¬ w.Edge inner k := fun hedge => hlisted (Entries.contains_of_mem hedge)
    have switched : w.Switched k inner (w.follow k inner) := by
      refine .ofFollow hk hinner hself hlisted (fun hfollowed => ?_) fun p hfollowed => ?_
      · exact hnew (hw.edge_iff.2 (.inr hfollowed))
      · exact (hw.edge_iff.2 (.inr hfollowed)).lt
    exact ⟨hw.ofSwitched hnew switched, fun _ => (switched.entries inner _).2 (.inr ⟨rfl, rfl⟩)⟩

end Linked

/-! ## A pass -/

section Passes

variable {live : Holders}

/-- Only lambdas that exist are registered. -/
theorem Linked.lt_of_edge (hw : w.Linked k) {source : LambdaId} (h : w.Edge source k) :
    k.index < w.lambdas.size := by
  by_contra hge
  have unborn := lambdaAt_of_size_le (Nat.le_of_not_lt hge)
  rcases hw.edge_iff.1 h with hsource | hfollowed
  · rw [unborn] at hsource
    cases hsource
  · rw [unborn] at hfollowed
    cases hfollowed

/-- The registrations are kept of a lambda that lives. -/
theorem KeepsEdges.visit (hw : w.Linked k) (halive : k.index < w.lambdas.size → live.hasLambda k = true)
    (thread : ThreadId) (j : LambdaId) : w.KeepsEdges k (w.visit live thread j) := by
  refine modifyLambda (fun _ => rfl) (fun _ _ => rfl) (.filter rfl fun listener hentry => ?_)
  obtain rfl := (hw.keyed hentry).1 rfl
  exact halive (hw.lt_of_edge hentry)

theorem KeepsEdges.discover (hw : w.Linked k) (halive : k.index < w.lambdas.size → live.hasLambda k = true)
    (thread : ThreadId) (steps : Nat) (pending : List LambdaId) :
    w.KeepsEdges k (World.discover live thread steps w pending).2 := by
  induction steps generalizing w pending with
  | zero => exact refl w
  | succ steps ih =>
    cases pending with
    | nil => exact refl w
    | cons first pending =>
      rw [World.discover]
      split
      · exact ih hw halive pending
      · have visited := visit hw halive thread first
        rw [World.visit_eq]
        exact visited.trans (ih (hw.ofKeeps visited) (by rwa [size_visit]) _)

theorem KeepsEdges.foldl_invalidate {ks : List LambdaId} (h : k ∉ ks) (w : World) :
    w.KeepsEdges k (ks.foldl World.invalidate w) := by
  induction ks generalizing w with
  | nil => exact refl w
  | cons j ks ih =>
    obtain ⟨hj, hks⟩ := not_or.1 (List.mem_cons.not.1 h)
    exact (invalidate (Ne.symm hj) w).trans (ih hks _)

/-- A lambda that has been invalidated follows none, whoever else is invalidated then. -/
theorem Linked.foldl_invalidate {ks : List LambdaId} (hw : w.Linked k) :
    (ks.foldl World.invalidate w).Linked k ∧
      (k ∈ ks ∨ (w.lambdaAt k).followed = none → ((ks.foldl World.invalidate w).lambdaAt k).followed = none) := by
  induction ks generalizing w with
  | nil => exact ⟨hw, fun h => h.resolve_left List.not_mem_nil⟩
  | cons j ks ih =>
    by_cases hj : j = k
    · subst hj
      obtain ⟨linked, free⟩ := hw.invalidate
      obtain ⟨last, stays⟩ := ih linked
      exact ⟨last, fun _ => stays (.inr free)⟩
    · have kept := KeepsEdges.invalidate hj w
      obtain ⟨last, stays⟩ := ih (hw.ofKeeps kept)
      refine ⟨last, fun h => stays (h.imp (fun hmem => ?_) fun free => kept.followed.trans free)⟩
      exact (List.mem_cons.1 hmem).resolve_left (Ne.symm hj)

variable {held : List Place} (hw : w.Linked k)
  (halive : k.index < w.lambdas.size → (w.liveness held).hasLambda k = true) (thread : ThreadId)
  (roots : List LambdaId)
include hw halive

/-- What a pass makes of the registrations of a lambda that lives. -/
theorem Linked.swept :
    (w.swept thread held roots).Linked k ∧
      (k ∈ (w.enter (w.liveness held) thread roots).1 →
        ((w.swept thread held roots).lambdaAt k).followed = none) := by
  have entered := KeepsEdges.discover hw halive thread (roots.length + w.listenerTotal + 1) roots
  obtain ⟨linked, free⟩ := (hw.ofKeeps entered).foldl_invalidate
  exact ⟨linked, fun hk => free (.inl hk)⟩

theorem KeepsEdges.swept (hk : k ∉ (w.enter (w.liveness held) thread roots).1) :
    w.KeepsEdges k (w.swept thread held roots) :=
  (discover hw halive thread (roots.length + w.listenerTotal + 1) roots).trans (foldl_invalidate hk _)

/-- With a lambda a pass reaches all that are registered with it, unless a pass is under way that has reached
them. -/
theorem Linked.reached {source : LambdaId} (hedge : w.Edge source k)
    (hsource : source ∈ (w.enter (w.liveness held) thread roots).1) (idle : (w.lambdaAt k).notifying = []) :
    k ∈ (w.enter (w.liveness held) thread roots).1 := by
  have hlive : k ∈ w.liveDependents (w.liveness held) source :=
    List.mem_filter.2 ⟨(hw.mem_dependents_iff source).2 hedge, halive (hw.lt_of_edge hedge)⟩
  refine (collects_enter w (w.liveness held) thread roots).mem_of_dependent hsource hlive ?_
  simp [isNotifying, idle]

end Passes

end World

end Reactor
