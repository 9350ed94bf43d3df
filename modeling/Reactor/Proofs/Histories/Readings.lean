import Reactor.Proofs.Histories.Edges
import Reactor.Proofs.Histories.Forces

/-!
# What a lambda has read

A lambda that keeps a result which its computation has read from another lambda is registered with that one
(`LambdaId.edges_are_exact`), so that a pass which reaches that one reaches it too, unless the thread is notifying
it already. When it is invalidated it stays registered with those only that it is made of, and with these it is
registered for good.

This is said of a lambda that lives as long as it is asked about, and of lambdas that exist when they are named. The
texts of lambdas are no secret, and a host that registers a callback under one of them takes the place of the
lambda (`LambdaId.chosen_key_hides_reader`).
-/

namespace Reactor

/-- What a lambda follows after something has happened. -/
def Happening.lastRead (k : LambdaId) (last : Option LambdaId) : Happening → Option LambdaId
  | .followed j inner => if j = k then some inner else last
  | .notified _ ks => if k ∈ ks then none else last
  | _ => last

/-- The lambda that the last computation of a lambda has given which has given one, unless the lambda has been
invalidated since. -/
def LambdaId.lastRead (k : LambdaId) (last : Option LambdaId) (es : List Occurrence) : Option LambdaId :=
  es.foldl (fun last e => e.happening.lastRead k last) last

@[simp] theorem LambdaId.lastRead_cons (k : LambdaId) (last : Option LambdaId) (e : Occurrence) (es : List Occurrence) :
    k.lastRead last (e :: es) = k.lastRead (e.happening.lastRead k last) es := rfl

@[simp] theorem LambdaId.lastRead_append (k : LambdaId) (last : Option LambdaId) (es es' : List Occurrence) :
    k.lastRead last (es ++ es') = k.lastRead (k.lastRead last es) es' :=
  List.foldl_append

/-- Without a pass that invalidates the lambda, and without another computation of it, nothing changes. -/
theorem LambdaId.lastRead_of_unhit {k : LambdaId} {last : Option LambdaId} {es : List Occurrence}
    (hhits : k.hits es = 0) (hlast : ∀ e ∈ es, ∀ j, e.happening ≠ .followed k j) : k.lastRead last es = last := by
  induction es generalizing last with
  | nil => rfl
  | cons e es ih =>
    obtain ⟨first, rest⟩ := List.forall_mem_cons.1 hlast
    rw [LambdaId.hits_cons, Nat.add_eq_zero_iff] at hhits
    rw [LambdaId.lastRead_cons, ih hhits.2 rest]
    cases hhappening : e.happening with
    | followed j inner =>
      have other : j ≠ k := fun same => first inner (same ▸ hhappening)
      rw [Happening.lastRead, if_neg other]
    | notified held ks =>
      have missed : ks.count k = 0 := by
        rw [hhappening] at hhits
        exact hhits.1
      rw [Happening.lastRead, if_neg (List.count_eq_zero.1 missed)]
    | _ => rfl

/-- Nothing out of the ordinary happens to a lambda. -/
structure Occurrence.Ordinary (k : LambdaId) (e : Occurrence) : Prop where
  /-- No callback is registered under the key of the lambda. -/
  listened (j : LambdaId) : e.happening ≠ .listened j (.dependent k)
  unlistened (j : LambdaId) : e.happening ≠ .unlistened j (.dependent k)
  /-- While there are passes the lambda lives. -/
  alive {held : List Place} {ks : List LambdaId} (h : e.happening = .notified held ks)
    (hlt : k.index < e.before.lambdas.size) : (e.before.liveness held).hasLambda k = true
  /-- It is made of lambdas that exist. -/
  made {source : LambdaId} (h : e.happening = .made k) (hsource : source ∈ lambdasOf (e.after.lambdaAt k).inputs) :
    source.index < k.index
  /-- It follows lambdas that exist. -/
  followed {inner : LambdaId} (h : e.happening = .followed k inner) :
    k.index < e.before.lambdas.size ∧ inner.index < e.before.lambdas.size

/-- What a pass does to a lambda and its registrations. -/
structure Occurrence.Cuts (k : LambdaId) (e : Occurrence) : Prop where
  /-- A lambda that is invalidated stays registered with those only that it is made of. -/
  cut {held : List Place} {ks : List LambdaId} {source : LambdaId} (h : e.happening = .notified held ks)
    (hk : k ∈ ks) (hsource : k ∈ e.after.dependents source) : source ∈ lambdasOf (e.after.lambdaAt k).inputs
  /-- It is invalidated with the lambdas that it is registered with, if no pass is notifying it. -/
  reached {held : List Place} {ks : List LambdaId} {source : LambdaId} (h : e.happening = .notified held ks)
    (hsource : source ∈ ks) (hk : k ∈ e.before.dependents source)
    (idle : (e.before.lambdaAt k).notifying = []) : k ∈ ks

/-- A lambda is registered as it should be, also with the one that it has read last. -/
structure World.Attached (k : LambdaId) (last : Option LambdaId) (w : World) : Prop extends w.Linked k where
  read {inner : LambdaId} (h : last = some inner) (hother : inner ≠ k) : w.Edge inner k

/-- What is known of the registrations of a lambda after some events. -/
structure LambdaId.Exact (k : LambdaId) (es : List Occurrence) (v : World) : Prop where
  /-- It is registered with the lambdas that it is made of. -/
  declared {source : LambdaId} (h : source ∈ lambdasOf (v.lambdaAt k).inputs) : k ∈ v.dependents source
  /-- If it keeps a result, and its last computation has given another lambda, then it is registered with that. -/
  read {es₁ es₂ : List Occurrence} {e : Occurrence} {inner : LambdaId} {x : Value} (hes : es = es₁ ++ e :: es₂)
    (he : e.happening = .followed k inner) (hother : inner ≠ k)
    (hlast : ∀ e' ∈ es₂, e'.happening ≠ .began k ∧ ∀ j, e'.happening ≠ .followed k j)
    (hc : (v.lambdaAt k).cache = .holding x) : k ∈ v.dependents inner

/-! ## Results that are kept have not been invalidated -/

namespace Phase

variable {k : LambdaId} {p : Phase} {es : List Occurrence} {x : Value} {happening : Happening}

/-- No result is kept, and none will be unless a computation begins. -/
def Stale (p : Phase) : Prop :=
  p ≠ .forcing 0 ∧ ∀ x, p ≠ .forced x

theorem stale_hit {n : Nat} (h : p.Stale ∨ 0 < n) : (p.hit n).Stale := by
  cases p with
  | unborn => exact ⟨nofun, nofun⟩
  | unforced => exact ⟨nofun, nofun⟩
  | forcing m =>
    have counted : m ≠ 0 ∨ 0 < n := h.imp_left fun stale hm => stale.1 (hm ▸ rfl)
    refine ⟨fun same => ?_, nofun⟩
    injection same
    omega
  | forced y =>
    have hit : 0 < n := h.resolve_left fun stale => stale.2 y rfl
    rw [Phase.hit, if_neg (Nat.ne_of_gt hit)]
    exact ⟨nofun, nofun⟩

theorem Stale.settled (h : p.Stale) (outcome : Except Error Value) : (p.settled outcome).Stale := by
  cases p with
  | forcing m =>
    cases outcome with
    | error e => exact ⟨nofun, nofun⟩
    | ok y =>
      have hm : m ≠ 0 := fun hm => h.1 (hm ▸ rfl)
      rw [Phase.settled, if_neg hm]
      exact ⟨nofun, nofun⟩
  | unborn => exact h
  | unforced => exact h
  | forced y => exact h

theorem Stale.next (h : p.Stale) (hbegan : happening ≠ .began k) : (p.next k happening).Stale := by
  cases happening with
  | made j =>
    show (if j = k then unforced else p).Stale
    split
    · exact ⟨nofun, nofun⟩
    · exact h
  | began j =>
    have other : j ≠ k := fun same => hbegan (same ▸ rfl)
    rwa [Phase.next, if_neg other]
  | ended j outcome =>
    show (if j = k then p.settled outcome else p).Stale
    split
    · exact h.settled outcome
    · exact h
  | notified held ks => exact stale_hit (.inl h)
  | _ => exact h

theorem Stale.after (h : p.Stale) (hbegan : ∀ e ∈ es, e.happening ≠ .began k) : (p.after k es).Stale := by
  induction es generalizing p with
  | nil => exact h
  | cons e es ih =>
    obtain ⟨first, rest⟩ := List.forall_mem_cons.1 hbegan
    exact ih (h.next first) rest

/-- What is kept has not been invalidated since its computation began. -/
theorem hits_of_forced (hbegan : ∀ e ∈ es, e.happening ≠ .began k) (h : p.after k es = .forced x) :
    k.hits es = 0 := by
  induction es generalizing p with
  | nil => rfl
  | cons e es ih =>
    obtain ⟨first, rest⟩ := List.forall_mem_cons.1 hbegan
    rw [LambdaId.hits_cons, ih rest h, Nat.add_zero]
    by_contra hit
    have stale : (p.next k e.happening).Stale := by
      cases hhappening : e.happening with
      | notified held ks =>
        rw [hhappening] at hit
        exact stale_hit (.inr (Nat.pos_of_ne_zero hit))
      | _ => exact absurd (by rw [hhappening]; rfl) hit
    exact (stale.after rest).2 x h

end Phase

/-! ## Histories -/

namespace World

variable {serve : LambdaId → Eval Value} {thread : ThreadId} {k : LambdaId} {last : Option LambdaId}
  {es : List Occurrence} {happening : Happening} {v w : World}

theorem Attached.ofKeeps (hw : w.Attached k last) (h : w.KeepsEdges k v) : v.Attached k last :=
  ⟨hw.toLinked.ofKeeps h, fun hlast hother => ((h.record _).keyed _).2 (hw.read hlast hother)⟩

/-- What happens at once leaves the registrations of a lambda alone, unless it is made. -/
theorem Attached.ofTakes (hw : w.Attached k last) (h : happening.Takes thread w v)
    (hordinary : Occurrence.Ordinary k ⟨happening, w, v⟩) : v.Attached k (happening.lastRead k last) := by
  cases h with
  | @made _ record hblank =>
    by_cases hk : k = ⟨w.lambdas.size⟩
    · subst hk
      have holder (source : LambdaId) (hsource : source ∈ lambdasOf record.inputs) :
          source.index < w.lambdas.size :=
        hordinary.made rfl (by rwa [inputs_withLambda])
      refine ⟨hw.toLinked.made hblank holder, fun hlast hother => ?_⟩
      exact absurd (hw.toLinked.lt_of_edge (hw.read hlast hother)) (Nat.lt_irrefl _)
    · exact hw.ofKeeps (.made hblank hk)
  | numbered j => exact hw.ofKeeps (.modifyRecord j (fun _ => rfl) (fun _ => rfl) fun _ => rfl)
  | listened j key callback =>
    have hkey : key ≠ .dependent k := fun same => hordinary.listened j (same ▸ rfl)
    exact hw.ofKeeps (.listened hkey j callback)
  | unlistened j key =>
    have hkey : key ≠ .dependent k := fun same => hordinary.unlistened j (same ▸ rfl)
    exact hw.ofKeeps (.removeListener hkey j)
  | answered _ _ => exact hw
  | refused _ _ => exact hw

/-- A lambda follows the one that its computation has given. -/
theorem Attached.follow {j inner : LambdaId} (hw : w.Attached k last)
    (hordinary : Occurrence.Ordinary k ⟨.followed j inner, w, w.follow j inner⟩) :
    (w.follow j inner).Attached k (Happening.lastRead k last (.followed j inner)) := by
  by_cases hj : j = k
  · subst hj
    obtain ⟨hlt, hinner⟩ := hordinary.followed rfl
    obtain ⟨linked, edge⟩ := hw.toLinked.follow hlt hinner
    rw [Happening.lastRead, if_pos rfl]
    refine ⟨linked, fun hlast hother => ?_⟩
    cases hlast
    exact edge hother
  · rw [Happening.lastRead, if_neg hj]
    exact hw.ofKeeps (.follow hj w inner)

/-- A pass ends the registration with what the lambda has read. -/
theorem Attached.swept {held : List Place} {roots : List LambdaId} (hw : w.Attached k last)
    (hordinary : Occurrence.Ordinary k
      ⟨.notified held (w.enter (w.liveness held) thread roots).1, w, w.swept thread held roots⟩) :
    (w.swept thread held roots).Attached k
        (Happening.lastRead k last (.notified held (w.enter (w.liveness held) thread roots).1)) ∧
      Occurrence.Cuts k ⟨.notified held (w.enter (w.liveness held) thread roots).1, w, w.swept thread held roots⟩ := by
  have halive := hordinary.alive rfl
  obtain ⟨linked, free⟩ := hw.toLinked.swept halive thread roots
  refine ⟨?_, ⟨fun {_ _ source} h hk hsource => ?_, fun {_ _ source} h hsource hk idle => ?_⟩⟩
  · by_cases hk : k ∈ (w.enter (w.liveness held) thread roots).1
    · rw [Happening.lastRead, if_pos hk]
      exact ⟨linked, nofun⟩
    · rw [Happening.lastRead, if_neg hk]
      exact hw.ofKeeps (.swept hw.toLinked halive thread roots hk)
  · cases h
    have edge := (linked.mem_dependents_iff source).1 hsource
    have free := free hk
    rcases linked.edge_iff.1 edge with declared | followed
    · exact declared
    · cases free.symm.trans followed
  · cases h
    have edge := (hw.toLinked.mem_dependents_iff source).1 hk
    exact hw.toLinked.reached halive thread roots edge hsource idle

/-- What is no pass cuts nothing. -/
theorem cuts_of_other (h : ∀ held ks, happening ≠ .notified held ks) : Occurrence.Cuts k ⟨happening, w, v⟩ :=
  ⟨fun found => absurd found (h _ _), fun found => absurd found (h _ _)⟩

theorem History.attached (h : History serve Still thread es w v) (hes : ∀ e ∈ es, e.Ordinary k)
    (hw : w.Attached k last) : v.Attached k (k.lastRead last es) ∧ ∀ e ∈ es, e.Cuts k := by
  induction h generalizing last with
  | aside h => exact ⟨hw.ofKeeps (.ofLambdas h.lambdas), List.forall_mem_nil _⟩
  | others h => exact ⟨hw.ofKeeps (.ofLambdas h.lambdas), List.forall_mem_nil _⟩
  | trans _ _ ih ih' =>
    obtain ⟨first, second⟩ := List.forall_mem_append.1 hes
    obtain ⟨hv, cuts⟩ := ih first hw
    obtain ⟨hu, cuts'⟩ := ih' second hv
    rw [LambdaId.lastRead_append]
    exact ⟨hu, List.forall_mem_append.2 ⟨cuts, cuts'⟩⟩
  | begun _ ih => exact ih hes (hw.ofKeeps (.ofLambdas rfl))
  | took h =>
    refine ⟨hw.ofTakes h (List.forall_mem_singleton.1 hes), List.forall_mem_singleton.2 (cuts_of_other ?_)⟩
    cases h <;> simp
  | read _ _ _ ih =>
    obtain ⟨first, last⟩ := List.forall_mem_append.1 hes
    obtain ⟨hv, cuts⟩ := ih first hw
    rw [LambdaId.lastRead_append]
    exact ⟨hv.follow (List.forall_mem_singleton.1 last),
      List.forall_mem_append.2 ⟨cuts, List.forall_mem_singleton.2 (cuts_of_other (by simp))⟩⟩
  | @computed _ thread j outcome es w v _ _ _ _ ih =>
    obtain ⟨-, inside⟩ := List.forall_mem_cons.1 hes
    obtain ⟨first, -⟩ := List.forall_mem_append.1 inside
    obtain ⟨hv, cuts⟩ := ih first (hw.ofKeeps (.opened w thread.id j))
    have ended := hv.ofKeeps (.closed w v thread.id j outcome)
    rw [LambdaId.lastRead_cons, LambdaId.lastRead_append]
    exact ⟨ended, List.forall_mem_cons.2 ⟨cuts_of_other (by simp),
      List.forall_mem_append.2 ⟨cuts, List.forall_mem_singleton.2 (cuts_of_other (by simp))⟩⟩⟩
  | @unknown _ thread j outcome es w v _ _ _ ih =>
    obtain ⟨hv, cuts⟩ := ih hes (hw.ofKeeps (.opened w thread.id j))
    exact ⟨hv.ofKeeps (.closed w v thread.id j outcome), cuts⟩
  | @passed thread held roots es w v _ ih =>
    obtain ⟨first, inside⟩ := List.forall_mem_cons.1 hes
    obtain ⟨swept, cut⟩ := hw.swept first
    obtain ⟨hv, cuts⟩ := ih inside swept
    rw [LambdaId.lastRead_cons]
    exact ⟨hv.ofKeeps (.left thread _ v), List.forall_mem_cons.2 ⟨cut, cuts⟩⟩

theorem Midway.attached (h : Midway serve Still thread es w v) (hes : ∀ e ∈ es, e.Ordinary k)
    (hw : w.Attached k last) : v.Attached k (k.lastRead last es) ∧ ∀ e ∈ es, e.Cuts k := by
  induction h generalizing last with
  | returned h => exact h.attached hes hw
  | trans h _ ih =>
    obtain ⟨first, second⟩ := List.forall_mem_append.1 hes
    obtain ⟨hv, cuts⟩ := h.attached first hw
    obtain ⟨hu, cuts'⟩ := ih second hv
    rw [LambdaId.lastRead_append]
    exact ⟨hu, List.forall_mem_append.2 ⟨cuts, cuts'⟩⟩
  | begun _ ih => exact ih hes (hw.ofKeeps (.ofLambdas rfl))
  | @computing thread j es w v _ _ _ ih =>
    obtain ⟨-, inside⟩ := List.forall_mem_cons.1 hes
    obtain ⟨hv, cuts⟩ := ih inside (hw.ofKeeps (.opened w thread j))
    rw [LambdaId.lastRead_cons]
    exact ⟨hv, List.forall_mem_cons.2 ⟨cuts_of_other (by simp), cuts⟩⟩
  | @unknown thread j es w v _ _ ih => exact ih hes (hw.ofKeeps (.opened w thread j))
  | @passing thread held roots es w v _ ih =>
    obtain ⟨first, inside⟩ := List.forall_mem_cons.1 hes
    obtain ⟨swept, cut⟩ := hw.swept first
    obtain ⟨hv, cuts⟩ := ih inside swept
    rw [LambdaId.lastRead_cons]
    exact ⟨hv, List.forall_mem_cons.2 ⟨cut, cuts⟩⟩

end World

/-! ## Registrations are exact -/

theorem Phase.Shows.eq_forced {p : Phase} {thread : ThreadId} {k : LambdaId} {w : World} {x : Value}
    (hp : p.Shows thread k w) (hc : (w.lambdaAt k).cache = .holding x) : p = .forced x := by
  cases p with
  | unborn =>
    rw [World.lambdaAt_of_size_le hp] at hc
    cases hc
  | unforced => cases hc.symm.trans hp.2
  | forcing m => cases hc.symm.trans hp.2
  | forced y =>
    cases hc.symm.trans hp.2
    rfl

/-- Before and after an event the states show what it leads from and to. -/
theorem Phase.Accepts.split {p : Phase} {thread : ThreadId} {k : LambdaId} {es₁ es₂ : List Occurrence} {e : Occurrence}
    (h : p.Accepts thread k (es₁ ++ e :: es₂)) :
    (p.after k es₁).Shows thread k e.before ∧ (p.after k (es₁ ++ [e])).Shows thread k e.after := by
  induction es₁ generalizing p with
  | nil => exact ⟨h.1, h.2.2.1⟩
  | cons first es₁ ih => exact ih h.2.2.2

theorem World.Attached.exact {p : Phase} {thread : ThreadId} {k : LambdaId} {last : Option LambdaId}
    {es : List Occurrence} {v : World} (h : v.Attached k (k.lastRead last es))
    (hp : (p.after k es).Shows thread k v) : k.Exact es v where
  declared hsource := (h.mem_dependents_iff _).2 (h.edge_iff.2 (.inl hsource))
  read {es₁ es₂ e inner x} hes he hother hlast hc := by
    subst hes
    have kept := hp.eq_forced hc
    rw [Phase.after_append, Phase.after_cons] at kept
    have hhits := Phase.hits_of_forced (fun e' he' => (hlast e' he').1) kept
    have read : k.lastRead last (es₁ ++ e :: es₂) = some inner := by
      rw [LambdaId.lastRead_append, LambdaId.lastRead_cons,
        LambdaId.lastRead_of_unhit hhits fun e' he' => (hlast e' he').2, he, Happening.lastRead, if_pos rfl]
    exact (h.mem_dependents_iff inner).2 (h.read read hother)

namespace LambdaId

variable {thread : Thread} {k : LambdaId} {w : World} {p : Phase}

/-- The registrations of a lambda are exact, in every state that a run on one thread goes through. A lambda is
registered with those that it is made of. If it keeps a result, and its last computation has given another lambda,
it is registered with that one too. A pass that reaches a lambda with which it is registered invalidates it, and then
it stays registered with those only that it is made of. -/
theorem edges_are_exact (hw : w.Linked k) (hp : p.Shows thread.id k w) :
    (∀ steps y u, (Action.runAll steps (.ofThread thread) w).Reaches World.Still y → y.returned? = some u →
      ∃ es, World.History force World.Still thread.id es w u) ∧
    (∀ steps j u, Action.Forces steps thread j w u →
      ∃ serve es, World.Midway serve World.Still thread.id es w u) ∧
    ∀ serve es v, World.Midway serve World.Still thread.id es w v → v.threads = w.threads →
      (∀ e ∈ es, e.Ordinary k) →
      k.Exact es v ∧
        ∀ es₁ e es₂, es = es₁ ++ e :: es₂ →
          k.Exact es₁ e.before ∧ k.Exact (es₁ ++ [e]) e.after ∧ e.Cuts k := by
  refine ⟨fun steps y u run hu => ?_, fun steps j u run => ?_, fun serve es v midway halone hes => ?_⟩
  · unfold Context.ofThread at run
    rw [Context.ofBudget_eq_machine] at run
    exact (Action.recorded_runAll Eval.recorded_forceLambda steps _ thread w y run).of_returned hu
  · classical
    obtain ⟨es, midway⟩ := Action.recorded_runAll recorded_forceUnless steps _ thread w _ run
    exact ⟨_, es, midway⟩
  · have start : w.Attached k none := ⟨hw, nofun⟩
    have leads := midway.leads halone hp
    obtain ⟨attached, cuts⟩ := midway.attached hes start
    refine ⟨attached.exact leads.shows, fun es₁ e es₂ split => ?_⟩
    subst split
    obtain ⟨first, rest⟩ := List.forall_mem_append.1 hes
    obtain ⟨here, -⟩ := List.forall_mem_cons.1 rest
    obtain ⟨before, after⟩ := midway.split rfl
    obtain ⟨showsBefore, showsAfter⟩ := leads.accepts.split
    refine ⟨(before.attached first start).1.exact showsBefore, ?_, cuts e (by simp)⟩
    have both := List.forall_mem_append.2 ⟨first, List.forall_mem_singleton.2 here⟩
    exact (after.attached both start).1.exact showsAfter

end LambdaId

/-- A lambda that gives a number, and one that gives the first. -/
def World.ofReader : World :=
  { scopes := #[{ name := "root", parent := none, source := default, pure := false }]
    lambdas :=
      #[{ operation := "number", source := Segment.whole "number", scope := ⟨0⟩, inputs := []
          body := .script (.integer 1), fixable := true },
        { operation := "reader", source := Segment.whole "reader", scope := ⟨0⟩, inputs := []
          body := .script (.register "number"), fixable := true }]
    desk :=
      { scopes := [("root", ⟨0⟩)]
        registers := [("number", .lambda ⟨0⟩), ("reader", .lambda ⟨1⟩)] } }

/-- What is computed when the reader is forced: the reader gives the lambda with the number, and that is computed
then. -/
theorem World.course_ofReader : ∃ value w₂ w₃ w₄,
    LambdaId.compute ⟨1⟩ ⟨0⟩ (.machine LambdaId.force 8 { id := 0 }) (ofReader.opened 0 ⟨1⟩) = .value value w₂ ∧
    value.lambda? = some ⟨0⟩ ∧ (ofReader.opened 0 ⟨1⟩).Still w₂ ∧ w₂.lambdas.size = 2 ∧
    ((w₂.follow ⟨1⟩ ⟨0⟩).lambdaAt ⟨0⟩).keeps = true ∧
    (LambdaId.evaluate ⟨0⟩ (.machine LambdaId.force 8 { id := 0 }) ((w₂.follow ⟨1⟩ ⟨0⟩).opened 0 ⟨0⟩)).attempt =
      .value (.ok (.integer 1)) w₃ ∧ ((w₂.follow ⟨1⟩ ⟨0⟩).opened 0 ⟨0⟩).Still w₃ ∧
    (LambdaId.evaluate ⟨1⟩ (.machine LambdaId.force 8 { id := 0 }) (ofReader.opened 0 ⟨1⟩)).attempt =
      .value (.ok (.integer 1)) w₄ ∧ ((w₂.follow ⟨1⟩ ⟨0⟩).closed 0 ⟨0⟩ (.ok (.integer 1)) w₃).Still w₄ ∧
    ((ofReader.closed 0 ⟨1⟩ (.ok (.integer 1)) w₄).lambdaAt ⟨1⟩).cache = .holding (.integer 1) ∧
    w₄.threads = ofReader.threads :=
  ⟨_, _, _, _, rfl, rfl, ⟨rfl, rfl⟩, rfl, rfl, rfl, ⟨rfl, rfl⟩, rfl, ⟨rfl, rfl⟩, rfl, rfl⟩

namespace LambdaId

/-- The reader keeps the number that it has read, and is registered with the lambda that has given it. -/
theorem edges_are_exact_for_reader : ∃ es u,
    World.History force World.Still 0 es .ofReader u ∧
    (u.lambdaAt ⟨1⟩).cache = .holding (.integer 1) ∧ ⟨1⟩ ∈ u.dependents ⟨0⟩ := by
  obtain ⟨value, w₂, w₃, w₄, computed, hvalue, before, size, keeps, evaluated, after, ended, last, kept, alone⟩ :=
    World.course_ofReader
  have computed : (LambdaId.compute ⟨1⟩ ⟨0⟩ (.machine LambdaId.force 8 { id := 0 })
      (World.ofReader.opened 0 ⟨1⟩)).Reaches World.Still (.value value w₂) := by
    rw [computed]
    exact .value
  have evaluated : (LambdaId.evaluate ⟨0⟩ (.machine LambdaId.force 8 { id := 0 })
      ((w₂.follow ⟨1⟩ ⟨0⟩).opened 0 ⟨0⟩)).attempt.Reaches World.Still (.value (.ok (.integer 1)) w₃) := by
    rw [evaluated]
    exact .value
  have ended : (LambdaId.evaluate ⟨1⟩ (.machine LambdaId.force 8 { id := 0 })
      (World.ofReader.opened 0 ⟨1⟩)).attempt.Reaches World.Still (.value (.ok (.integer 1)) w₄) := by
    rw [ended]
    exact .value
  have followed : (w₂.follow ⟨1⟩ ⟨0⟩).lambdas.size = 2 := (World.Rewired.follow w₂ ⟨1⟩ ⟨0⟩).size.trans size
  have reading := World.History.read (.aside before) computed hvalue
  have number := World.History.computed (by rw [followed]; decide) keeps (.aside after) evaluated
  have inside := (reading.trans number).trans (.aside last)
  let u : World := World.ofReader.closed 0 ⟨1⟩ (.ok (.integer 1)) w₄
  let rest : List Occurrence :=
    [⟨.began ⟨0⟩, w₂.follow ⟨1⟩ ⟨0⟩, (w₂.follow ⟨1⟩ ⟨0⟩).opened 0 ⟨0⟩⟩,
      ⟨.ended ⟨0⟩ (.ok (.integer 1)), w₃, (w₂.follow ⟨1⟩ ⟨0⟩).closed 0 ⟨0⟩ (.ok (.integer 1)) w₃⟩,
      ⟨.ended ⟨1⟩ (.ok (.integer 1)), w₄, u⟩]
  let es : List Occurrence :=
    ⟨.began ⟨1⟩, .ofReader, World.ofReader.opened 0 ⟨1⟩⟩ :: ⟨.followed ⟨1⟩ ⟨0⟩, w₂, w₂.follow ⟨1⟩ ⟨0⟩⟩ :: rest
  have history : World.History force World.Still 0 es .ofReader u := .computed (by decide) rfl inside ended
  have linked : World.ofReader.Linked ⟨1⟩ := by
    refine .ofFree rfl rfl fun source entry hentry => ?_
    match source with
    | ⟨0⟩ => cases hentry
    | ⟨1⟩ => cases hentry
    | ⟨_ + 2⟩ => cases hentry
  have fresh : Phase.unforced.Shows 0 ⟨1⟩ .ofReader := ⟨by decide, rfl⟩
  have ordinary : ∀ e ∈ es, e.Ordinary ⟨1⟩ := by
    intro e he
    simp only [es, rest, List.mem_cons, List.not_mem_nil, or_false] at he
    rcases he with rfl | rfl | rfl | rfl | rfl
    · exact ⟨by simp, by simp, nofun, nofun, nofun⟩
    · refine ⟨by simp, by simp, nofun, nofun, fun h => ?_⟩
      cases h
      rw [size]
      decide
    · exact ⟨by simp, by simp, nofun, nofun, nofun⟩
    · exact ⟨by simp, by simp, nofun, nofun, nofun⟩
    · exact ⟨by simp, by simp, nofun, nofun, nofun⟩
  obtain ⟨-, -, exact⟩ := @edges_are_exact { id := 0 } ⟨1⟩ .ofReader .unforced linked fresh
  obtain ⟨last, -⟩ := exact force es u (.returned history) (World.threads_closed.trans alone) ordinary
  refine ⟨es, u, history, kept, ?_⟩
  have split : es = [⟨.began ⟨1⟩, .ofReader, World.ofReader.opened 0 ⟨1⟩⟩] ++
    ⟨.followed ⟨1⟩ ⟨0⟩, w₂, w₂.follow ⟨1⟩ ⟨0⟩⟩ :: rest := rfl
  exact last.read split rfl (by decide) (by simp [rest]) kept

/-- A host registers a callback with the number under the text of the reader. The reader keeps what it has read from
the number and is not registered with it, and stays as it is when the number is notified. -/
theorem chosen_key_hides_reader :
    (∃ answers value u u',
      Action.runAll
        [.mk "root" (.listenAs (.register "number") "lambda-2" .void),
          .mk "root" (.eval (.call .forced [.register "reader"] none) none)]
        (.ofThread { id := 0 }) .ofReader = .value answers u ∧
      (u.lambdaAt ⟨1⟩).cache = .holding (.integer 1) ∧
      compute ⟨1⟩ ⟨0⟩ (.ofThread { id := 0 }) u = .value value u' ∧ value.lambda? = some ⟨0⟩ ∧
      ⟨1⟩ ∉ u.dependents ⟨0⟩) ∧
    (Action.runAll
        [.mk "root" (.listenAs (.register "number") "lambda-2" .void),
          .mk "root" (.eval (.call .forced [.register "reader"] none) none),
          .mk "root" (.eval (.call .notify [.register "number"] none) none)]
        (.ofThread { id := 0 }) .ofReader).returned?.map
      (fun u => ((u.lambdaAt ⟨0⟩).generation, (u.lambdaAt ⟨1⟩).generation)) = some (1, 0) :=
  ⟨⟨_, _, _, _, rfl, rfl, rfl, rfl, List.not_mem_nil⟩, by decide +kernel⟩

end LambdaId

end Reactor
