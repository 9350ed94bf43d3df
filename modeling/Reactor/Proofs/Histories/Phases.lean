import Reactor.Proofs.Histories.Changes

/-!
# Phases of a lambda

A lambda has no result, or it is being computed, or it has a result. `Phase.next` says which phase follows another
one when something happens, and `Phase.Allows` what can happen in a phase at all. A history of a single thread
follows these rules: the state before each event and the one after it show the phases that the
rules give (`Phase.Accepts`). So what becomes of a lambda is read off the events alone.

That the lambda is still in its computation when the force returns that began it is no rule of a single event:
what happens inside never ends the computation from outside, since forces are nested
(`Phase.Leads.inside`). The number of invalidations since its beginning decides whether a result is
kept. It is what the generations of the lambda differ by (`World.Lasts.generation`).
-/

namespace Reactor

/-- What has become of a lambda. -/
inductive Phase where
  | unborn
  /-- No result is kept. -/
  | unforced
  /-- A force is computing the lambda, which has been invalidated so often since. -/
  | forcing (hits : Nat)
  /-- A result is kept. -/
  | forced (value : Value)

namespace Phase

open World

/-- The lambda has been invalidated so often. -/
def hit (n : Nat) : Phase → Phase
  | .forcing m => .forcing (m + n)
  | .forced x => if n = 0 then .forced x else .unforced
  | p => p

/-- The force that computes the lambda has come to an outcome. A result is kept unless the lambda has been
invalidated since. -/
def settled (outcome : Except Error Value) : Phase → Phase
  | .forcing m =>
    match outcome with
    | .ok x => if m = 0 then .forced x else .unforced
    | .error _ => .unforced
  | p => p

/-- The phase after something has happened. -/
def next (k : LambdaId) (p : Phase) : Happening → Phase
  | .made j => if j = k then .unforced else p
  | .began j => if j = k then .forcing 0 else p
  | .ended j outcome => if j = k then p.settled outcome else p
  | .notified _ ks => p.hit (ks.count k)
  | _ => p

/-- What can happen in a phase. A force gives the result that is kept. Without one it computes the lambda, unless
the thread is doing so already. -/
def Allows (k : LambdaId) (p : Phase) : Happening → Prop
  | .made j => j = k → p = .unborn
  | .began j => j = k → p = .unforced
  | .ended j _ => j = k → ∃ hits, p = .forcing hits
  | .answered j x => j = k → p = .forced x
  | .refused j => j = k → ∃ hits, p = .forcing hits
  | _ => True

/-- A state shows the phase of a lambda that only one thread computes. -/
def Shows (thread : ThreadId) (k : LambdaId) (w : World) : Phase → Prop
  | .unborn => w.lambdas.size ≤ k.index
  | .unforced => k.index < w.lambdas.size ∧ (w.lambdaAt k).cache = .empty
  | .forcing _ => k.index < w.lambdas.size ∧ (w.lambdaAt k).cache = .computing thread
  | .forced x => k.index < w.lambdas.size ∧ (w.lambdaAt k).cache = .holding x

/-- The phase after some events. -/
def after (k : LambdaId) (p : Phase) (es : List Occurrence) : Phase :=
  es.foldl (fun p e => p.next k e.happening) p

/-- The events follow the rules, and the states beside them show the phases. -/
def Accepts (thread : ThreadId) (k : LambdaId) : Phase → List Occurrence → Prop
  | _, [] => True
  | p, e :: es => p.Shows thread k e.before ∧ p.Allows k e.happening ∧
      (p.next k e.happening).Shows thread k e.after ∧ (p.next k e.happening).Accepts thread k es

variable {thread : ThreadId} {k j : LambdaId} {u v w : World} {p q : Phase} {es es' : List Occurrence} {n : Nat}
  {x : Value} {outcome : Except Error Value}

@[simp] theorem after_append : p.after k (es ++ es') = (p.after k es).after k es' :=
  List.foldl_append

@[simp] theorem after_cons {e : Occurrence} : p.after k (e :: es) = (p.next k e.happening).after k es := rfl

theorem Accepts.append (h : p.Accepts thread k es) (h' : (p.after k es).Accepts thread k es') :
    p.Accepts thread k (es ++ es') := by
  induction es generalizing p with
  | nil => exact h'
  | cons e es ih => exact ⟨h.1, h.2.1, h.2.2.1, ih h.2.2.2 h'⟩

/-! ## What the events say -/

/-- A computation goes on until its force returns. -/
theorem after_forcing (h : (forcing n).Accepts thread k es)
    (hinside : ∀ e ∈ es, e.happening ≠ .began k ∧ ∀ outcome, e.happening ≠ .ended k outcome) :
    (forcing n).after k es = .forcing (n + k.hits es) ∧ ∀ e ∈ es, ∀ x, e.happening ≠ .answered k x := by
  induction es generalizing n with
  | nil => exact ⟨rfl, List.forall_mem_nil _⟩
  | cons e es ih =>
    obtain ⟨-, allowed, -, rest⟩ := h
    obtain ⟨notBegan, notEnded⟩ := hinside e List.mem_cons_self
    have next : (forcing n).next k e.happening = .forcing (n + e.happening.hits k) ∧
        ∀ x, e.happening ≠ .answered k x := by
      cases hhappening : e.happening with
      | made j =>
        rw [hhappening] at allowed
        have other : j ≠ k := fun same => nomatch allowed same
        exact ⟨if_neg other, nofun⟩
      | began j =>
        have other : j ≠ k := fun same => notBegan (same ▸ hhappening)
        exact ⟨if_neg other, nofun⟩
      | ended j outcome =>
        have other : j ≠ k := fun same => notEnded outcome (same ▸ hhappening)
        exact ⟨if_neg other, nofun⟩
      | answered j x =>
        rw [hhappening] at allowed
        refine ⟨rfl, fun y same => ?_⟩
        cases same
        nomatch allowed rfl
      | _ => exact ⟨rfl, nofun⟩
    rw [next.1] at rest
    obtain ⟨after, unanswered⟩ := ih rest fun e he => hinside e (List.mem_cons_of_mem _ he)
    refine ⟨?_, List.forall_mem_cons.2 ⟨next.2, unanswered⟩⟩
    rw [after_cons, next.1, after, LambdaId.hits_cons, Nat.add_assoc]

/-- Until the next invalidation a result is kept, and every force gives it without computing the lambda. -/
theorem after_forced (h : (forced x).Accepts thread k es) (hhits : k.hits es = 0) :
    (forced x).after k es = .forced x ∧
      ∀ e ∈ es, e.happening ≠ .began k ∧ ∀ y, e.happening = .answered k y → y = x := by
  induction es with
  | nil => exact ⟨rfl, List.forall_mem_nil _⟩
  | cons e es ih =>
    obtain ⟨-, allowed, -, rest⟩ := h
    rw [LambdaId.hits_cons, Nat.add_eq_zero_iff] at hhits
    have next : (forced x).next k e.happening = .forced x ∧
        e.happening ≠ .began k ∧ ∀ y, e.happening = .answered k y → y = x := by
      cases hhappening : e.happening with
      | made j =>
        rw [hhappening] at allowed
        have other : j ≠ k := fun same => nomatch allowed same
        exact ⟨if_neg other, nofun, nofun⟩
      | began j =>
        rw [hhappening] at allowed
        have other : j ≠ k := fun same => nomatch allowed same
        refine ⟨if_neg other, fun same => ?_, nofun⟩
        cases same
        exact other rfl
      | ended j outcome =>
        exact ⟨ite_self _, nofun, nofun⟩
      | answered j y =>
        rw [hhappening] at allowed
        refine ⟨rfl, nofun, fun z same => ?_⟩
        cases same
        cases allowed rfl
        rfl
      | notified held ks =>
        rw [hhappening] at hhits
        exact ⟨if_pos hhits.1, nofun, nofun⟩
      | _ => exact ⟨rfl, nofun, nofun⟩
    rw [next.1] at rest
    obtain ⟨after, kept⟩ := ih rest hhits.2
    exact ⟨by rw [after_cons, next.1, after], List.forall_mem_cons.2 ⟨next.2, kept⟩⟩

/-! ## What the states show -/

theorem Shows.ofHit {ks : List LambdaId} (hp : p.Shows thread k w) (h : w.Hit ks v) :
    (p.hit (ks.count k)).Shows thread k v := by
  have cache := h.cache k
  have size := h.size
  cases p with
  | unborn => exact size.trans_le hp
  | unforced =>
    refine ⟨size.symm ▸ hp.1, ?_⟩
    rw [cache, hp.2]
    exact ite_self _
  | forcing m =>
    refine ⟨size.symm ▸ hp.1, ?_⟩
    rw [cache, hp.2]
    exact ite_self _
  | forced x =>
    show (if ks.count k = 0 then forced x else unforced).Shows thread k v
    rw [hp.2] at cache
    by_cases hk : k ∈ ks
    · rw [if_neg (Nat.ne_of_gt (List.count_pos_iff.2 hk))]
      rw [if_pos hk] at cache
      exact ⟨size.symm ▸ hp.1, cache⟩
    · rw [if_pos (List.count_eq_zero.2 hk)]
      rw [if_neg hk] at cache
      exact ⟨size.symm ▸ hp.1, cache⟩

@[simp] theorem hit_zero : p.hit 0 = p := by
  cases p <;> rfl

theorem Shows.ofSame (hp : p.Shows thread k w) (h : w.Hit [] v) : p.Shows thread k v := by
  have shown := hp.ofHit h
  rwa [List.count_nil, hit_zero] at shown

/-- A lambda without a result is in its first phase. -/
theorem Shows.eq_unforced (hp : p.Shows thread k w) (hlt : k.index < w.lambdas.size)
    (hempty : (w.lambdaAt k).cache = .empty) : p = .unforced := by
  cases p with
  | unborn => exact absurd hlt (Nat.not_lt_of_le hp)
  | unforced => rfl
  | forcing m => cases hempty.symm.trans hp.2
  | forced x => cases hempty.symm.trans hp.2

theorem Shows.eq_unborn (hp : p.Shows thread k w) (hge : w.lambdas.size ≤ k.index) : p = .unborn := by
  cases p with
  | unborn => rfl
  | unforced => exact absurd hp.1 (Nat.not_lt_of_le hge)
  | forcing m => exact absurd hp.1 (Nat.not_lt_of_le hge)
  | forced x => exact absurd hp.1 (Nat.not_lt_of_le hge)

theorem Shows.lt (hp : p.Shows thread k w) (h : p ≠ .unborn) : k.index < w.lambdas.size := by
  cases p with
  | unborn => exact absurd rfl h
  | unforced => exact hp.1
  | forcing m => exact hp.1
  | forced x => exact hp.1

/-- The phase of a lambda depends on nothing but its cache and on how many lambdas there are. -/
theorem Shows.ofCache (hp : p.Shows thread k w) (hsize : v.lambdas.size = w.lambdas.size)
    (hcache : (v.lambdaAt k).cache = (w.lambdaAt k).cache) : p.Shows thread k v := by
  cases p with
  | unborn => exact hsize.trans_le hp
  | unforced => exact ⟨hsize.symm ▸ hp.1, hcache.trans hp.2⟩
  | forcing m => exact ⟨hsize.symm ▸ hp.1, hcache.trans hp.2⟩
  | forced x => exact ⟨hsize.symm ▸ hp.1, hcache.trans hp.2⟩

/-! ## Histories -/

/-- The events follow the rules, and the last state shows the phase to which they lead. A force that has begun
before them does not return among them. -/
structure Leads (thread : ThreadId) (k : LambdaId) (p : Phase) (es : List Occurrence) (v : World) : Prop where
  accepts : p.Accepts thread k es
  shows : (p.after k es).Shows thread k v
  inside {n : Nat} (h : p = .forcing n) :
    ∀ e ∈ es, e.happening ≠ .began k ∧ ∀ outcome, e.happening ≠ .ended k outcome

/-- No force is left open either. -/
structure Returns (thread : ThreadId) (k : LambdaId) (p : Phase) (es : List Occurrence) (v : World) : Prop
    extends p.Leads thread k es v where
  idle (h : ∀ n, p ≠ .forcing n) (n : Nat) : p.after k es ≠ .forcing n

namespace Leads

theorem nil (hp : p.Shows thread k w) : p.Leads thread k [] w :=
  ⟨trivial, hp, fun _ => List.forall_mem_nil _⟩

theorem append (h : p.Leads thread k es v) (h' : (p.after k es).Leads thread k es' w) :
    p.Leads thread k (es ++ es') w where
  accepts := h.accepts.append h'.accepts
  shows := by
    rw [after_append]
    exact h'.shows
  inside {n} hn := by
    subst hn
    have still := (after_forcing h.accepts (h.inside rfl)).1
    exact List.forall_mem_append.2 ⟨h.inside rfl, h'.inside still⟩

theorem one {happening : Happening} (hp : p.Shows thread k w) (allowed : p.Allows k happening)
    (next : (p.next k happening).Shows thread k v)
    (hinside : ∀ n, p = .forcing n → happening ≠ .began k ∧ ∀ outcome, happening ≠ .ended k outcome) :
    p.Leads thread k [⟨happening, w, v⟩] v :=
  ⟨⟨hp, allowed, next, trivial⟩, next, fun hn => List.forall_mem_singleton.2 (hinside _ hn)⟩

theorem made {record : LambdaRecord} (hp : p.Shows thread k w) (h : record.Blank) :
    p.Leads thread k [⟨.made ⟨w.lambdas.size⟩, w, w.withLambda record⟩] (w.withLambda record) := by
  have wired := Hit.ofRewired (Rewired.withLambda w record)
  have pushed : (p.next k (.made ⟨w.lambdas.size⟩)).Shows thread k
      { w with lambdas := w.lambdas.push record } := by
    have record_at : ({ w with lambdas := w.lambdas.push record } : World).lambdaAt k =
        if k.index = w.lambdas.size then record else w.lambdaAt k := getD_push ..
    have size : (w.lambdas.push record).size = w.lambdas.size + 1 := Array.size_push ..
    by_cases hk : (⟨w.lambdas.size⟩ : LambdaId) = k
    · subst hk
      rw [if_pos rfl] at record_at
      rw [show p.next _ (.made _) = .unforced from if_pos rfl]
      exact ⟨size.symm ▸ Nat.lt_succ_self _, (congrArg LambdaRecord.cache record_at).trans h.cache⟩
    · have other : k.index ≠ w.lambdas.size := fun same => hk (same ▸ rfl)
      rw [if_neg other] at record_at
      rw [show p.next k (.made ⟨w.lambdas.size⟩) = p from if_neg hk]
      have cache : (({ w with lambdas := w.lambdas.push record } : World).lambdaAt k).cache =
          (w.lambdaAt k).cache := by
        rw [record_at]
      have larger {i : Nat} (hi : i < w.lambdas.size) : i < (w.lambdas.push record).size := by omega
      cases p with
      | unborn =>
        have hge : w.lambdas.size ≤ k.index := hp
        show (w.lambdas.push record).size ≤ k.index
        omega
      | unforced => exact ⟨larger hp.1, cache.trans hp.2⟩
      | forcing m => exact ⟨larger hp.1, cache.trans hp.2⟩
      | forced x => exact ⟨larger hp.1, cache.trans hp.2⟩
  refine one hp (fun hk => ?_) (pushed.ofSame wired) fun _ _ => ⟨by simp, by simp⟩
  exact hp.eq_unborn (hk ▸ Nat.le_refl _)

theorem ofTakes {happening : Happening} (hp : p.Shows thread k w) (h : happening.Takes thread w v) :
    p.Leads thread k [⟨happening, w, v⟩] v := by
  have stays (hmade : ∀ j, happening ≠ .made j) : p.Shows thread k v := hp.ofSame (.ofRewired (h.rewired hmade))
  cases h with
  | made h => exact made hp h
  | numbered j => exact one hp trivial (stays (by simp)) fun _ _ => ⟨by simp, by simp⟩
  | listened j _ callback => exact one hp trivial (stays (by simp)) fun _ _ => ⟨by simp, by simp⟩
  | unlistened j key => exact one hp trivial (stays (by simp)) fun _ _ => ⟨by simp, by simp⟩
  | @answered w j x _ hc =>
    refine one hp (fun same => ?_) hp fun _ _ => ⟨by simp, by simp⟩
    subst same
    cases p with
    | unborn =>
      rw [lambdaAt_of_size_le hp] at hc
      cases hc
    | unforced => cases hc.symm.trans hp.2
    | forcing m => cases hc.symm.trans hp.2
    | forced y =>
      cases hc.symm.trans hp.2
      rfl
  | @refused w j _ hc =>
    refine one hp (fun same => ?_) hp fun _ _ => ⟨by simp, by simp⟩
    subst same
    cases p with
    | unborn =>
      rw [lambdaAt_of_size_le hp] at hc
      cases hc
    | unforced => cases hc.symm.trans hp.2
    | forcing m => exact ⟨m, rfl⟩
    | forced y => cases hc.symm.trans hp.2

/-- A force begins that keeps what it computes. -/
theorem began (hp : p.Shows thread k w) (hlt : j.index < w.lambdas.size)
    (hkeeps : (w.lambdaAt j).keeps = true) :
    p.Leads thread k [⟨.began j, w, w.opened thread j⟩] (w.opened thread j) := by
  by_cases hj : j = k
  · subst hj
    have fresh := hp.eq_unforced hlt (LambdaRecord.cache_of_keeps hkeeps)
    subst fresh
    refine one hp (fun _ => rfl) ?_ nofun
    rw [show unforced.next j (.began j) = .forcing 0 from if_pos rfl]
    refine ⟨size_opened.symm ▸ hlt, ?_⟩
    unfold World.opened
    rw [if_pos hkeeps, lambdaAt_modifyLambda, if_pos ⟨rfl, hlt⟩]
  · have next : p.next k (.began j) = p := if_neg hj
    refine one hp (fun same => absurd same hj) ?_ fun _ _ => ⟨?_, by simp⟩
    · rw [next]
      refine hp.ofCache size_opened ?_
      rw [lambdaAt_opened_of_ne (Ne.symm hj)]
    · simp [hj]

theorem swept (hp : p.Shows thread k w) (held : List Place) (roots : List LambdaId) :
    p.Leads thread k
      [⟨.notified held (w.enter (w.liveness held) thread roots).1, w, w.swept thread held roots⟩]
      (w.swept thread held roots) :=
  one hp trivial (hp.ofHit (.swept w thread held roots)) fun _ _ => ⟨by simp, by simp⟩

end Leads

/-- A result is kept if the lambda has not been invalidated while it was computed. -/
theorem shows_closed {m : Nat} (hkeeps : (w.lambdaAt k).keeps = true)
    (hgeneration : (v.lambdaAt k).generation = (w.lambdaAt k).generation + m)
    (hv : (forcing m).Shows thread k v) :
    ((forcing m).settled outcome).Shows thread k (w.closed thread k outcome v) := by
  have hlt : k.index < (w.closed thread k outcome v).lambdas.size := size_closed.symm ▸ hv.1
  have cache : ((w.closed thread k outcome v).lambdaAt k).cache =
      (LambdaId.settle thread (w.lambdaAt k).generation outcome (v.lambdaAt k)).cache := by
    unfold World.closed
    rw [if_pos hkeeps, lambdaAt_modifyLambda, if_pos ⟨rfl, hv.1⟩]
  cases outcome with
  | error e => exact ⟨hlt, cache.trans (LambdaId.settle_error hv.2)⟩
  | ok x =>
    unfold LambdaId.settle at cache
    rw [hv.2] at cache
    show (if m = 0 then forced x else unforced).Shows thread k _
    by_cases hm : m = 0
    · have same : (v.lambdaAt k).generation = (w.lambdaAt k).generation := by omega
      rw [if_pos hm]
      exact ⟨hlt, by simpa [same] using cache⟩
    · have other : (v.lambdaAt k).generation ≠ (w.lambdaAt k).generation := by omega
      rw [if_neg hm]
      exact ⟨hlt, by simpa [other] using cache⟩

/-- Nothing is noted when a force begins of a lambda without a record. -/
theorem Shows.opened_of_size_le (hp : p.Shows thread k w) (hge : w.lambdas.size ≤ j.index) :
    p.Shows thread k (w.opened thread j) := by
  refine hp.ofCache size_opened ?_
  by_cases hj : k = j
  · subst hj
    unfold World.opened
    split
    · rw [lambdaAt_modifyLambda, if_neg fun found => Nat.not_lt_of_le hge found.2]
    · rfl
  · rw [lambdaAt_opened_of_ne hj]

/-- What has a result or none is left alone when a force of another lambda, or one that began without a record,
returns. -/
theorem Shows.closed (hv : p.Shows thread k v) (h : j ≠ k ∨ ∀ n, p ≠ .forcing n) :
    p.Shows thread k (w.closed thread j outcome v) := by
  refine hv.ofCache size_closed ?_
  by_cases hj : k = j
  · subst hj
    have idle := h.resolve_left fun other => other rfl
    unfold World.closed
    split
    · rw [lambdaAt_modifyLambda]
      split
      · cases p with
        | unborn => exact absurd hv (Nat.not_le_of_lt (by rename_i found; exact found.2))
        | unforced => simp [LambdaId.settle, hv.2]
        | forcing n => exact absurd rfl (idle n)
        | forced x => simp [LambdaId.settle, hv.2]
      · rfl
    · rfl
  · rw [lambdaAt_closed_of_ne hj]

namespace Returns

theorem nil (hp : p.Shows thread k w) : p.Returns thread k [] w :=
  ⟨.nil hp, fun h => h⟩

theorem append (h : p.Returns thread k es v) (h' : (p.after k es).Returns thread k es' w) :
    p.Returns thread k (es ++ es') w := by
  refine ⟨h.toLeads.append h'.toLeads, fun hp => ?_⟩
  rw [after_append]
  exact h'.idle (h.idle hp)

/-- A force has computed its lambda. It keeps what its own computation, and no other one, has brought about. -/
theorem own (hlt : k.index < w.lambdas.size) (hkeeps : (w.lambdaAt k).keeps = true)
    (h : (forcing 0).Leads thread k es v) (hlasts : (w.opened thread k).Lasts k es v) :
    unforced.Returns thread k
      (⟨.began k, w, w.opened thread k⟩ :: (es ++ [⟨.ended k outcome, v, w.closed thread k outcome v⟩]))
      (w.closed thread k outcome v) := by
  have generation : (v.lambdaAt k).generation = (w.lambdaAt k).generation + k.hits es := by
    obtain ⟨cache, same⟩ := lambdaAt_opened w thread k
    rw [hlasts.generation (size_opened.symm ▸ hlt), same]
  have start : unforced.next k (.began k) = .forcing 0 := if_pos rfl
  have midst : (forcing 0).after k es = .forcing (k.hits es) := by
    rw [(after_forcing h.accepts (h.inside rfl)).1, Nat.zero_add]
  have last : (forcing (k.hits es)).next k (.ended k outcome) = (forcing (k.hits es)).settled outcome :=
    if_pos rfl
  have whole : unforced.after k (⟨.began k, w, w.opened thread k⟩ ::
      (es ++ [⟨.ended k outcome, v, w.closed thread k outcome v⟩])) =
        (forcing (k.hits es)).settled outcome := by
    rw [after_cons, start, after_append, midst, after_cons, last]
    rfl
  have fresh : unforced.Shows thread k w := ⟨hlt, LambdaRecord.cache_of_keeps hkeeps⟩
  have began := Leads.began fresh hlt hkeeps
  have shown := h.shows
  rw [midst] at shown
  have closed : ((forcing (k.hits es)).settled outcome).Shows thread k (w.closed thread k outcome v) :=
    shows_closed hkeeps generation shown
  have ended : (forcing (k.hits es)).Accepts thread k
      [⟨.ended k outcome, v, w.closed thread k outcome v⟩] :=
    ⟨shown, fun _ => ⟨_, rfl⟩, last.symm ▸ closed, trivial⟩
  refine ⟨⟨began.accepts.append (.append ?_ ?_), whole ▸ closed, nofun⟩, fun _ n => ?_⟩
  · rw [after_cons, start]
    exact h.accepts
  · rw [after_cons, start]
    exact midst ▸ ended
  · rw [whole]
    cases outcome with
    | error e => exact nofun
    | ok x =>
      show (if k.hits es = 0 then forced x else unforced) ≠ .forcing n
      split <;> simp

/-- A force has computed another lambda. -/
theorem other (hp : p.Shows thread k w) (hlt : j.index < w.lambdas.size)
    (hkeeps : (w.lambdaAt j).keeps = true) (hj : j ≠ k) (h : p.Returns thread k es v) :
    p.Returns thread k
      (⟨.began j, w, w.opened thread j⟩ :: (es ++ [⟨.ended j outcome, v, w.closed thread j outcome v⟩]))
      (w.closed thread j outcome v) := by
  have start : p.next k (.began j) = p := if_neg hj
  have last : (p.after k es).next k (.ended j outcome) = p.after k es := if_neg hj
  have began : p.Returns thread k [⟨.began j, w, w.opened thread j⟩] (w.opened thread j) := by
    refine ⟨.began hp hlt hkeeps, fun idle => ?_⟩
    rw [after_cons, start]
    exact idle
  have ended : (p.after k es).Returns thread k [⟨.ended j outcome, v, w.closed thread j outcome v⟩]
      (w.closed thread j outcome v) := by
    refine ⟨.one h.shows (fun same => absurd same hj) ?_ fun _ _ => ⟨by simp, by simp [hj]⟩, fun idle => ?_⟩
    · rw [last]
      exact h.shows.closed (.inl hj)
    · rw [after_cons, last]
      exact idle
  refine began.append ?_
  rw [after_cons, start]
  exact h.append ended

end Returns

end Phase

namespace World

open Phase

variable {serve : LambdaId → Eval Value} {thread : ThreadId} {k : LambdaId} {p : Phase} {es : List Occurrence}
  {w v : World}

/-- A history of a single thread follows the rules. It is a single one if no other thread has begun. -/
theorem History.returns (h : History serve Still thread es w v) (halone : v.threads = w.threads)
    (hp : p.Shows thread k w) : p.Returns thread k es v := by
  induction h generalizing p with
  | aside h => exact .nil (hp.ofSame (.ofStill h))
  | others h => exact .nil (hp.ofSame (.ofStill h))
  | @trans thread es es' u v w h h' ih ih' =>
    have first := (Lasts.ofHistory (k := k) h).threads
    have second := (Lasts.ofHistory (k := k) h').threads
    have returned := ih (by omega) hp
    exact returned.append (ih' (by omega) returned.shows)
  | @begun thread es w v h =>
    have later : w.threads + 1 ≤ v.threads := (Lasts.ofHistory (k := k) h).threads
    omega
  | @took thread happening w v h =>
    refine ⟨.ofTakes hp h, fun idle n => ?_⟩
    show p.next k happening ≠ .forcing n
    cases h with
    | made h =>
      show (if _ then unforced else p) ≠ .forcing n
      split
      · simp
      · exact idle n
    | _ => exact idle n
  | @read _ thread scope j inner value es w v h _ _ ih =>
    have wired := Rewired.follow v j inner
    have returned := ih (wired.threads.symm.trans halone) hp
    refine returned.append ⟨.one returned.shows trivial ?_ fun _ _ => ⟨by simp, by simp⟩, fun idle => idle⟩
    exact returned.shows.ofSame (.ofRewired wired)
  | @computed _ thread j outcome es w v hlt hkeeps h _ ih =>
    have inner : v.threads = (w.opened thread.id j).threads := by
      rw [threads_opened, ← halone, threads_closed]
    have began := Leads.began hp hlt hkeeps
    have returned := ih inner began.shows
    by_cases hj : j = k
    · subst hj
      obtain rfl := hp.eq_unforced hlt (LambdaRecord.cache_of_keeps hkeeps)
      rw [after_cons, show unforced.next j (.began j) = .forcing 0 from if_pos rfl] at returned
      exact .own hlt hkeeps returned.toLeads (.ofHistory h)
    · rw [after_cons, show p.next k (.began j) = p from if_neg hj] at returned
      exact .other hp hlt hkeeps hj returned
  | @unknown _ thread j outcome es w v hge h _ ih =>
    have inner : v.threads = (w.opened thread.id j).threads := by
      rw [threads_opened, ← halone, threads_closed]
    have returned := ih inner (hp.opened_of_size_le hge)
    refine ⟨⟨returned.accepts, returned.shows.closed ?_, returned.inside⟩, returned.idle⟩
    by_cases hj : j = k
    · subst hj
      obtain rfl := hp.eq_unborn hge
      exact .inr (returned.idle (by simp))
    · exact .inl hj
  | @passed thread held roots es w v h ih =>
    have before := (Hit.swept w thread held roots).threads
    have left := Hit.left thread (w.enter (w.liveness held) thread roots).1 v
    have swept := Leads.swept (p := p) (k := k) hp held roots
    have returned := ih (before ▸ left.threads.symm.trans halone) swept.shows
    have whole := swept.append returned.toLeads
    refine ⟨⟨whole.accepts, whole.shows.ofSame left, whole.inside⟩, fun idle n => ?_⟩
    refine returned.idle (fun m => ?_) n
    show p.hit _ ≠ .forcing m
    unfold hit
    split
    · rename_i l
      exact absurd rfl (idle l)
    · split <;> simp
    · exact idle m

/-- What a single thread has done so far follows the rules. -/
theorem Midway.leads (h : Midway serve Still thread es w v) (halone : v.threads = w.threads)
    (hp : p.Shows thread k w) : p.Leads thread k es v := by
  induction h generalizing p with
  | returned h => exact (h.returns halone hp).toLeads
  | @trans thread es es' u v w h h' ih =>
    have first := (Lasts.ofHistory (k := k) h).threads
    have second := (Lasts.ofMidway (k := k) h').threads
    have returned := h.returns (by omega) hp
    exact returned.toLeads.append (ih (by omega) returned.shows)
  | @begun thread es w v h =>
    have later : w.threads + 1 ≤ v.threads := (Lasts.ofMidway (k := k) h).threads
    omega
  | @computing thread j es w v hlt hkeeps h ih =>
    have began := Leads.began hp hlt hkeeps
    exact began.append (ih (halone.trans threads_opened.symm) began.shows)
  | @unknown thread j es w v hge h ih =>
    exact ih (halone.trans threads_opened.symm) (hp.opened_of_size_le hge)
  | @passing thread held roots es w v h ih =>
    have swept := Leads.swept (p := p) (k := k) hp held roots
    exact swept.append (ih (halone.trans (Hit.swept w thread held roots).threads.symm) swept.shows)

end World

end Reactor
