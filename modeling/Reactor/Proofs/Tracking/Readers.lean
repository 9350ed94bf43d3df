import Reactor.Proofs.Failures.Forces
import Reactor.Proofs.Names.Assignment
import Reactor.Proofs.Network.Moves
import Reactor.Proofs.Tracking.Changes

/-!
# Lambdas that read a name

A lambda that reads a name (`World.Reader`) is registered once, with the scope that declared the name when
the lambda was made. The name is looked up anew whenever the lambda is computed, but the lambda keeps the
result until it is told of a write. It is told of what is written under the name at the scope that it is
registered with. So it gives what the name means (`World.UpToDate`) as long as nothing else touches the name
(`World.Attended`), and a change that it is not told of goes unnoticed
(`LambdaId.reader_follows_what_is_told`). There are such changes: a copy of a scope shares its variables but
nobody is registered with it, so what is assigned through the copy is not told
(`LambdaId.reader_misses_copy`).
-/

namespace Reactor

namespace World

/-- A lambda reads a name from a scope. The host holds it, it depends on no other lambda, and nobody is
computing it. -/
structure Reader (w : World) (k : LambdaId) (scope : ScopeId) (name : String) : Prop where
  known : scope.index < w.scopes.size
  body : (w.lambdaAt k).body = .lookup name
  scope : (w.lambdaAt k).scope = scope
  fixable : (w.lambdaAt k).fixable = true
  idle (thread : ThreadId) : (w.lambdaAt k).cache ≠ .computing thread
  alone (j : LambdaId) : k ∉ w.dependents j
  lt : k.index < w.lambdas.size
  held : Place.lambda k ∈ entriesPlaces w.desk.registers

/-- What a reader gives if it is computed: what the name means, or what becomes of the failure to read it. -/
def reading (w : World) (k : LambdaId) (scope : ScopeId) (name : String) : Except Error Value :=
  answerOf w.config.failFast (w.lambdaAt k).source (w.means scope name)

/-- If the reader keeps a result, it is what the reader would give. -/
def UpToDate (w : World) (k : LambdaId) (scope : ScopeId) (name : String) : Prop :=
  ∀ x, (w.lambdaAt k).cache = .holding x → Answers (.ok x) (w.reading k scope name)

/-- Nothing but the engine runs when a variable changes, and a reader that is registered with a scope is up
to date. -/
structure Follows (w : World) (k : LambdaId) (scope owner : ScopeId) (name : String) : Prop where
  quiet : w.Quiet
  reader : w.Reader k scope name
  registered : k ∈ w.followersAt owner name
  upToDate : w.UpToDate k scope name

/-- Plain changes are made and the reader is forced. A change that touches its name writes it at the scope
that the reader is registered with, and that scope is not emptied. -/
inductive Attended (k : LambdaId) (scope owner : ScopeId) (name : String) : World → World → Prop
  | refl (w : World) : Attended k scope owner name w w
  | change {u v w : World} {c : Change} {budget : Nat} {thread : Thread} {r : Except Error Unit}
    (h : Attended k scope owner name u v) (plain : c.Plain) (depth : thread.depth < v.config.maxDepth)
    (aware : c.Touches v scope name → c.WritesAt v owner name) (kept : c ≠ .clear owner)
    (run : c.act (.ofBudget budget thread) v = .done r w) : Attended k scope owner name u w
  | force {u v w : World} {ctx : Context} {r : Except Error Value} (h : Attended k scope owner name u v)
    (depth : ctx.thread.depth < v.config.maxDepth) (run : k.force ctx v = .done r w) :
    Attended k scope owner name u w

variable {u v w : World} {k : LambdaId} {scope owner : ScopeId} {name : String}

/-! ## What a name means -/

theorem MeansSame.found (h : w.MeansSame v scope name) : v.found scope name = w.found scope name := by
  obtain ⟨r, hw, hv⟩ := h.get true (.ofBudget 0 default)
  rw [(Outcome.done_inj ((get_apply ..).symm.trans hw)).1, (Outcome.done_inj ((get_apply ..).symm.trans hv)).1]

theorem MeansSame.means (h : w.MeansSame v scope name) : v.means scope name = w.means scope name :=
  congrArg (Except.map Value.unmark) h.found

theorem Quiet.answers_found (hw : w.Quiet) (scope : ScopeId) (name : String) :
    Answers (w.found scope name) (w.means scope name) := by
  refine ⟨rfl, fun {v} h => ?_⟩
  rw [found_eq_look] at h
  exact (hw.readable (look_eq_ok h).1).plain_of_look h

/-! ## Readers after other work -/

theorem reading_congr (hc : v.config = w.config)
    (hsource : (v.lambdaAt k).source = (w.lambdaAt k).source) (h : w.MeansSame v scope name) :
    v.reading k scope name = w.reading k scope name := by
  rw [reading, reading, hc, hsource, h.means]

/-- A reader is one as long as nothing changes but what lambdas keep and who is registered with them, nobody
new is, and nobody is computing it. -/
theorem Reader.later (hk : w.Reader k scope name)
    (record : ∀ j, v.lambdaAt j = { w.lambdaAt j with
      cache := (v.lambdaAt j).cache
      generation := (v.lambdaAt j).generation
      listeners := (v.lambdaAt j).listeners
      followed := (v.lambdaAt j).followed
      notifying := (v.lambdaAt j).notifying })
    (listeners : ∀ j, (v.lambdaAt j).listeners ⊆ (w.lambdaAt j).listeners)
    (idle : ∀ thread, (v.lambdaAt k).cache ≠ .computing thread) (lambdas : v.lambdas.size = w.lambdas.size)
    (registers : v.desk.registers = w.desk.registers) (scopes : w.scopes.size ≤ v.scopes.size) :
    v.Reader k scope name where
  body := by
    rw [record]
    exact hk.body
  scope := by
    rw [record]
    exact hk.scope
  fixable := by
    rw [record]
    exact hk.fixable
  idle := idle
  alone j := fun hj => by
    obtain ⟨entry, hentry, found⟩ := List.mem_filterMap.1 hj
    exact hk.alone j (List.mem_filterMap.2 ⟨entry, listeners j hentry, found⟩)
  lt := lambdas ▸ hk.lt
  held := registers ▸ hk.held
  known := Nat.lt_of_lt_of_le hk.known scopes

/-- Results may have been kept. -/
theorem Reader.recached (hk : w.Reader k scope name) (h : w.Recached v)
    (hidle : ∀ thread, (v.lambdaAt k).cache ≠ .computing thread) : v.Reader k scope name := by
  refine hk.later (fun j => ?_) (fun j => ?_) hidle h.size h.registers
    (Nat.le_of_eq (congrArg Array.size h.scopes.symm))
  · rw [h.record j]
  · rw [h.record j]
    exact List.Subset.refl _

variable {e : Effect}

theorem Turned.reader (h : w.Turned e v) (hk : w.Reader k scope name) :
    v.Reader k scope name := by
  refine hk.later (fun j => (h.record j).same) (fun j => (h.record j).listeners) (fun thread => ?_) h.lambdas
    h.registers h.scopes
  rcases (h.record k).cache with same | ⟨-, empty⟩
  · rw [same]
    exact hk.idle thread
  · rw [empty]
    exact nofun

/-- A reader that is not told keeps what it kept. -/
theorem Turned.cache_of_not (h : w.Turned e v) (hk : w.Reader k scope name) (hnot : ¬ e.told k) :
    (v.lambdaAt k).cache = (w.lambdaAt k).cache :=
  (h.record k).cache.resolve_right fun ⟨within, _⟩ => within.elim hnot fun ⟨j, hj⟩ => hk.alone j hj

/-- A reader that is told of what touches its name stays up to date. -/
theorem Turned.follows (h : w.Turned e v) (hw : w.Follows k scope owner name)
    (heard : e.touched scope name → e.told k) (kept : ¬ e.emptied owner) :
    v.Follows k scope owner name := by
  refine ⟨h.quiet, h.reader hw.reader, h.following hw.reader.held hw.registered kept, fun x hx => ?_⟩
  by_cases htouched : e.touched scope name
  · exact absurd hx (h.forgotten hw.reader.held (heard htouched) x)
  · have source : (v.lambdaAt k).source = (w.lambdaAt k).source := by rw [(h.record k).same]
    rw [reading_congr h.config source (h.meansSame hw.reader.known htouched)]
    rcases (h.record k).cache with same | ⟨-, empty⟩
    · exact hw.upToDate x (same ▸ hx)
    · rw [empty] at hx
      cases hx

end World

/-! ## Forcing a reader -/

section Force

variable {u v w : World} {k : LambdaId} {scope : ScopeId} {name : String} {ctx : Context}
  {owner : ScopeId} {thread : ThreadId}

theorem World.Recached.opened (w : World) (thread : ThreadId) (k : LambdaId) :
    w.Recached (w.opened thread k) := by
  unfold World.opened
  split
  · exact .modifyLambda w k fun _ => rfl
  · exact .refl w

theorem LambdaId.settle_eq (thread : ThreadId) (generation : Nat) (outcome : Except Error Value)
    (record : LambdaRecord) : settle thread generation outcome record =
      { record with cache := (settle thread generation outcome record).cache } := by
  unfold settle
  split
  · split <;> rfl
  · split <;> rfl
  · rfl

theorem World.Recached.closed (w u : World) (thread : ThreadId) (k : LambdaId)
    (outcome : Except Error Value) : u.Recached (w.closed thread k outcome u) := by
  unfold World.closed
  split
  · exact .modifyLambda u k (LambdaId.settle_eq _ _ _)
  · exact .refl u

/-- When a lambda has been computed its result is kept. -/
theorem World.cache_closed (hfix : (w.lambdaAt k).fixable = true) (hc : (w.lambdaAt k).cache = .empty)
    (hlt : k.index < w.lambdas.size) (hu : u.lambdas = (w.opened thread k).lambdas)
    (outcome : Except Error Value) :
    ((w.closed thread k outcome u).lambdaAt k).cache = .ofResult outcome := by
  have keeps : (w.lambdaAt k).keeps = true := by simp [LambdaRecord.keeps, hfix, hc]
  have opened : u.lambdaAt k = { w.lambdaAt k with cache := .computing thread } := by
    rw [World.lambdaAt, hu, World.opened, if_pos keeps]
    exact (World.lambdaAt_modifyLambda ..).trans (if_pos ⟨rfl, hlt⟩)
  have size : u.lambdas.size = w.lambdas.size := by
    rw [hu]
    exact (World.Recached.opened w thread k).size
  rw [World.closed, if_pos keeps, World.lambdaAt_modifyLambda, if_pos ⟨rfl, size ▸ hlt⟩, opened]
  cases outcome <;> simp [LambdaId.settle, Cache.ofResult]

/-- A reader that is computed finds what the name gives. -/
theorem LambdaId.run_reader (hfound : Answers (w.found scope name) (w.means scope name))
    (hbody : (w.lambdaAt k).body = .lookup name) (hdepth : ctx.thread.depth < w.config.maxDepth) :
    k.run scope ctx w = .done (w.found scope name) w := by
  have computed (ctx : Context) : k.compute scope ctx w = .done (w.found scope name) w := by
    unfold compute record
    rw [Eval.bind_apply, Eval.gets_apply, Outcome.bind_value, hbody]
    exact World.get_apply w scope name ctx
  unfold run
  rw [Eval.nested_of_lt _ hdepth, Eval.bind_apply, computed]
  generalize w.found scope name = found at hfound
  cases found with
  | error e => rfl
  | ok x =>
    have plain : x.Plain := hfound.plain rfl
    simp only [Outcome.done, Outcome.bind_value, plain.lambda?_eq_none,
      Value.forced_of_lambda?_eq_none plain.lambda?_eq_none]
    rfl

/-- What a reader gives that is computed. A thread that is too deep in open computations gives something else,
but no deferred value either. -/
theorem LambdaId.evaluate_reader (hfound : Answers (w.found scope name) (w.means scope name))
    (hhandlers : ∀ above, (w.scopeAt above).handlers = []) (hbody : (w.lambdaAt k).body = .lookup name)
    (hscope : (w.lambdaAt k).scope = scope) :
    (k.evaluate ctx w).Yields fun r v => w.Beside v ∧ (∀ x, r = .ok x → x.Plain) ∧
      (ctx.thread.depth < w.config.maxDepth → Answers r (w.reading k scope name)) := by
  have evaluated (answer : Except Error Value)
      (run : (k.run (w.lambdaAt k).scope ctx w).Yields fun r v => v = w ∧ Answers r answer) :
      (k.evaluate ctx w).Yields fun r v =>
        w.Beside v ∧ Answers r (answerOf w.config.failFast (w.lambdaAt k).source answer) := by
    refine (evaluate_yields_of_run run (fun v hv => by rw [hv]) fun v hv above _ => ?_).mono ?_
    · rw [hv]
      exact hhandlers above
    · rintro r v ⟨⟨_, rfl, hbeside⟩, h⟩
      exact ⟨hbeside, h⟩
  by_cases hdepth : ctx.thread.depth < w.config.maxDepth
  · refine (evaluated _ ?_).mono fun r v h => ⟨h.1, fun x hx => h.2.plain hx, fun _ => h.2⟩
    rw [run_reader (hscope ▸ hfound) hbody hdepth, hscope]
    exact Outcome.yields_iff.2 ⟨_, _, rfl, rfl, hfound⟩
  · refine (evaluated (.error (.excessiveRecursion (ctx.thread.depth + 1) w.config.maxDepth)) ?_).mono
      fun r v h => ⟨h.1, fun x hx => h.2.plain hx, fun shallow => absurd shallow hdepth⟩
    unfold run
    rw [Eval.nested_of_le _ (Nat.le_of_not_lt hdepth)]
    exact ⟨rfl, rfl, nofun⟩

/-- What the force of a reader does: the reader may come to keep a result. If it was up to date it is so
afterwards, and has given what the name means, unless the thread is too deep in open computations. -/
structure World.Consulted (w : World) (k : LambdaId) (scope : ScopeId) (name : String) (depth : Nat)
    (r : Except Error Value) (v : World) : Prop where
  recached : w.Recached v
  others {j : LambdaId} (h : j ≠ k) : (v.lambdaAt j).cache = (w.lambdaAt j).cache
  idle (thread : ThreadId) : (v.lambdaAt k).cache ≠ .computing thread
  plain {x : Value} (h : r = .ok x) : x.Plain
  kept {x : Value} (h : (v.lambdaAt k).cache = .holding x) : x.Plain
  upToDate (hdepth : depth < w.config.maxDepth) (h : w.UpToDate k scope name) :
    Answers r (w.reading k scope name) ∧ v.UpToDate k scope name

/-- A reader that is forced gives what it keeps, or else is computed and keeps the result. -/
theorem LambdaId.force_consults (hn : w.Nested) (hk : w.Reader k scope name)
    (hfound : Answers (w.found scope name) (w.means scope name))
    (hhandlers : ∀ above, (w.scopeAt above).handlers = [])
    (hplain : ∀ x, (w.lambdaAt k).cache = .holding x → x.Plain) :
    (k.force ctx w).Yields (w.Consulted k scope name ctx.thread.depth) := by
  cases hc : (w.lambdaAt k).cache with
  | holding x =>
    rw [force_of_holding hk.fixable hc]
    refine ⟨.refl w, fun _ => rfl, hk.idle, ?_, fun h => hplain _ h, fun _ h => ⟨h x hc, h⟩⟩
    rintro _ ⟨⟩
    exact hplain x hc
  | computing other => exact absurd hc (hk.idle other)
  | empty =>
    rw [force_of_opens fun _ => .inl hc]
    have opened := World.Recached.opened w ctx.thread.id k
    have same : w.MeansSame (w.opened ctx.thread.id k) scope name := opened.meansSame hn hk.known
    have source : ((w.opened ctx.thread.id k).lambdaAt k).source = (w.lambdaAt k).source :=
      World.source_lambdaAt_opened
    have found : Answers ((w.opened ctx.thread.id k).found scope name)
        ((w.opened ctx.thread.id k).means scope name) := by
      rw [same.found, same.means]
      exact hfound
    have handlers (above : ScopeId) : ((w.opened ctx.thread.id k).scopeAt above).handlers = [] := by
      rw [World.scopeAt_congr opened.scopes]
      exact hhandlers above
    have yields : (k.evaluate ctx (w.opened ctx.thread.id k)).Yields _ :=
      evaluate_reader found handlers (World.body_lambdaAt_opened.trans hk.body)
        (World.scope_lambdaAt_opened.trans hk.scope)
    rw [World.reading_congr opened.config source same] at yields
    refine yields.attempt.bind ?_ fun e u h => by
      obtain ⟨_, failed, -⟩ := h
      cases failed
    rintro r u ⟨_, ⟨⟩, hbeside, plain, answers⟩
    have recached := (opened.trans hbeside.recached).trans (.closed w u ctx.thread.id k r)
    have cache := World.cache_closed hk.fixable hc hk.lt hbeside.lambdas r
    -- what is kept is what has been given
    have given {x : Value} (h : ((w.closed ctx.thread.id k r u).lambdaAt k).cache = .holding x) :
        r = .ok x := by
      rw [cache] at h
      cases r with
      | ok y =>
        cases h
        rfl
      | error e => cases h
    refine Eval.yields_ofExcept ⟨recached, fun hne => ?_, fun other => ?_, fun hx => plain _ hx,
      fun hx => plain _ (given hx), fun hdepth h => ?_⟩
    · rw [World.lambdaAt_closed_of_ne hne, World.lambdaAt, hbeside.lambdas]
      exact congrArg LambdaRecord.cache (World.lambdaAt_opened_of_ne hne)
    · rw [cache]
      intro computing
      cases r <;> cases computing
    · have answer := answers (opened.config ▸ hdepth)
      refine ⟨answer, fun x hx => ?_⟩
      have source : ((w.closed ctx.thread.id k r u).lambdaAt k).source = (w.lambdaAt k).source := by
        rw [recached.record k]
      rw [World.reading_congr recached.config source (recached.meansSame hn hk.known)]
      exact given hx ▸ answer

/-- A reader that is up to date gives what the name means, and is up to date afterwards. -/
theorem LambdaId.force_reader (hw : w.Follows k scope owner name)
    (hdepth : ctx.thread.depth < w.config.maxDepth) :
    (k.force ctx w).Yields fun r v =>
      Answers r (w.reading k scope name) ∧ v.Follows k scope owner name := by
  obtain ⟨quiet, hk, registered, hup⟩ := hw
  have plain (x : Value) (hx : (w.lambdaAt k).cache = .holding x) : x.Plain := (hup x hx).plain rfl
  have consulted : (k.force ctx w).Yields _ :=
    force_consults quiet.nested hk (quiet.answers_found scope name) quiet.handlers plain
  refine consulted.mono fun r v h => ?_
  obtain ⟨answers, upToDate⟩ := h.upToDate hdepth hup
  refine ⟨answers, quiet.recached h.recached, hk.recached h.recached h.idle, ?_, upToDate⟩
  rwa [World.followersAt_congr h.recached.scopes]

/-- A lambda that gives what the name means gives what a look at the name gives. -/
theorem LambdaId.gives_of_answers
    (answers : (k.force ctx w).Yields fun r _ => Answers r (w.reading k scope name)) :
    (∀ x, scope.get name true ctx w = .value x w →
      ∃ y v, k.force ctx w = .value y v ∧ y.unmark = x.unmark) ∧
    ∀ e, scope.get name true ctx w = .error e w →
      ∃ r v, k.force ctx w = .done r v ∧
        r.map Value.unmark = unhandled w.config.failFast (e.addSource (w.lambdaAt k).source) := by
  have gives : scope.get name true ctx w = .done (w.found scope name) w := World.get_apply ..
  obtain ⟨r, v, run, answer⟩ := Outcome.yields_iff.1 answers
  have same : r.map Value.unmark = w.reading k scope name := answer.same
  refine ⟨fun x hx => ?_, fun e he => ⟨r, v, run, ?_⟩⟩
  · change _ = Outcome.done (.ok x) w at hx
    have found : w.found scope name = .ok x := (Outcome.done_inj (gives.symm.trans hx)).1
    rw [World.reading, World.means, found] at same
    cases r with
    | ok y => exact ⟨y, v, run, Except.ok.inj same⟩
    | error e => cases same
  · change _ = Outcome.done (.error e) w at he
    have found : w.found scope name = .error e := (Outcome.done_inj (gives.symm.trans he)).1
    rw [same, World.reading, World.means, found]
    rfl

end Force

/-! ## Readers over time -/

section Run

variable {u v w : World} {k : LambdaId} {scope owner : ScopeId} {name register : String}
  {ctx later : Context}

/-- A reader that is told of all that touches its name stays registered and up to date. -/
theorem World.Attended.follows (h : World.Attended k scope owner name u v)
    (hu : u.Follows k scope owner name) : v.Follows k scope owner name := by
  induction h with
  | refl => exact hu
  | change _ plain depth aware kept run ih =>
    have turned := Change.turned ih.quiet plain depth run
    refine turned.follows ih (.imp_right fun touched => ?_) fun emptied => kept emptied.2
    exact Change.tells_of_writesAt ih.registered (aware touched)
  | force _ depth run ih =>
    have forced := LambdaId.force_reader ih depth
    rw [run] at forced
    exact forced.of_done.2

section Referenced

variable (halive : (w.scopeAt scope).destroyed = false)

theorem World.lambdaAt_referenced (w : World) (scope : ScopeId) (name : String) (record : LambdaRecord)
    (register : String) (j : LambdaId) : (w.referenced scope name record register).lambdaAt j =
      if j.index = w.lambdas.size then record else w.lambdaAt j :=
  getD_push w.lambdas record default j.index

theorem World.lambdaAt_referenced_self (w : World) (scope : ScopeId) (name : String)
    (record : LambdaRecord) (register : String) :
    (w.referenced scope name record register).lambdaAt ⟨w.lambdas.size⟩ = record :=
  (w.lambdaAt_referenced ..).trans (if_pos rfl)

include halive

theorem World.Quiet.referenced (hw : w.Quiet) :
    (w.referenced scope name (w.lookupRecord scope name) register).Quiet := by
  refine hw.ofScopes ⟨fun j => ?_, fun j => ?_⟩ (fun other => ?_) rfl
  · rw [callbacks, lambdaAt_referenced]
    split
    · rfl
    · exact hw.silent.callbacks j
  · rw [lambdaAt_referenced]
    split
    · rfl
    · exact hw.silent.notified j
  · rw [scopeAt_referenced halive]
    split
    · exact ScopeRecord.followedBy_eq ..
    · rfl

/-- A lambda that has just been made to read a name is a reader. -/
theorem World.reader_referenced (fresh : ∀ j, ⟨w.lambdas.size⟩ ∉ w.dependents j) :
    (w.referenced scope name (w.lookupRecord scope name) register).Reader ⟨w.lambdas.size⟩ scope name where
  known := Nat.lt_of_lt_of_eq (lt_of_alive halive) (Array.size_modify ..).symm
  body := by
    rw [lambdaAt_referenced_self]
    rfl
  scope := by
    rw [lambdaAt_referenced_self]
    rfl
  fixable := by
    rw [lambdaAt_referenced_self]
    rfl
  idle thread h := by
    rw [lambdaAt_referenced_self] at h
    cases h
  alone j := by
    rw [dependents, lambdaAt_referenced]
    split
    · exact List.not_mem_nil
    · exact fresh j
  lt := Nat.lt_of_lt_of_eq (Nat.lt_succ_self _) (Array.size_push _).symm
  held := by
    have held : Entries.get? (Entries.insert w.desk.registers register (.lambda ⟨w.lambdas.size⟩))
        register = some (.lambda ⟨w.lambdas.size⟩) := by
      rw [Entries.get?_insert, if_pos rfl]
    exact Value.mem_entriesPlaces.2 ⟨_, Entries.mem_of_get?_eq_some held, List.mem_cons_self⟩

/-- It is registered with the scope that declares the name, and up to date. -/
theorem World.follows_referenced (hw : w.Quiet) (fresh : ∀ j, ⟨w.lambdas.size⟩ ∉ w.dependents j) :
    (w.referenced scope name (w.lookupRecord scope name) register).Follows ⟨w.lambdas.size⟩ scope
      (w.home scope name) name where
  quiet := hw.referenced halive
  reader := reader_referenced halive fresh
  registered := by
    rw [followersAt, scopeAt_referenced halive, if_pos rfl]
    exact ScopeRecord.mem_followedBy ..
  upToDate x hx := by
    rw [lambdaAt_referenced_self] at hx
    cases hx

end Referenced

theorem LambdaId.ofVariable_fails (h : (w.scopeAt scope).destroyed = true) :
    ∃ e v, LambdaId.ofVariable scope name ctx w = .error e v := by
  unfold ofVariable
  rw [Eval.bind_apply, World.ofBody_lookup_apply, Outcome.bind_value, Eval.bind_apply]
  unfold ScopeId.listen
  rw [Eval.bind_apply]
  rcases ScopeId.checkAlive_cases scope ctx
      { w with lambdas := w.lambdas.push (w.lookupRecord scope name) } with ⟨e, run⟩ | ⟨alive, -⟩
  · rw [run]
    exact ⟨e, _, rfl⟩
  · rw [show (w.scopeAt scope).destroyed = false from alive] at h
    cases h

/-- A lambda that has been made to read a name, and is held in a register. -/
theorem LambdaId.follows_of_built (hw : w.Quiet) (fresh : ∀ j, ⟨w.lambdas.size⟩ ∉ w.dependents j)
    (built : (do
      let k ← LambdaId.ofVariable scope name
      keepValue (some register) (.lambda k)
      return k : Eval LambdaId) ctx w = .value k u) : u.Follows k scope (w.home scope name) name := by
  rw [Eval.bind_apply] at built
  cases halive : (w.scopeAt scope).destroyed with
  | true =>
    obtain ⟨e, v', failed⟩ : ∃ e v, LambdaId.ofVariable scope name ctx w = .error e v :=
      ofVariable_fails halive
    rw [failed] at built
    cases built
  | false =>
    rw [World.ofVariable_apply halive] at built
    cases built
    exact World.follows_referenced halive hw fresh

/-- A lambda that reads a name gives what the name means, as long as all that touches the name is written at
the scope that declared it when the lambda was made. Where the name cannot be read it gives what becomes of
that failure. A change that it is not told of leaves it with what it keeps. -/
theorem LambdaId.reader_follows_what_is_told (hw : w.Quiet) (fresh : ∀ j, ⟨w.lambdas.size⟩ ∉ w.dependents j)
    (built : (do
      let k ← LambdaId.ofVariable scope name
      keepValue (some register) (.lambda k)
      return k : Eval LambdaId) ctx w = .value k u)
    (attended : World.Attended k scope (w.home scope name) name u v)
    (hdepth : later.thread.depth < v.config.maxDepth) :
    (∀ x, scope.get name true later v = .value x v →
      ∃ y v', k.force later v = .value y v' ∧ y.unmark = x.unmark) ∧
    (∀ e, scope.get name true later v = .error e v →
      ∃ r v', k.force later v = .done r v' ∧
        r.map Value.unmark = unhandled v.config.failFast (e.addSource (v.lambdaAt k).source)) ∧
    ∀ (c : Change) (budget : Nat) (thread : Thread) (r : Except Error Unit) (v' : World) (x : Value),
      c.Plain → thread.depth < v.config.maxDepth → ¬ c.Tells v k →
        (v.lambdaAt k).cache = .holding x → c.act (.ofBudget budget thread) v = .done r v' →
          k.force later v' = .value x v' := by
  have follows := attended.follows (follows_of_built hw fresh built)
  obtain ⟨values, failures⟩ := gives_of_answers
    ((force_reader follows hdepth).mono fun _ _ h => h.1)
  refine ⟨values, failures, fun c budget thread r v' x plain depth untold hx run => ?_⟩
  have turned := Change.turned follows.quiet plain depth run
  have kept := turned.cache_of_not follows.reader fun told => untold told.2
  exact force_of_holding (turned.reader follows.reader).fixable (kept.trans hx) later

end Run

/-- A variable of a root scope, which a scope below it sees and a copy of it shares. -/
def World.ofShared : World :=
  { World.ofCopies with
    vars := #[{ value := .integer 1, flags := {}, constraint := none, thread := default }]
    lambdas := #[] }

theorem World.quiet_ofShared : ofShared.Quiet := by
  have known (scope : ScopeId) : (ofShared.scopeAt scope).handlers = [] ∧
      (ofShared.scopeAt scope).parameters = [] :=
    bare_ofCopies scope
  have bare (k : LambdaId) : ofShared.lambdaAt k = default := lambdaAt_of_size_le (Nat.zero_le _)
  have held (id : VariableId) : (ofShared.variableAt id).value.Plain ∧
      (ofShared.variableAt id).constraint = none := by
    obtain ⟨i⟩ := id
    match i with
    | 0 => exact ⟨rfl, rfl⟩
    | i + 1 => exact ⟨rfl, rfl⟩
  refine ⟨nested_ofCopies.ofScopes rfl (Nat.le_refl _), ⟨fun k => ?_, fun k => ?_⟩,
    fun scope => (known scope).1, fun id => (held id).1, fun id c hc => ?_, fun scope key value h => ?_⟩
  · rw [callbacks, bare]
    rfl
  · rw [bare]
    rfl
  · rw [(held id).2] at hc
    cases hc
  · rw [(known scope).2] at h
    cases h

/-- A reader below the scope that declares the name is told of what is assigned there. -/
theorem LambdaId.reader_follows_assignment :
    let ctx := Context.ofBudget 3 default
    ∃ u v, (do
        let k ← LambdaId.ofVariable ⟨1⟩ "x"
        keepValue (some "reader") (.lambda k)
        return k : Eval LambdaId) ctx World.ofShared = .value ⟨0⟩ u ∧
      World.Attended ⟨0⟩ ⟨1⟩ ⟨0⟩ "x" u v ∧
      ∃ x y v', ScopeId.get ⟨1⟩ "x" true ctx v = .value x v ∧ x.data = .integer 2 ∧
        LambdaId.force ⟨0⟩ ctx v = .value y v' ∧ y.unmark = x.unmark := by
  intro ctx
  have fresh (j : LambdaId) : ⟨World.ofShared.lambdas.size⟩ ∉ World.ofShared.dependents j := by
    rw [World.dependents, World.lambdaAt_of_size_le (Nat.zero_le _)]
    exact List.not_mem_nil
  -- the reader is made and forced
  obtain ⟨u, t, s, y, x, built, forced, stored, hx, plain, beside, hu, ht, found, alive,
      impure⟩ : ∃ u t s y x, (do
        let k ← LambdaId.ofVariable ⟨1⟩ "x"
        keepValue (some "reader") (.lambda k)
        return k : Eval LambdaId) ctx World.ofShared = .value ⟨0⟩ u ∧
      LambdaId.force ⟨0⟩ ctx u = .value y t ∧
      ScopeId.proposeValue ⟨1⟩ ⟨0⟩ ⟨0⟩ "x" (.integer 2) ctx t = .value x s ∧ x.data = .integer 2 ∧
      x.Plain ∧ t.Beside s ∧ u.config = default ∧ t.config = default ∧
      t.findVariable? ⟨1⟩ "x" = some (⟨0⟩, ⟨0⟩) ∧ (t.scopeAt ⟨1⟩).destroyed = false ∧
      (t.scopeAt ⟨1⟩).pure = false := by
    refine ⟨?u, ?t, ?s, ?y, ?x, ?_, ?_, ?_, ?_, ?_, ?_, ?_, ?_, ?_, ?_, ?_⟩
    rotate_left 5
    all_goals first | exact rfl | exact ⟨rfl, rfl, rfl, rfl, rfl⟩
  have shallow {w : World} (h : w.config = default) : ctx.thread.depth < w.config.maxDepth := by
    rw [h]
    exact Nat.zero_lt_succ 999
  have made : u.Follows ⟨0⟩ ⟨1⟩ ⟨0⟩ "x" := follows_of_built World.quiet_ofShared fresh built
  have result : LambdaId.force ⟨0⟩ ctx u = .done (.ok y) t := forced
  have first : World.Attended ⟨0⟩ ⟨1⟩ ⟨0⟩ "x" u t := .force (.refl u) (shallow hu) result
  have quiet := (first.follows made).quiet
  -- the assignment goes through and tells the reader
  obtain ⟨v, assigned, hv, shows⟩ : ∃ v, ScopeId.set ⟨1⟩ "x" (.integer 2) ctx t = .value x v ∧
      v.config = t.config ∧ v.Shows ⟨1⟩ "x" x :=
    ScopeId.set_goes_through quiet (shallow ht) alive rfl found impure stored plain beside
  have changed : (Change.set ⟨1⟩ "x" (.integer 2)).act ctx t = .done (.ok ()) v := by
    show (do let _ ← ScopeId.set ⟨1⟩ "x" (.integer 2) : Eval Unit) ctx t = _
    rw [Eval.bind_apply, assigned]
    rfl
  have home : t.home ⟨1⟩ "x" = ⟨0⟩ := by
    rw [World.home, found]
    rfl
  have kept : Change.set ⟨1⟩ "x" (.integer 2) ≠ .clear ⟨0⟩ := fun h => by
    cases h
  have attended : World.Attended ⟨0⟩ ⟨1⟩ ⟨0⟩ "x" u v :=
    .change (c := .set ⟨1⟩ "x" (.integer 2)) first rfl (shallow ht) (fun _ => ⟨rfl, home⟩) kept changed
  obtain ⟨follows, -, -⟩ := reader_follows_what_is_told World.quiet_ofShared fresh built attended
    (shallow (hv.trans ht))
  obtain ⟨y, v', run, same⟩ := follows x (shows true ctx)
  exact ⟨u, v, built, attended, x, y, v', shows true ctx, hx, run, same⟩

/-- It is not so that a reader gives what the name means after every change: it is not told of an
assignment through a copy of the scope. -/
theorem LambdaId.reader_misses_copy :
    let ctx := Context.ofBudget 3 default
    ∃ k u v x y, (do
        let k ← LambdaId.ofVariable ⟨0⟩ "x"
        keepValue (some "reader") (.lambda k)
        let _ ← k.force
        return k : Eval LambdaId) ctx World.ofShared = .value k u ∧
      (Change.set ⟨2⟩ "x" (.integer 2)).act ctx u = .value () v ∧
      ScopeId.get ⟨0⟩ "x" true ctx v = .value x v ∧ x.data = .integer 2 ∧
      k.force ctx v = .value y v ∧ y.data = .integer 1 :=
  ⟨_, _, _, _, _, rfl, rfl, rfl, rfl, rfl, rfl⟩

end Reactor
