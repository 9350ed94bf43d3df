import Reactor.Proofs.Chains.Outcome
import Reactor.Proofs.Failures.Forces
import Reactor.Proofs.Network.Serve

/-!
# Forcing the members of a chain

The engine does to a chain what `Chain.outcome` says (`World.Holding.force_yields`), however many levels
the thread has open already: the force of a member gives its outcome, and the members keep what they
are said to keep.

The members of a chain are lambdas whose scripts force the next member and compute something of its value
(`Expr.Applies`). While a member is being computed, only the members after it change, so the proof is by
induction on the chain. A script may force the next member several times: from the second time on it
finds what the first one left (`Chain.outcome_again`).
-/

namespace Reactor

/-- What a lambda keeps is a given result, up to marks, or nothing. -/
def Cache.Stands (cache : Cache) : Option Value → Prop
  | some v => ∃ x, cache = .holding x ∧ Answers (.ok x) (.ok v)
  | none => cache = .empty

/-- A lambda that is forced on the thread at hand gives a certain result, and that takes the states with one
property to those with another. Without a lambda there is nothing to be given. -/
structure Context.Feeds (ctx : Context) (inner : Option LambdaId) (d : Except Error Value)
    (before after : World → Prop) : Prop where
  before_beside {w v : World} (hw : before w) (h : w.Beside v) : before v
  after_beside {w v : World} (hw : after w) (h : w.Beside v) : after v
  forced {id : LambdaId} (h : inner = some id) {thread : Thread} (hid : thread.id = ctx.thread.id)
    (hdepth : thread.depth = ctx.thread.depth) {w : World} (hw : before w ∨ after w) :
    (ctx.force id thread w).Yields fun r v => after v ∧ Answers r d
  idle (h : inner = none) : d = .ok .void ∧ ∀ w, before w → after w

/-- The script forces a lambda, which it finds in registers, and gives a function of its value. It fails if
the lambda does. -/
def Expr.Applies (e : Expr) (scope : ScopeId) (registers : Entries String Value)
    (inner : Option LambdaId) (need : Nat) (f : Value → Except Error Value) : Prop :=
  ∀ {ctx : Context} {d : Except Error Value} {before after : World → Prop},
    need ≤ ctx.budget → ctx.Feeds inner d before after →
    (∀ w, before w ∨ after w → w.Registers registers) →
    ∀ {w : World}, before w →
      (e.eval scope none ctx w).Yields fun r v => after v ∧ Answers r (d.bind f)

namespace World

/-- A lambda is a member of a chain, with another one after it, or with none. Nobody handles its errors. -/
structure Links (w : World) (need : Nat) (link : Link) (inner : Option LambdaId) : Prop where
  lt : link.id.index < w.lambdas.size
  fixable : (w.lambdaAt link.id).fixable = true
  source : (w.lambdaAt link.id).source = link.source
  script : ∃ e, (w.lambdaAt link.id).body = .script e ∧
    e.Applies (w.lambdaAt link.id).scope w.desk.registers inner need link.compute
  unhandled : ∀ above ∈ w.ancestors (w.lambdaAt link.id).scope, (w.scopeAt above).handlers = []

/-- The lambdas make a chain. -/
inductive Chained (w : World) (need : Nat) : List Link → Prop
  | nil : Chained w need []
  | cons {link : Link} {rest : List Link} (h : w.Links need link (rest.head?.map Link.id))
    (hrest : Chained w need rest) : Chained w need (link :: rest)

/-- The members of a chain keep certain results, and all else is as in another state. -/
structure Holding (u : World) (chain : List Link) (kept : Kept) (w : World) : Prop where
  recached : u.Recached w
  beyond {id : LambdaId} (h : id ∉ chain.map Link.id) : w.lambdaAt id = u.lambdaAt id
  stands {id : LambdaId} (h : id ∈ chain.map Link.id) : (w.lambdaAt id).cache.Stands (kept id)

variable {u v w : World} {need : Nat} {link : Link} {rest chain : List Link} {kept kept' : Kept}
  {inner : Option LambdaId} {thread : Thread} {budget room : Nat} {answer : Except Error Value}

theorem Links.recached (h : u.Links need link inner) (hw : u.Recached w) :
    w.Links need link inner := by
  have hscope : (w.lambdaAt link.id).scope = (u.lambdaAt link.id).scope := by rw [hw.record]
  refine ⟨hw.size ▸ h.lt, ?_, ?_, ?_, ?_⟩
  · rw [hw.record]
    exact h.fixable
  · rw [hw.record]
    exact h.source
  · rw [hscope, hw.registers, show (w.lambdaAt link.id).body = (u.lambdaAt link.id).body by
      rw [hw.record]]
    exact h.script
  · rw [hscope, ancestors_congr hw.scopes]
    simpa only [scopeAt_congr hw.scopes] using h.unhandled

theorem Chained.of_suffix {member : List Link} (h : u.Chained need chain) (hs : member <:+ chain) :
    u.Chained need member := by
  induction h with
  | nil =>
    rw [List.suffix_nil.1 hs]
    exact .nil
  | cons hlink hrest ih =>
    rcases List.suffix_cons_iff.1 hs with rfl | hs
    · exact .cons hlink hrest
    · exact ih hs

theorem Chained.recached (h : u.Chained need chain) (hw : u.Recached w) : w.Chained need chain := by
  induction h with
  | nil => exact .nil
  | cons h _ ih => exact .cons (h.recached hw) ih

/-- Nothing has been computed yet. -/
theorem holding_of_fresh (h : ∀ link ∈ chain, (w.lambdaAt link.id).cache = .empty) :
    w.Holding chain (fun _ => none) w := by
  refine ⟨.refl w, fun _ => rfl, fun {id} hid => ?_⟩
  obtain ⟨link, hlink, rfl⟩ := List.mem_map.1 hid
  exact h link hlink

namespace Holding

theorem beside (h : u.Holding chain kept w) (hv : w.Beside v) : u.Holding chain kept v := by
  have same (id : LambdaId) : v.lambdaAt id = w.lambdaAt id := by rw [lambdaAt, lambdaAt, hv.lambdas]
  refine ⟨h.recached.trans hv.recached, fun hid => ?_, fun hid => ?_⟩
  · rw [same]
    exact h.beyond hid
  · rw [same]
    exact h.stands hid

/-- What a chain keeps, a part of it keeps. -/
theorem within {member : List Link} (h : u.Holding chain kept w) (hs : member <:+ chain) :
    w.Holding member kept w :=
  ⟨.refl w, fun _ => rfl, fun hid => h.stands ((hs.sublist.map Link.id).subset hid)⟩

/-- What a part of a chain comes to keep, the chain comes to keep. -/
theorem extend {member : List Link} (h : u.Holding chain kept w) (hs : member <:+ chain)
    (hv : w.Holding member kept' v)
    (hsame : ∀ id, id ∉ member.map Link.id → kept' id = kept id) : u.Holding chain kept' v := by
  refine ⟨h.recached.trans hv.recached, fun {id} hid => ?_, fun {id} hid => ?_⟩
  · have hbeyond : id ∉ member.map Link.id := fun hmem => hid ((hs.sublist.map Link.id).subset hmem)
    rw [hv.beyond hbeyond, h.beyond hid]
  · by_cases hmem : id ∈ member.map Link.id
    · exact hv.stands hmem
    · rw [hv.beyond hmem, hsame id hmem]
      exact h.stands hid

/-- The first member begins to be computed. -/
theorem begin (hd : Chain.Distinct (link :: rest)) (h : u.Holding (link :: rest) kept w)
    (owner : ThreadId) :
    (w.modifyLambda link.id (.begun owner)).Holding rest kept (w.modifyLambda link.id (.begun owner)) := by
  obtain ⟨hnew, -⟩ := List.nodup_cons.1 hd
  refine ⟨.refl _, fun _ => rfl, fun {id} hid => ?_⟩
  rw [lambdaAt_modifyLambda, if_neg]
  · exact h.stands (List.mem_cons_of_mem _ hid)
  · rintro ⟨rfl, -⟩
    exact hnew hid

/-- When it has been computed, it keeps the result, unless that is a failure. -/
theorem settle {owner : ThreadId} (hd : Chain.Distinct (link :: rest))
    (hlt : link.id.index < u.lambdas.size) (h : u.Holding (link :: rest) kept w)
    (hv : (w.modifyLambda link.id (.begun owner)).Holding rest kept' v) (hnone : kept' link.id = none)
    {r : Except Error Value} (hr : Answers r answer) :
    u.Holding (link :: rest) (Chain.keep kept' link.id answer)
      (v.modifyLambda link.id (LambdaId.settle owner (w.lambdaAt link.id).generation r)) := by
  obtain ⟨hnew, -⟩ := List.nodup_cons.1 hd
  have hbegun : w.Recached (w.modifyLambda link.id (.begun owner)) := .modifyLambda w _ fun _ => rfl
  have hlt' : link.id.index < w.lambdas.size := h.recached.size ▸ hlt
  -- nobody else has touched the member meanwhile
  have hself : v.lambdaAt link.id = (w.lambdaAt link.id).begun owner := by
    rw [hv.beyond hnew, lambdaAt_modifyLambda, if_pos ⟨rfl, hlt'⟩]
  have hsettled (id : LambdaId) :
      (v.modifyLambda link.id (LambdaId.settle owner (w.lambdaAt link.id).generation r)).lambdaAt id =
        if link.id = id then { w.lambdaAt link.id with cache := .ofResult r } else v.lambdaAt id := by
    rw [lambdaAt_modifyLambda]
    by_cases hid : link.id = id
    · subst hid
      rw [if_pos ⟨rfl, (hv.recached.size.trans hbegun.size) ▸ hlt'⟩, if_pos rfl, hself]
      cases r <;> simp [LambdaId.settle, LambdaRecord.begun, Cache.ofResult]
    · rw [if_neg fun found => hid found.1, if_neg hid]
  have hall := (h.recached.trans hbegun).trans hv.recached
  refine ⟨⟨hall.config, hall.scopes, hall.vars, hall.registers, (Array.size_modify ..).trans hall.size,
    fun id => ?_⟩, fun {id} hid => ?_, fun {id} hid => ?_⟩
  · rw [hsettled]
    split
    · rename_i found
      rw [← found, h.recached.record link.id]
    · exact hall.record id
  · rw [List.map_cons, List.mem_cons, not_or] at hid
    have hne : ¬ link.id = id := fun heq => hid.1 heq.symm
    rw [hsettled, if_neg hne, hv.beyond hid.2, lambdaAt_modifyLambda, if_neg fun found => hne found.1]
    exact h.beyond fun hmem => (List.mem_cons.1 hmem).elim hid.1 hid.2
  · rw [hsettled]
    by_cases heq : link.id = id
    · subst heq
      rw [if_pos rfl]
      obtain ⟨hsame, -⟩ := id hr
      cases r with
      | ok x =>
        cases hsame
        rw [Except.map, Chain.keep_self]
        exact ⟨x, rfl, hr⟩
      | error e =>
        cases hsame
        rw [Except.map, Chain.keep, hnone]
        rfl
    · rw [if_neg heq, Chain.keep_of_ne fun found => heq found.symm]
      exact hv.stands ((List.mem_cons.1 hid).resolve_left fun found => heq found.symm)

/-- A force that computes the first member gives what becomes of the computation. -/
theorem force_of_run {ctx : Context} (hlink : u.Links need link inner)
    (hd : Chain.Distinct (link :: rest)) (hw : u.Holding (link :: rest) kept w)
    (hkept : kept link.id = none) (hnone : kept' link.id = none)
    (run : (link.id.run (w.lambdaAt link.id).scope ctx
        (w.modifyLambda link.id (.begun ctx.thread.id))).Yields fun r v =>
      (w.modifyLambda link.id (.begun ctx.thread.id)).Holding rest kept' v ∧ Answers r answer) :
    (link.id.force ctx w).Yields fun r v =>
      u.Holding (link :: rest)
        (Chain.keep kept' link.id (answerOf u.config.failFast link.source answer)) v ∧
        Answers r (answerOf u.config.failFast link.source answer) := by
  have hlink' := hlink.recached hw.recached
  have hcache : (w.lambdaAt link.id).cache = .empty := by
    have hstands : (w.lambdaAt link.id).cache.Stands (kept link.id) := hw.stands (by simp)
    rwa [hkept] at hstands
  have hbegun : w.Recached (w.modifyLambda link.id (.begun ctx.thread.id)) :=
    .modifyLambda w _ fun _ => rfl
  have hlink'' := hlink'.recached hbegun
  have hrecord := hbegun.record link.id
  rw [LambdaId.force_of_empty hlink'.fixable hcache]
  refine Eval.yields_attempt (P := fun r v => (∃ x,
    (w.modifyLambda link.id (.begun ctx.thread.id)).Holding rest kept' x ∧ x.Beside v) ∧
      Answers r (answerOf u.config.failFast link.source answer)) ?_ ?_
  · have hscope : ((w.modifyLambda link.id (.begun ctx.thread.id)).lambdaAt link.id).scope =
        (w.lambdaAt link.id).scope := by rw [hrecord]
    have evaluated := LambdaId.evaluate_yields_of_run
      (P := (w.modifyLambda link.id (.begun ctx.thread.id)).Holding rest kept')
      (by rw [hscope]; exact run) (fun v hv => hv.recached.config) fun v hv => by
        rw [ancestors_congr hv.recached.scopes]
        simpa only [scopeAt_congr hv.recached.scopes] using hlink''.unhandled
    rwa [hlink''.source, hbegun.config, hw.recached.config] at evaluated
  · rintro r v ⟨⟨x, hx, hbeside⟩, hr⟩
    rw [Eval.bind_apply, Eval.modify_apply, Outcome.bind_value]
    exact Eval.yields_ofExcept ⟨hw.settle hd hlink.lt (hx.beside hbeside) hnone hr, hr⟩

/-- The first member may not be computed. -/
theorem run_refused (hdepth : w.config.maxDepth ≤ thread.depth) (scope : ScopeId) :
    link.id.run scope (.machine LambdaId.force budget thread) w =
      .error (.excessiveRecursion (thread.depth + 1) w.config.maxDepth) w := by
  rw [LambdaId.run, Eval.nested_of_le _ (by rwa [Context.thread_machine]), Context.thread_machine]

/-- Where no level is left, the first member fails with what is raised at the level that would be next. -/
theorem force_refused (budget : Nat) (hlink : u.Links need link inner)
    (hd : Chain.Distinct (link :: rest)) (hdepth : u.config.maxDepth ≤ thread.depth)
    (hkept : kept link.id = none) (hw : u.Holding (link :: rest) kept w) :
    (link.id.force (.machine LambdaId.force budget thread) w).Yields fun r v =>
      u.Holding (link :: rest) (Chain.keep kept link.id (answerOf u.config.failFast link.source
        (.error (.excessiveRecursion (thread.depth + 1) u.config.maxDepth)))) v ∧
      Answers r (answerOf u.config.failFast link.source
        (.error (.excessiveRecursion (thread.depth + 1) u.config.maxDepth))) := by
  have hall := hw.recached.trans
    (.modifyLambda w link.id (f := .begun thread.id) fun _ => rfl)
  refine hw.force_of_run hlink hd hkept hkept ?_
  rw [Context.thread_machine, run_refused (by rwa [hall.config]), hall.config]
  exact ⟨hw.begin hd thread.id, rfl, nofun⟩

/-- The first member is computed of what the rest of the chain gives, one level deeper. -/
theorem run_yields (hlink : w.Links need link inner) {d : Except Error Value}
    (hdepth : thread.depth < w.config.maxDepth) (hneed : need + 1 ≤ budget)
    (hfeeds : (Context.machine LambdaId.force (budget - 1)
      { thread with depth := thread.depth + 1 }).Feeds inner d (w.Holding rest kept)
        (w.Holding rest kept'))
    (hw : w.Holding rest kept w) :
    (link.id.run (w.lambdaAt link.id).scope (.machine LambdaId.force budget thread) w).Yields fun r v =>
      w.Holding rest kept' v ∧ Answers r (d.bind link.compute) := by
  obtain ⟨budget, rfl⟩ : ∃ b, budget = b + 1 := ⟨budget - 1, by omega⟩
  obtain ⟨e, hbody, happlies⟩ := hlink.script
  have registers (v : World) (hv : w.Holding rest kept v ∨ w.Holding rest kept' v) :
      v.Registers w.desk.registers := by
    have same : v.desk.registers = w.desk.registers :=
      hv.elim (·.recached.registers) (·.recached.registers)
    intro name value hvalue
    rwa [same]
  have evaluated := happlies (by rw [Context.budget_machine]; omega) hfeeds registers hw
  rw [LambdaId.run, Eval.nested_of_lt _ (by rwa [Context.thread_machine]), Context.machine_withThread,
    Context.thread_machine]
  unfold LambdaId.compute LambdaId.record
  refine Eval.yields_bind (P := fun r v => w.Holding rest kept' v ∧ Answers r (d.bind link.compute))
    ?_ ?_ fun e v h => h
  · rw [Eval.bind_apply, Eval.gets_apply, Outcome.bind_value, hbody]
    exact evaluated
  · rintro value v ⟨hv, hvalue⟩
    have hsettled := (hvalue.plain rfl).lambda?_eq_none
    rw [hsettled, Value.forced_of_lambda?_eq_none hsettled]
    exact ⟨hv, hvalue⟩

/-- At each level the force of the first member gives its outcome, if the rest of the chain does one level
deeper. -/
theorem force_yields (budget : Nat) (hlink : u.Links need link inner) (hd : Chain.Distinct (link :: rest))
    (hdepth : thread.depth + room = u.config.maxDepth) (hneed : need + 1 ≤ budget)
    (hrest : ∀ {kept : Kept} {room : Nat} {w : World}, u.Recached w →
      thread.depth + 1 + room = u.config.maxDepth →
      (Context.machine LambdaId.force (budget - 1) { thread with depth := thread.depth + 1 }).Feeds inner
        (Chain.outcome u.config.failFast u.config.maxDepth rest room kept).1 (w.Holding rest kept)
        (w.Holding rest (Chain.outcome u.config.failFast u.config.maxDepth rest room kept).2))
    (hw : u.Holding (link :: rest) kept w) :
    (link.id.force (.machine LambdaId.force budget thread) w).Yields fun r v =>
      u.Holding (link :: rest)
        (Chain.outcome u.config.failFast u.config.maxDepth (link :: rest) room kept).2 v ∧
      Answers r (Chain.outcome u.config.failFast u.config.maxDepth (link :: rest) room kept).1 := by
  have hstands : (w.lambdaAt link.id).cache.Stands (kept link.id) := hw.stands (by simp)
  cases hkept : kept link.id with
  | some v =>
    rw [hkept] at hstands
    obtain ⟨x, hcache, hx⟩ := hstands
    rw [LambdaId.force_of_holding (hlink.recached hw.recached).fixable hcache _,
      Chain.outcome_kept hkept]
    exact ⟨hw, hx⟩
  | none =>
    have hbegun : w.Recached (w.modifyLambda link.id (.begun thread.id)) :=
      .modifyLambda w _ fun _ => rfl
    have hscope : ((w.modifyLambda link.id (.begun thread.id)).lambdaAt link.id).scope =
        (w.lambdaAt link.id).scope := by rw [hbegun.record]
    have hall := hw.recached.trans hbegun
    have hbegin := hw.begin hd thread.id
    cases room with
    | zero =>
      have hfull : thread.depth = u.config.maxDepth := hdepth
      have refused := hw.force_refused budget hlink hd (Nat.le_of_eq hfull.symm) hkept
      rw [hfull] at refused
      rw [Chain.outcome_refusal hkept]
      exact refused
    | succ room =>
      have hnone : (Chain.outcome u.config.failFast u.config.maxDepth rest room kept).2 link.id =
          none := by rw [Chain.outcome_of_not_mem (List.nodup_cons.1 hd).1, hkept]
      rw [Chain.outcome_computed hkept]
      refine hw.force_of_run hlink hd hkept hnone ?_
      rw [Context.thread_machine, ← hscope]
      refine run_yields (hlink.recached hall) ?_ hneed (hrest hall (by omega)) hbegin
      rw [hall.config]
      omega

end Holding

/-- A chain gives its outcome and keeps what it is said to keep. -/
theorem Chained.feeds (hchain : u.Chained need chain) (hd : Chain.Distinct chain)
    (hdepth : thread.depth + room = u.config.maxDepth) (hneed : 2 * chain.length + need ≤ budget) :
    (Context.machine LambdaId.force budget thread).Feeds (chain.head?.map Link.id)
      (Chain.outcome u.config.failFast u.config.maxDepth chain room kept).1 (u.Holding chain kept)
      (u.Holding chain (Chain.outcome u.config.failFast u.config.maxDepth chain room kept).2) := by
  induction chain generalizing u thread room budget kept with
  | nil => exact ⟨.beside, .beside, nofun, fun _ => ⟨rfl, fun _ hw => hw⟩⟩
  | cons link rest ih =>
    rw [List.length_cons] at hneed
    obtain ⟨hlink, hrest⟩ : u.Links need link (rest.head?.map Link.id) ∧ u.Chained need rest := by
      cases hchain with
      | cons hlink hrest => exact ⟨hlink, hrest⟩
    obtain ⟨budget, rfl⟩ : ∃ b, budget = b + 1 := ⟨budget - 1, by omega⟩
    refine ⟨.beside, .beside, fun {id} hid {later} _ hlater {w} hw => ?_, nofun⟩
    cases hid
    rw [Context.thread_machine] at hlater
    have forces {kept : Kept} (hw : u.Holding (link :: rest) kept w) :=
      Holding.force_yields budget hlink hd (hlater ▸ hdepth) (by omega)
        (fun {kept room v} hv hroom => by
          rw [← hv.config] at hroom ⊢
          exact ih (hrest.recached hv) (List.nodup_cons.1 hd).2 hroom (by omega)) hw
    rcases hw with hw | hw
    · exact forces hw
    · have again := forces hw
      rwa [Chain.outcome_again hd] at again

end World

end Reactor
