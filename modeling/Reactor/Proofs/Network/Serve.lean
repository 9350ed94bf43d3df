import Reactor.Proofs.Network.Wired

/-!
# Forcing the lambdas of a network

A lambda that is forced in a coherent state gives its answer, and what it and others come to keep
meanwhile is coherent again (`World.Warmed`). This is so for the engine (`serves_force`) and for a machine
that never keeps results (`serves_evaluate`).

The proof is by induction on the levels of the lambda. While a lambda is being computed, only older ones
are forced, so the invariant is indexed by a number: the lambdas made before the one with that number
may come to keep results, and none of them is being computed.
-/

namespace Reactor

/-- Lambdas made before a certain one may have come to keep results, and none of them is being computed. -/
structure World.Warmed (scope : ScopeId) (plan : Plan) (n : Nat) (u w : World) : Prop where
  recached : u.Recached w
  beyond {k : LambdaId} (h : n ≤ k.index) : w.lambdaAt k = u.lambdaAt k
  idle {k : LambdaId} (h : k.index < n) (thread : ThreadId) :
    (w.lambdaAt k).cache ≠ .computing thread
  coherent {k : LambdaId} {v : Value} (h : (w.lambdaAt k).cache = .holding v) :
    Answers (.ok v) (u.answer scope plan k)

namespace World.Warmed

variable {scope : ScopeId} {plan : Plan} {need : Nat} {calm : Prop} {n m : Nat} {u v w : World}

theorem wired (h : Warmed scope plan n u w) (hu : u.Wired scope plan need calm) :
    w.Wired scope plan need calm :=
  h.recached.similar.wired hu

theorem answer (h : Warmed scope plan n u w) (k : LambdaId) :
    w.answer scope plan k = u.answer scope plan k :=
  h.recached.similar.answer k

theorem beside (h : Warmed scope plan n u w) (hv : w.Beside v) : Warmed scope plan n u v := by
  have same (k : LambdaId) : v.lambdaAt k = w.lambdaAt k := by
    rw [lambdaAt, lambdaAt, hv.lambdas]
  refine ⟨h.recached.trans hv.recached, fun hk => ?_, fun hk thread => ?_, fun hc => ?_⟩
  · rw [same]
    exact h.beyond hk
  · rw [same]
    exact h.idle hk thread
  · rw [same] at hc
    exact h.coherent hc

/-- The work goes on from a later state, with fewer lambdas. -/
theorem rebase (h : Warmed scope plan n u w) (hle : m ≤ n) :
    Warmed scope plan m w w :=
  ⟨.refl w, fun _ => rfl, fun hk => h.idle (Nat.lt_of_lt_of_le hk hle), fun hc => by
    rw [h.answer]
    exact h.coherent hc⟩

/-- What has been done with fewer lambdas is part of the whole. -/
theorem extend (h : Warmed scope plan n u w) (hle : m ≤ n)
    (h' : Warmed scope plan m w v) : Warmed scope plan n u v := by
  refine ⟨h.recached.trans h'.recached, fun {k} hk => ?_, fun {k} hk thread => ?_, fun hc => ?_⟩
  · rw [h'.beyond (Nat.le_trans hle hk), h.beyond hk]
  · rcases Nat.lt_or_ge k.index m with hlt | hge
    · exact h'.idle hlt thread
    · rw [h'.beyond hge]
      exact h.idle hk thread
  · rw [← h.answer]
    exact h'.coherent hc

end World.Warmed

/-! ## Errors that nobody handles -/

namespace ScopeId

variable {ctx : Context} {w : World}

theorem reportError_yields (e : Error) (h : e.kind.isRecoverable = true) :
    (reportError e ctx w).Yields fun r v => w.Beside v ∧ r = unhandled w.config.failFast e := by
  unfold reportError unhandled
  rw [h, Eval.bind_apply, Eval.modify_apply, Outcome.bind_value, Eval.bind_apply, Eval.gets_apply,
    Outcome.bind_value]
  cases w.config.failFast with
  | true => exact ⟨⟨rfl, rfl, rfl, rfl, rfl⟩, rfl⟩
  | false => exact ⟨⟨rfl, rfl, rfl, rfl, rfl⟩, rfl⟩

theorem handleAlong_yields {scopes : List ScopeId} (h : ∀ scope ∈ scopes, (w.scopeAt scope).handlers = [])
    {e : Error} (he : scopes ≠ [] ∨ e.kind.isRecoverable = true) :
    (handleAlong scopes e ctx w).Yields fun r v => w.Beside v ∧ r = unhandled w.config.failFast e := by
  induction scopes with
  | nil =>
    rcases he with hne | hr
    · exact absurd rfl hne
    · exact reportError_yields e hr
  | cons scope scopes ih =>
    cases hr : e.kind.isRecoverable with
    | false =>
      rw [handleAlong_stopped scope scopes hr]
      refine ⟨.refl w, ?_⟩
      rw [unhandled, hr]
      rfl
    | true =>
      rw [handleAlong_passing scopes hr (.inl (h scope List.mem_cons_self))]
      exact ih (fun other hother => h other (List.mem_cons_of_mem _ hother)) (.inr hr)

/-- Without handlers an error is reported, or goes on. -/
theorem handleError_yields {scope : ScopeId} (h : ∀ above ∈ w.ancestors scope, (w.scopeAt above).handlers = [])
    (e : Error) :
    (scope.handleError e ctx w).Yields fun r v => w.Beside v ∧ r = unhandled w.config.failFast e := by
  rw [handleError_apply]
  refine handleAlong_yields h (.inl fun hnil => ?_)
  have hself := w.mem_ancestors_self scope
  rw [hnil] at hself
  cases hself

end ScopeId

/-- A lambda gives the answer to what has been computed, where nobody handles a failure. -/
theorem LambdaId.evaluate_yields_of_run {k : LambdaId} {ctx : Context} {w : World}
    {P : World → Prop} {answer : Except Error Value}
    (h : (k.run (w.lambdaAt k).scope ctx w).Yields fun r v => P v ∧ Answers r answer)
    (hconfig : ∀ v, P v → v.config = w.config)
    (hhandlers : ∀ v, P v → ∀ above ∈ v.ancestors (w.lambdaAt k).scope, (v.scopeAt above).handlers = []) :
    (k.evaluate ctx w).Yields fun r v => (∃ u, P u ∧ u.Beside v) ∧
      Answers r (answerOf w.config.failFast (w.lambdaAt k).source answer) := by
  unfold evaluate record
  rw [Eval.bind_apply, Eval.gets_apply, Outcome.bind_value]
  refine Eval.yields_attempt h fun r v => ?_
  rintro ⟨hv, rfl, hplain⟩
  cases r with
  | error e =>
    refine (ScopeId.handleError_yields (hhandlers v hv) _).mono fun r v' h => ?_
    obtain ⟨hbeside, rfl⟩ := h
    refine ⟨⟨v, hv, hbeside⟩, ?_⟩
    rw [hconfig v hv]
    show Answers (unhandled _ _) (unhandled _ _)
    unfold unhandled
    split
    · exact ⟨rfl, fun h => by cases h; rfl⟩
    · exact ⟨rfl, nofun⟩
  | ok value =>
    dsimp only
    rw [Eval.bind_apply, Value.share_apply, Outcome.bind_value, Eval.bind_apply, Eval.modify_apply,
      Outcome.bind_value]
    refine ⟨⟨v, hv, rfl, rfl, rfl, rfl, rfl⟩, ?_, ?_⟩
    · exact congrArg Except.ok (Value.unmark_markFrom v.marks value)
    · rintro _ ⟨⟩
      exact (hplain rfl).of_unmark_eq (Value.unmark_markFrom v.marks value)

/-! ## Forcing -/

/-- A way of serving lambdas gives their answers, to a number of levels. -/
def Serving (serve : LambdaId → Eval Value) (levels : Nat) : Prop :=
  ∀ {scope : ScopeId} {plan : Plan} {need : Nat} {calm : Prop} {u w : World} {k : LambdaId}
    {n budget : Nat} {thread : Thread}, u.Wired scope plan need calm → k.index < u.lambdas.size →
    u.Shallow levels k → k.index < n → thread.depth + levels ≤ u.config.maxDepth →
    2 * levels + need ≤ budget → u.Warmed scope plan n w →
    (serve k (.machine serve budget thread) w).Yields fun r v =>
      u.Warmed scope plan n v ∧ Answers r (u.answer scope plan k)

section Evaluate

variable {serve : LambdaId → Eval Value} {levels : Nat} {scope : ScopeId} {plan : Plan} {need : Nat}
  {calm : Prop} {u w : World} {k : LambdaId} {budget : Nat} {thread : Thread}

/-- A lambda gives a name's meaning, or what its script makes of its inputs. -/
theorem compute_yields (hserve : Serving serve levels) (hu : u.Wired scope plan need calm)
    (hk : k.index < u.lambdas.size) (hlevels : u.Shallow (levels + 1) k)
    (hdepth : thread.depth + levels ≤ u.config.maxDepth) (hbudget : 2 * (levels + 1) + need ≤ budget)
    (hw : u.Warmed scope plan k.index w) :
    (k.compute scope (.machine serve budget thread) w).Yields fun r v =>
      u.Warmed scope plan k.index v ∧ Settles (plan k.index).inputs (u.answer scope plan) r
        ((plan k.index).compute (u.means scope)
          ((plan k.index).inputs.map (u.answer scope plan))) := by
  have hw' := hw.wired hu
  have hlt : k.index < w.lambdas.size := hw.recached.size ▸ hk
  have hfollows := (hw'.lambda hlt).follows
  have hinputs := hu.inputs_eq hk
  unfold LambdaId.compute LambdaId.record
  rw [Eval.bind_apply, Eval.gets_apply, Outcome.bind_value]
  generalize plan k.index = node at hfollows hinputs
  cases hfollows with
  | @lookup name hbody hin =>
    rw [hbody]
    dsimp only
    rw [World.get_apply]
    have hfound := hw'.readable.answers_found name
    have hmeans : u.means scope = w.means scope :=
      (World.means_congr hw.recached.scopes hw.recached.vars).symm
    rw [hmeans, ← hfound.same]
    cases hf : w.found scope name with
    | error e => exact ⟨hw, .failed e⟩
    | ok value => exact ⟨hw, .plain (hfound.plain hf)⟩
  | @script e f hbody he hf =>
    rw [hbody]
    dsimp only
    obtain ⟨budget, rfl⟩ : ∃ b, budget = b + 1 := ⟨budget - 1, by omega⟩
    have serves : (Context.machine serve budget thread).Serves (lambdasOf (w.lambdaAt k).inputs)
        (u.answer scope plan) (u.Warmed scope plan k.index) := by
      refine ⟨fun hw h => hw.beside h, fun {id} hid {thread'} hthread w hw => ?_⟩
      have hid' : id ∈ lambdasOf (u.lambdaAt k).inputs := by rw [← hinputs]; exact hid
      have holder : id.index < k.index :=
        (hu.lambda hk).older (by rw [hu.inputs_eq hk]; exact hid')
      have hshallow := hlevels id hid'
      obtain ⟨levels, rfl⟩ : ∃ l, levels = l + 1 := by
        cases levels with
        | zero => exact hshallow.elim
        | succ l => exact ⟨l, rfl⟩
      obtain ⟨budget, rfl⟩ : ∃ b, budget = b + 1 := ⟨budget - 1, by omega⟩
      rw [Context.thread_machine] at hthread
      exact hserve hu (Nat.lt_trans holder hk) hshallow holder (by omega) (by omega) hw
    have hneed : need ≤ (Context.machine serve budget thread).budget := by
      rw [Context.budget_machine]
      omega
    rw [Eval.evaluate_apply, Context.thread_machine]
    refine he hneed serves (fun v hv name value hvalue => ?_) hw
    rw [hv.recached.registers, ← hw.recached.registers]
    exact hvalue

/-- The result of a lambda is known, and so is the state that it leaves. -/
theorem settled_yields (hserve : Serving serve levels) (hu : u.Wired scope plan need calm)
    (hk : k.index < u.lambdas.size) (hlevels : u.Shallow (levels + 1) k)
    (hdepth : thread.depth + levels ≤ u.config.maxDepth) (hbudget : 2 * (levels + 1) + need ≤ budget)
    (hw : u.Warmed scope plan k.index w) {value : Value} {answer : Except Error Value}
    (h : Settles (plan k.index).inputs (u.answer scope plan) (.ok value) answer) :
    ((do
      match value.lambda? with
      | some inner => Eval.modify fun w => w.follow k inner
      | none => pure ()
      Eval.holding value.places value.forced) (.machine serve budget thread) w).Yields fun r v =>
        u.Warmed scope plan k.index v ∧ Answers r answer := by
  cases h with
  | plain hplain =>
    rw [hplain.lambda?_eq_none, Value.forced_of_lambda?_eq_none hplain.lambda?_eq_none]
    refine ⟨hw, rfl, ?_⟩
    rintro _ ⟨⟩
    exact hplain
  | @deferred _ id hid hmem =>
    have hw' := hw.wired hu
    have hlt : k.index < w.lambdas.size := hw.recached.size ▸ hk
    have holder := (hu.lambda hk).older hmem
    have hshallow := hlevels id (by rw [← hu.inputs_eq hk]; exact hmem)
    -- the lambda is registered already, so it follows nothing new
    have hfollow : w.follow k id = w := by
      have hedge := (hw'.lambda hlt).edge hmem
      unfold World.follow World.addDependent
      rw [(hw'.lambda hlt).followed]
      simp [hedge]
    obtain ⟨levels, rfl⟩ : ∃ l, levels = l + 1 := by
      cases levels with
      | zero => exact hshallow.elim
      | succ l => exact ⟨l, rfl⟩
    obtain ⟨budget, rfl⟩ : ∃ b, budget = b + 1 := ⟨budget - 1, by omega⟩
    rw [hid, Value.forced_of_lambda? hid]
    dsimp only
    rw [Eval.bind_apply, Eval.modify_apply, Outcome.bind_value, hfollow, Eval.holding_apply]
    refine Eval.yields_bind (P := fun r v => u.Warmed scope plan k.index v ∧
      Answers r (u.answer scope plan id)) ?_ ?_ ?_
    · exact hserve hu (Nat.lt_trans holder hk) hshallow holder (by exact hdepth) (by omega) hw
    · rintro result v ⟨hv, hsame, hplain⟩
      refine ⟨hv, ?_, ?_⟩
      · rw [← hsame]
        exact congrArg Except.ok (Value.unmark_overlaid value result)
      · rintro _ ⟨⟩
        exact (hplain rfl).overlaid
    · rintro e v ⟨hv, hsame, -⟩
      refine ⟨hv, ?_, nofun⟩
      rw [← hsame]
      rfl

theorem run_yields (hserve : Serving serve levels) (hu : u.Wired scope plan need calm)
    (hk : k.index < u.lambdas.size) (hlevels : u.Shallow (levels + 1) k)
    (hdepth : thread.depth + (levels + 1) ≤ u.config.maxDepth)
    (hbudget : 2 * (levels + 1) + need ≤ budget) (hw : u.Warmed scope plan k.index w) :
    (k.run scope (.machine serve budget thread) w).Yields fun r v =>
      u.Warmed scope plan k.index v ∧ Answers r ((plan k.index).compute (u.means scope)
        ((plan k.index).inputs.map (u.answer scope plan))) := by
  have hconfig := hw.recached.config
  unfold LambdaId.run
  rw [Eval.nested_of_lt _ (by rw [Context.thread_machine, hconfig]; omega), Context.machine_withThread,
    Context.thread_machine]
  have deeper : ({ thread with depth := thread.depth + 1 } : Thread).depth + levels ≤ u.config.maxDepth := by
    simp only
    omega
  refine Eval.yields_bind (compute_yields hserve hu hk hlevels deeper hbudget hw) ?_ ?_
  · rintro value v ⟨hv, hsettles⟩
    exact settled_yields hserve hu hk hlevels deeper hbudget hv hsettles
  · rintro e v ⟨hv, hsettles⟩
    generalize (plan k.index).compute _ _ = answer at hsettles ⊢
    cases hsettles with
    | failed => exact ⟨hv, rfl, nofun⟩

theorem evaluate_yields (hserve : Serving serve levels) (hu : u.Wired scope plan need calm)
    (hk : k.index < u.lambdas.size) (hlevels : u.Shallow (levels + 1) k)
    (hdepth : thread.depth + (levels + 1) ≤ u.config.maxDepth)
    (hbudget : 2 * (levels + 1) + need ≤ budget) (hw : u.Warmed scope plan k.index w) :
    (k.evaluate (.machine serve budget thread) w).Yields fun r v =>
      u.Warmed scope plan k.index v ∧ Answers r (u.answer scope plan k) := by
  have hlt : k.index < w.lambdas.size := hw.recached.size ▸ hk
  have hscope : (w.lambdaAt k).scope = scope := ((hw.wired hu).lambda hlt).scope
  have hsource : (u.lambdaAt k).source = (w.lambdaAt k).source := by rw [hw.recached.record k]
  rw [hu.answer_eq hk, hsource, ← hw.recached.config]
  have run := run_yields hserve hu hk hlevels hdepth hbudget hw
  refine (LambdaId.evaluate_yields_of_run (P := u.Warmed scope plan k.index)
    (by rw [hscope]; exact run) ?_ ?_).mono ?_
  · exact fun v hv => hv.recached.config.trans hw.recached.config.symm
  · exact fun v hv above habove => (hv.wired hu).readable.unhandled (hscope ▸ habove)
  · rintro r v ⟨⟨u', hu', hbeside⟩, h⟩
    exact ⟨hu'.beside hbeside, h⟩

/-- It may be that results of lambdas made later are known as well. -/
theorem evaluate_yields_within (hserve : Serving serve levels) (hu : u.Wired scope plan need calm)
    (hk : k.index < u.lambdas.size) (hlevels : u.Shallow (levels + 1) k)
    (hdepth : thread.depth + (levels + 1) ≤ u.config.maxDepth)
    (hbudget : 2 * (levels + 1) + need ≤ budget) {n : Nat} (hkn : k.index < n)
    (hw : u.Warmed scope plan n w) :
    (k.evaluate (.machine serve budget thread) w).Yields fun r v =>
      u.Warmed scope plan n v ∧ Answers r (u.answer scope plan k) := by
  have hle : k.index ≤ n := Nat.le_of_lt hkn
  have yields := evaluate_yields hserve (hw.wired hu) (hw.recached.size ▸ hk)
    (hw.recached.similar.shallow hlevels) (hw.recached.config ▸ hdepth) hbudget (hw.rebase hle)
  rw [hw.answer] at yields
  exact yields.mono fun r v h => ⟨hw.extend hle h.1, h.2⟩

end Evaluate

/-- A machine that keeps nothing gives the answers of lambdas. -/
theorem serves_evaluate (levels : Nat) : Serving LambdaId.evaluate levels := by
  induction levels with
  | zero =>
    intro scope plan need calm u w k n budget thread hu hk hlevels
    exact hlevels.elim
  | succ levels ih =>
    intro scope plan need calm u w k n budget thread hu hk hlevels hkn hdepth hbudget hw
    exact evaluate_yields_within ih hu hk hlevels hdepth hbudget hkn hw

section Force

variable {scope : ScopeId} {plan : Plan} {need : Nat} {calm : Prop} {u w v : World} {k : LambdaId}
  {n : Nat} {thread : ThreadId}

/-- A lambda begins to be computed. -/
def LambdaRecord.begun (thread : ThreadId) (record : LambdaRecord) : LambdaRecord :=
  { record with cache := .computing thread }

/-- A lambda that keeps nothing is computed, and what becomes of that is settled. -/
theorem LambdaId.force_of_empty {ctx : Context} (hfixable : (w.lambdaAt k).fixable = true)
    (hcache : (w.lambdaAt k).cache = .empty) :
    k.force ctx w = (do
      let outcome ← k.evaluate.attempt
      Eval.modify fun v => v.modifyLambda k
        (settle ctx.thread.id (w.lambdaAt k).generation outcome)
      Eval.ofExcept outcome : Eval Value) ctx (w.modifyLambda k (.begun ctx.thread.id)) := by
  unfold force record
  rw [Eval.bind_apply, Eval.gets_apply, Outcome.bind_value, hfixable, hcache]
  rfl

theorem World.Warmed.begin (hw : u.Warmed scope plan n w) (hkn : k.index < n) :
    (w.modifyLambda k (.begun thread)).Warmed scope plan k.index (w.modifyLambda k (.begun thread)) := by
  have hrecached : w.Recached (w.modifyLambda k (.begun thread)) := .modifyLambda w k fun _ => rfl
  refine ⟨.refl _, fun _ => rfl, fun {j} hj other => ?_, fun {j x} hc => ?_⟩
  · rw [World.lambdaAt_modifyLambda, if_neg]
    · exact hw.idle (Nat.lt_trans hj hkn) other
    · rintro ⟨rfl, -⟩
      exact absurd hj (Nat.lt_irrefl _)
  · rw [hrecached.similar.answer, hw.answer]
    rw [World.lambdaAt_modifyLambda] at hc
    split at hc
    · cases hc
    · exact hw.coherent hc

/-- What a lambda keeps of a result. -/
def Cache.ofResult : Except Error Value → Cache
  | .ok value => .holding value
  | .error _ => .empty

/-- When it has been computed, its result is kept. -/
theorem World.Warmed.settle (hk : k.index < u.lambdas.size) (hw : u.Warmed scope plan n w) (hkn : k.index < n)
    (hv : (w.modifyLambda k (.begun thread)).Warmed scope plan k.index v)
    {r : Except Error Value} (hr : Answers r (u.answer scope plan k)) :
    u.Warmed scope plan n
      (v.modifyLambda k (LambdaId.settle thread (w.lambdaAt k).generation r)) := by
  have hbegun : w.Recached (w.modifyLambda k (.begun thread)) := .modifyLambda w k fun _ => rfl
  have hkw : k.index < w.lambdas.size := hw.recached.size ▸ hk
  have hsize : v.lambdas.size = w.lambdas.size := hv.recached.size.trans hbegun.size
  -- the lambda itself is as it was when it began
  have hself : v.lambdaAt k = (w.lambdaAt k).begun thread := by
    rw [hv.beyond (Nat.le_refl _), World.lambdaAt_modifyLambda, if_pos ⟨rfl, hkw⟩]
  have hlater {j : LambdaId} (hne : k ≠ j) (hj : k.index ≤ j.index) : v.lambdaAt j = w.lambdaAt j := by
    rw [hv.beyond hj, World.lambdaAt_modifyLambda, if_neg fun h => hne h.1]
  have hsettled (j : LambdaId) :
      (v.modifyLambda k (LambdaId.settle thread (w.lambdaAt k).generation r)).lambdaAt j =
        if k = j then { w.lambdaAt k with cache := .ofResult r } else v.lambdaAt j := by
    rw [World.lambdaAt_modifyLambda]
    by_cases hkj : k = j
    · subst hkj
      rw [if_pos ⟨rfl, hsize ▸ hkw⟩, if_pos rfl, hself]
      cases r <;> simp [LambdaId.settle, LambdaRecord.begun, Cache.ofResult]
    · rw [if_neg fun h => hkj h.1, if_neg hkj]
  refine ⟨⟨?_, ?_, ?_, ?_, ?_, fun j => ?_⟩, fun {j} hj => ?_, fun {j} hj other => ?_,
    fun {j x} hc => ?_⟩
  · exact hv.recached.config.trans hw.recached.config
  · exact hv.recached.scopes.trans hw.recached.scopes
  · exact hv.recached.vars.trans hw.recached.vars
  · exact hv.recached.registers.trans hw.recached.registers
  · exact (Array.size_modify ..).trans (hsize.trans hw.recached.size)
  · rw [hsettled]
    split
    · rename_i hkj
      rw [← hkj, hw.recached.record k]
    · exact ((hw.recached.trans hbegun).trans hv.recached).record j
  · have hne : k ≠ j := fun h => absurd hkn (h ▸ Nat.not_lt.2 hj)
    rw [hsettled, if_neg hne, hlater hne (Nat.le_trans (Nat.le_of_lt hkn) hj), hw.beyond hj]
  · rw [hsettled]
    split
    · intro h
      cases r <;> cases h
    · rename_i hne
      rcases Nat.lt_or_ge j.index k.index with hlt | hge
      · exact hv.idle hlt other
      · rw [hlater hne hge]
        exact hw.idle hj other
  · rw [hsettled] at hc
    split at hc
    · rename_i hkj
      cases r with
      | error e => cases hc
      | ok value =>
        cases hc
        rw [← hkj]
        exact hr
    · rw [← hw.answer, ← hbegun.similar.answer]
      exact hv.coherent hc

/-- The engine gives the answers of lambdas. -/
theorem serves_force (levels : Nat) : Serving LambdaId.force levels := by
  induction levels with
  | zero =>
    intro scope plan need calm u w k n budget thread hu hk hlevels
    exact hlevels.elim
  | succ levels ih =>
    intro scope plan need calm u w k n budget thread hu hk hlevels hkn hdepth hbudget hw
    unfold LambdaId.force LambdaId.record
    rw [Eval.bind_apply, Eval.gets_apply, Outcome.bind_value]
    split
    · exact evaluate_yields_within ih hu hk hlevels hdepth hbudget hkn hw
    · rw [Eval.bind_apply, Eval.thread_apply, Outcome.bind_value, Context.thread_machine]
      cases hc : (w.lambdaAt k).cache with
      | holding value => exact ⟨hw, hw.coherent hc⟩
      | computing owner => exact absurd hc (hw.idle hkn owner)
      | empty =>
        have hbegun : w.Recached (w.modifyLambda k (.begun thread.id)) :=
          .modifyLambda w k fun _ => rfl
        have hu' := hbegun.similar.wired (hw.wired hu)
        have hsize := hbegun.size.trans hw.recached.size
        have hconfig := hbegun.config.trans hw.recached.config
        have hdepth' : thread.depth + (levels + 1) ≤
            (w.modifyLambda k (.begun thread.id)).config.maxDepth := hconfig ▸ hdepth
        have yields := evaluate_yields ih hu' (hsize ▸ hk)
          (hbegun.similar.shallow (hw.recached.similar.shallow hlevels)) hdepth' hbudget (hw.begin hkn)
        rw [hbegun.similar.answer, hw.answer] at yields
        refine Eval.yields_attempt yields fun r v ⟨hv, hr⟩ => ?_
        rw [Eval.bind_apply, Eval.modify_apply, Outcome.bind_value]
        exact Eval.yields_ofExcept ⟨hw.settle hk hkn hv hr, hr⟩

end Force

end Reactor
