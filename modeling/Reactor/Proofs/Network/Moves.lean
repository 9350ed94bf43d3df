import Reactor.Proofs.Names.Written
import Reactor.Proofs.Network.Growth
import Reactor.Session.Run

/-!
# What a host does with a network

`Move` lists the calls by which a host builds a network, changes its variables and uses its lambdas. Each
of them leaves a network in order (`Move.leaves`), so every state that a host reaches is in order
(`Reaches.inOrder`): lambdas keep what they would give if they were computed anew.
-/

namespace Reactor

/-- A call of the host. New lambdas are held in registers. -/
inductive Move where
  | declare (name : String) (value : Value) (declaration : Declaration)
  | set (name : String) (value : Value)
  | force (k : LambdaId)
  | fix (k : LambdaId) (depth : Nat)
  | notify (k : LambdaId)
  | listen (k : LambdaId) (callback : Callback)
  | unlisten (k : LambdaId) (key : ListenerKey)
  | reference (name register : String)
  | wrap (operation : String) (inputs : List Value) (body : Expr) (source : Option Segment)
    (fixable : Bool) (register : String)

namespace Move

/-- What a call does. -/
def act (scope : ScopeId) : Move → Eval Unit
  | .declare name value declaration => do let _ ← scope.declare name value declaration
  | .set name value => do let _ ← scope.set name value
  | .force k => do let _ ← k.force
  | .fix k depth => do let _ ← (Value.lambda k).fixDepth depth false
  | .notify k => k.notify
  | .listen k callback => do let _ ← k.listen callback
  | .unlisten k key => do let _ ← k.unlisten key
  | .reference name register => do
    let k ← LambdaId.ofVariable scope name
    keepValue (some register) (.lambda k)
  | .wrap operation inputs body source fixable register => do
    let k ← LambdaId.ofScript scope operation inputs body source fixable
    keepValue (some register) (.lambda k)

/-- A call that a network permits: variables come to hold plain values under conditions that are not
deferred, no scope above declares a name that is declared, callbacks only observe, registrations of
lambdas with one another stay, and a new lambda computes something of the forced values of its inputs,
with fewer levels than the runtime permits. -/
def Fits (scope : ScopeId) (need : Nat) (calm : Prop) (w : World) : Move → Prop
  | .declare name value declaration =>
    value.Plain ∧ (∀ c, declaration.constraint = some c → c.predicate.Plain) ∧
      w.home scope name = scope
  | .set _ value => value.Plain
  | .force k => k.index < w.lambdas.size
  | .fix k _ => k.index < w.lambdas.size
  | .notify k => k.index < w.lambdas.size
  | .listen _ callback =>
    callback.body.Observes callback.scope w.desk.registers need (Permitted calm)
  | .unlisten _ key => ∀ id, key ≠ .dependent id
  | .reference _ register =>
    1 < w.config.maxDepth ∧ Entries.get? w.desk.registers register = none
  | .wrap _ inputs body _ _ register =>
    1 < w.config.maxDepth ∧ Entries.get? w.desk.registers register = none ∧
      (∀ k ∈ lambdasOf inputs, k.index < w.lambdas.size ∧ w.Shallow (w.config.maxDepth - 2) k) ∧
      ∃ f, body.Computes scope w.desk.registers (lambdasOf inputs) need f ∧
        ∀ ds e, f ds = .error e → Permitted calm e

end Move

namespace World

variable {scope : ScopeId} {plan : Plan} {need : Nat} {calm : Prop} {v w : World} {k : LambdaId}
  {name register : String} {budget : Nat} {thread : Thread} {ctx : Context}

/-- When results have been kept the network is still in order. -/
theorem InOrder.warmed_inOrder (hw : w.InOrder scope plan need calm)
    (h : w.Warmed scope plan w.lambdas.size v) : v.InOrder scope plan need calm := by
  refine ⟨h.wired hw.wired, ⟨fun k id => ?_, fun k => ?_⟩, fun hc => ?_⟩
  · rcases Nat.lt_or_ge k.index w.lambdas.size with hlt | hge
    · exact h.idle hlt id
    · rw [h.beyond hge]
      exact hw.idle.computed k id
  · rw [h.recached.record]
    exact hw.idle.notified k
  · rw [h.answer]
    exact h.coherent hc

section Use

variable (hw : w.InOrder scope plan need calm) (hthread : thread.depth = 0)
  (hbudget : 2 * w.config.maxDepth + need ≤ budget)
include hw hthread hbudget

/-- A lambda that the host forces gives its answer. -/
theorem InOrder.force_yields (hk : k.index < w.lambdas.size) :
    (k.force (.ofBudget budget thread) w).Yields fun r v =>
      (v.config = w.config ∧ v.InOrder scope plan need calm) ∧ Answers r (w.answer scope plan k) := by
  rw [Context.ofBudget_eq_machine]
  refine (serves_force _ hw.wired hk (hw.wired.lambda hk).shallow hk (by omega) (by omega)
    hw.warmed).mono fun r v h => ?_
  exact ⟨⟨h.1.recached.config, hw.warmed_inOrder h.1⟩, h.2⟩

/-- So does one that a machine without memory computes. -/
theorem InOrder.evaluate_yields (hk : k.index < w.lambdas.size) :
    (k.evaluate (.uncached budget thread) w).Yields fun r _ => Answers r (w.answer scope plan k) :=
  (serves_evaluate _ hw.wired hk (hw.wired.lambda hk).shallow hk (by omega) (by omega)
    hw.warmed).mono fun _ _ h => h.2

theorem InOrder.fixDepth_leaves (hk : k.index < w.lambdas.size) (depth : Nat) :
    ((Value.lambda k).fixDepth depth false (.ofBudget budget thread) w).Leaves fun _ v =>
      v.config = w.config ∧ v.InOrder scope plan need calm := by
  have hlevels := hw.wired.one_lt hk
  obtain ⟨budget, rfl⟩ : ∃ b, budget = b + 1 := ⟨budget - 1, by omega⟩
  unfold Value.fixDepth
  rw [Context.ofBudget_eq_machine, Eval.bind_apply, Eval.budget_apply, Outcome.bind_value,
    Context.budget_machine]
  cases depth with
  | zero => exact .value ⟨rfl, hw⟩
  | succ depth =>
    have hlambda : (Value.lambda k).lambda? = some k := rfl
    unfold Value.fixAt
    rw [hlambda]
    dsimp only
    rw [Eval.bind_apply, Eval.gets_apply, Outcome.bind_value]
    split
    · exact .value ⟨rfl, hw⟩
    · unfold Value.onForced
      rw [hlambda]
      dsimp only
      refine Eval.leaves_bind (P := fun r v =>
        (v.config = w.config ∧ v.InOrder scope plan need calm) ∧ ∀ a, r = .ok a → Value.Plain a)
        (Outcome.Yields.leaves (Eval.yields_bind (P := fun r v =>
          (v.config = w.config ∧ v.InOrder scope plan need calm) ∧
            Answers r (w.answer scope plan k)) ?_ ?_ ?_)) ?_ fun e v h => h.1
      · refine Outcome.Yields.mono (Reactor.force_yields hw.wired (by omega) (by omega) hk hw.warmed) ?_
        exact fun r v h => ⟨⟨h.1.recached.config, hw.warmed_inOrder h.1⟩, h.2⟩
      · rintro result v ⟨h, -, hplain⟩
        refine ⟨h, fun a ha => ?_⟩
        cases ha
        exact hplain rfl
      · exact fun e v h => ⟨h.1, fun a ha => by cases ha⟩
      · rintro result v ⟨⟨hconfig, hv⟩, hplain⟩
        have plain := hplain result rfl
        -- a plain result is fixed as it would be by itself
        have steady := (Value.steady_fixAt (budget + 1) (depth + 1) plain).holding result.places
        unfold Value.fixAt at steady
        rw [plain.lambda?_eq_none] at steady
        dsimp only at steady
        rw [pure_bind, if_neg (by decide), Value.onForced_of_lambda?_eq_none plain.lambda?_eq_none]
          at steady
        refine (Eval.Steady.leaves steady).mono fun r x h => ?_
        exact ⟨h.1.config.trans hconfig, hv.beside h.1⟩

end Use

/-! ## Registrations -/

theorem InOrder.listen_leaves (hw : w.InOrder scope plan need calm) {c : Callback}
    (hc : c.body.Observes c.scope w.desk.registers need (Permitted calm)) (k : LambdaId) :
    (k.listen c ctx w).Leaves fun _ v => v.config = w.config ∧ v.InOrder scope plan need calm := by
  unfold LambdaId.listen LambdaId.record LambdaId.listenAs
  rw [Eval.bind_apply, Eval.gets_apply, Outcome.bind_value, Eval.bind_apply, Eval.modify_apply,
    Outcome.bind_value, Eval.bind_apply, Eval.modify_apply, Outcome.bind_value]
  refine .value ⟨rfl, ?_⟩
  have counted : (w.modifyLambda k fun record =>
      { record with nextListener := record.nextListener + 1 }).InOrder scope plan need calm :=
    hw.modifyListeners k (fun _ => rfl) (fun _ _ h => h) fun _ _ _ h => .inl h
  refine counted.modifyListeners k (fun r => ?_) (fun r id h => ?_) fun r key listener h => ?_
  · split <;> rfl
  · split
    · exact h
    · rw [Entries.contains_insert, h, Bool.or_true]
  · split at h
    · exact .inl h
    · rcases Entries.mem_insert h with h | h
      · exact .inl h
      · cases h
        exact .inr ⟨c, rfl, nofun, hc⟩

theorem InOrder.unlisten_leaves (hw : w.InOrder scope plan need calm) {key : ListenerKey}
    (hkey : ∀ id, key ≠ .dependent id) (k : LambdaId) :
    (k.unlisten key ctx w).Leaves fun _ v =>
      v.config = w.config ∧ v.InOrder scope plan need calm := by
  refine .value ⟨rfl, ?_⟩
  refine hw.modifyListeners k (fun _ => rfl) (fun r id h => ?_) fun r key' listener h =>
    .inl (Entries.mem_of_mem_erase h)
  show (Entries.get? (Entries.erase r.listeners key) (.dependent id)).isSome = true
  rw [Entries.get?_erase, if_neg (hkey id)]
  exact h

/-! ## New lambdas -/

/-- The scope at which the followers of a variable are registered has a record. -/
theorem home_lt (halive : (w.scopeAt scope).destroyed = false) (name : String) :
    (w.home scope name).index < w.scopes.size := by
  unfold home
  cases hfound : w.findVariable? scope name with
  | none => exact lt_of_alive halive
  | some found =>
    obtain ⟨owner, id⟩ := found
    obtain ⟨above, -, hget⟩ := List.exists_of_findSome?_eq_some hfound
    obtain ⟨found, hget, heq⟩ := Option.map_eq_some_iff.1 hget
    cases heq
    apply Nat.lt_of_not_le
    intro hle
    have none : w.scopeAt owner = default := getD_of_le _ _ hle
    rw [none] at hget
    cases hget

/-- The host holds a value in a register. -/
def kept (w : World) (register : String) (value : Value) : World :=
  w.modifyDesk fun desk => { desk with registers := Entries.insert desk.registers register value }

theorem keepValue_apply (value : Value) :
    keepValue (some register) value ctx w = .value () (w.kept register value) := rfl

theorem listen_apply (halive : (w.scopeAt scope).destroyed = false) :
    scope.listen name (.lambda k) ctx w =
      .value () (w.modifyScope (w.home scope name) fun record => record.followedBy name k) := by
  unfold ScopeId.listen
  rw [Eval.bind_apply, checkAlive_apply halive, Outcome.bind_value]
  rfl

/-- A new lambda that reads a variable. -/
def lookupRecord (w : World) (scope : ScopeId) (name : String) : LambdaRecord :=
  ⟨"variable", (w.scopeAt scope).source, scope, [], .lookup name, true, .empty, 0, [], 1, none, []⟩

theorem ofBody_lookup_apply : LambdaId.ofBody scope "variable" (.lookup name) ctx w =
    .value ⟨w.lambdas.size⟩ { w with lambdas := w.lambdas.push (w.lookupRecord scope name) } := rfl

/-- A new lambda that reads a variable follows it. -/
theorem ofVariable_apply (halive : (w.scopeAt scope).destroyed = false) :
    LambdaId.ofVariable scope name ctx w = .value ⟨w.lambdas.size⟩
      (({ w with lambdas := w.lambdas.push (w.lookupRecord scope name) } : World).modifyScope
        (w.home scope name) fun record => record.followedBy name ⟨w.lambdas.size⟩) := by
  have home : ({ w with lambdas := w.lambdas.push (w.lookupRecord scope name) } : World).home scope name =
      w.home scope name := by
    have scopes : ({ w with lambdas := w.lambdas.push (w.lookupRecord scope name) } : World).scopes =
      w.scopes := rfl
    exact home_congr scopes scope name
  unfold LambdaId.ofVariable
  rw [Eval.bind_apply, ofBody_lookup_apply, Outcome.bind_value, Eval.bind_apply,
    listen_apply (by exact halive), home, Outcome.bind_value]
  rfl

/-- The state with a new lambda that follows a variable, held in a register. -/
def referenced (w : World) (scope : ScopeId) (name : String) (record : LambdaRecord)
    (register : String) : World :=
  (({ w with lambdas := w.lambdas.push record } : World).modifyScope (w.home scope name)
    fun scopeRecord => scopeRecord.followedBy name ⟨w.lambdas.size⟩).kept register
      (.lambda ⟨w.lambdas.size⟩)

section Referenced

variable {record : LambdaRecord} (halive : (w.scopeAt scope).destroyed = false)
include halive

theorem scopeAt_referenced (id : ScopeId) : (w.referenced scope name record register).scopeAt id =
    if w.home scope name = id then (w.scopeAt id).followedBy name ⟨w.lambdas.size⟩
    else w.scopeAt id := by
  refine (scopeAt_modifyScope { w with lambdas := w.lambdas.push record } _ id _).trans ?_
  by_cases h : w.home scope name = id
  · rw [if_pos ⟨h, h ▸ home_lt halive name⟩, if_pos h]
    rfl
  · rw [if_neg fun h' => h h'.1, if_neg h]
    rfl

theorem followers_referenced (hnew : ⟨w.lambdas.size⟩ ∉ w.followers scope name) (other : String) :
    (w.referenced scope name record register).followers scope other =
      w.followers scope other ++ if name = other then [⟨w.lambdas.size⟩] else [] := by
  have rescoped (id : ScopeId) : (w.referenced scope name record register).scopeAt id =
      { w.scopeAt id with
        listeners := ((w.referenced scope name record register).scopeAt id).listeners } := by
    rw [scopeAt_referenced halive]
    split
    · exact ScopeRecord.followedBy_eq ..
    · rfl
  rw [followers, home_of_scopeAt rescoped, scopeAt_referenced halive, followers]
  by_cases hother : name = other
  · subst hother
    rw [if_pos rfl, if_pos rfl, ScopeRecord.get?_followedBy]
    exact if_neg hnew
  · rw [if_neg hother, List.append_nil]
    split
    · rw [ScopeRecord.get?_followedBy_of_ne _ _ fun h => hother h.symm]
    · rfl

theorem joined_referenced (hnew : ⟨w.lambdas.size⟩ ∉ w.followers scope name)
    (hinputs : record.inputs = []) (hbody : record.body = .lookup name) :
    w.Joined scope record register (w.referenced scope name record register) := by
  refine ⟨rfl, rfl, fun id => ?_, fun {id} h => ?_, rfl, ⟨{ w with lambdas := w.lambdas.push record },
    ?_, rfl⟩, fun other k => ?_⟩
  · rw [scopeAt_referenced halive]
    split
    · exact ScopeRecord.followedBy_eq ..
    · rfl
  · rw [scopeAt_referenced halive]
    split
    · unfold ScopeRecord.followedBy
      dsimp only
      split
      · exact h
      · rw [Entries.keys_insert]
        split
        · exact h
        · rename_i hname
          exact List.nodup_append.2 ⟨h, List.nodup_singleton _, fun a ha b hb hab =>
            hname (List.mem_singleton.1 hb ▸ hab ▸ ha)⟩
    · exact h
  · have none : lambdasOf record.inputs = [] := by
      rw [hinputs]
      rfl
    rw [none]
    exact enlisted_foldl (List.forall_mem_nil _)
  · rw [followers_referenced halive hnew, List.mem_append, hbody]
    by_cases hother : name = other
    · subst hother
      rw [if_pos rfl, List.mem_singleton]
      refine or_congr_right ⟨fun h => ⟨congrArg LambdaId.index h, rfl⟩, fun h => ?_⟩
      exact congrArg LambdaId.mk h.1
    · rw [if_neg hother]
      exact or_congr_right ⟨fun h => (List.not_mem_nil h).elim,
        fun h => (hother (Body.lookup.inj h.2)).elim⟩

end Referenced

/-- A new lambda that reads a variable follows it. -/
theorem InOrder.reference_leaves (hw : w.InOrder scope plan need calm) (hlevels : 1 < w.config.maxDepth)
    (hregister : Entries.get? w.desk.registers register = none) (name : String) :
    ((do
      let k ← LambdaId.ofVariable scope name
      keepValue (some register) (.lambda k) : Eval Unit) ctx w).Leaves fun _ v =>
        v.config = w.config ∧ ∃ later, v.InOrder scope later need calm := by
  have halive := hw.wired.readable.alive
  have hnew : ⟨w.lambdas.size⟩ ∉ w.followers scope name :=
    fun h => Nat.lt_irrefl _ (hw.wired.reader h).1
  have run : ((do
      let k ← LambdaId.ofVariable scope name
      keepValue (some register) (.lambda k) : Eval Unit) ctx w) =
        .value () (w.referenced scope name (w.lookupRecord scope name) register) := by
    rw [Eval.bind_apply, ofVariable_apply halive, Outcome.bind_value]
    rfl
  generalize hrecord : w.lookupRecord scope name = record at run
  have self : record.inputs = [] ∧ record.body = .lookup name ∧ record.New scope := by
    rw [← hrecord]
    exact ⟨rfl, rfl, rfl, rfl, rfl, rfl, rfl⟩
  obtain ⟨hinputs, hbody, fresh⟩ := self
  have none : lambdasOf record.inputs = [] := by
    rw [hinputs]
    rfl
  have joined : w.Joined scope record register (w.referenced scope name record register) :=
    joined_referenced halive hnew hinputs hbody
  rw [run]
  refine .value ⟨rfl, _, hw.joined joined fresh (.lookup hbody hinputs) ?_ hlevels ?_ hregister⟩
  · rw [none]
    exact List.forall_mem_nil _
  · rw [none]
    exact List.forall_mem_nil _

/-- A new lambda of others has its inputs before it. -/
theorem InOrder.new_leaves (hw : w.InOrder scope plan need calm) {record : LambdaRecord} {node : Node}
    (hnew : record.New scope) (hfollows : record.Follows scope need calm w.desk.registers node)
    (hbody : ∀ name, record.body ≠ .lookup name) (hlevels : 1 < w.config.maxDepth)
    (hinputs : ∀ k ∈ lambdasOf record.inputs, k.index < w.lambdas.size ∧
      w.Shallow (w.config.maxDepth - 2) k)
    (hregister : Entries.get? w.desk.registers register = none) :
    ((do
      let k ← LambdaId.new record
      keepValue (some register) (.lambda k) : Eval Unit) ctx w).Leaves fun _ v =>
        v.config = w.config ∧ ∃ later, v.InOrder scope later need calm := by
  have older (k : LambdaId) (hk : k ∈ lambdasOf record.inputs) := (hinputs k hk).1
  have enlisted : Enlisted ⟨w.lambdas.size⟩ (lambdasOf record.inputs)
      { w with lambdas := w.lambdas.push record } _ := enlisted_foldl fun k hk => ⟨older k hk, by
    rw [Array.size_push]
    exact Nat.lt_succ_of_lt (older k hk)⟩
  rw [Eval.bind_apply, new_apply, Outcome.bind_value, keepValue_apply]
  generalize (lambdasOf record.inputs).foldl _ _ = u at enlisted ⊢
  have rest := enlisted.rest
  have scopes : (u.kept register (.lambda ⟨w.lambdas.size⟩)).scopes = w.scopes := by
    rw [rest]
    rfl
  have joined : w.Joined scope record register (u.kept register (.lambda ⟨w.lambdas.size⟩)) := by
    refine ⟨?_, ?_, fun id => ?_, fun {id} h => ?_, ?_, ⟨u, enlisted, rfl⟩, fun name k => ?_⟩
    · rw [rest]
      rfl
    · rw [rest]
      rfl
    · rw [scopeAt_congr scopes]
    · rw [scopeAt_congr scopes]
      exact h
    · rw [rest]
      rfl
    · rw [followers_congr scopes]
      exact ⟨.inl, fun h => h.resolve_right fun h => hbody name h.2⟩
  exact .value ⟨joined.config, _, hw.joined joined hnew hfollows older hlevels
    (fun k hk => (hinputs k hk).2) hregister⟩

/-! ## Runs -/

/-- A call leaves a network in order. -/
theorem InOrder.act_leaves (hw : w.InOrder scope plan need calm) (hthread : thread.depth = 0)
    (hbudget : 2 * w.config.maxDepth + need ≤ budget) {move : Move}
    (hfits : move.Fits scope need calm w) :
    (move.act scope (.ofBudget budget thread) w).Leaves fun _ v =>
      v.config = w.config ∧ ∃ later, v.InOrder scope later need calm := by
  have ended {α : Type} {act : Eval α} (h : (act (.ofBudget budget thread) w).Leaves fun _ v =>
      v.config = w.config ∧ v.InOrder scope plan need calm) :
      ((do let _ ← act : Eval Unit) (.ofBudget budget thread) w).Leaves fun _ v =>
        v.config = w.config ∧ ∃ later, v.InOrder scope later need calm :=
    Eval.leaves_bind h (fun _ v h => .value ⟨h.1, plan, h.2⟩) fun _ v h => ⟨h.1, plan, h.2⟩
  cases move with
  | declare name value declaration =>
    obtain ⟨hvalue, hcondition, hhome⟩ := hfits
    exact ended (ScopeId.declare_inOrder hw hvalue hthread hbudget hcondition hhome)
  | set name value => exact ended (ScopeId.set_inOrder hw hfits hthread hbudget)
  | force k => exact ended ((hw.force_yields hthread hbudget hfits).mono fun _ _ h => h.1).leaves
  | fix k depth => exact ended (hw.fixDepth_leaves hthread hbudget hfits depth)
  | notify k =>
    have told := propagate_yields hw.wired hw.idle (List.forall_mem_singleton.2 hfits) hthread hbudget
      fun hc _ => hw.coherent hc
    exact told.leaves.mono fun _ v h => ⟨h.1.config, plan, h.2⟩
  | listen k callback => exact ended (hw.listen_leaves hfits k)
  | unlisten k key => exact ended (hw.unlisten_leaves hfits k)
  | reference name register => exact hw.reference_leaves hfits.1 hfits.2 name
  | wrap operation inputs body source fixable register =>
    obtain ⟨hlevels, hregister, hinputs, f, hbody, hf⟩ := hfits
    exact hw.new_leaves ⟨rfl, rfl, rfl, rfl, rfl⟩ (.script rfl hbody hf) nofun hlevels hinputs hregister

end World

/-- A host gets from one state to another by calls that the network permits, one after another. -/
inductive Move.Reaches (scope : ScopeId) (need : Nat) (calm : Prop) (ctx : Context) (w : World) :
    World → Prop
  | start : Reaches scope need calm ctx w w
  | step {v u : World} {move : Move} {r : Except Error Unit} (h : Reaches scope need calm ctx w v)
    (hfits : move.Fits scope need calm v) (run : move.act scope ctx v = .done r u) :
    Reaches scope need calm ctx w u

namespace World

/-- A state without lambdas, in which nobody follows a variable. -/
structure Unused (scope : ScopeId) (calm : Prop) (w : World) : Prop where
  readable : w.Readable scope
  failFast (h : calm) : w.config.failFast = false
  lambdas : w.lambdas = #[]
  listeners (id : ScopeId) : (w.scopeAt id).listeners = []

variable {scope : ScopeId} {plan : Plan} {need : Nat} {calm : Prop} {v w : World} {k : LambdaId}
  {budget : Nat} {thread : Thread}

theorem Unused.inOrder (h : w.Unused scope calm) (plan : Plan) : w.InOrder scope plan need calm := by
  have none (k : LambdaId) : w.lambdaAt k = default :=
    lambdaAt_of_size_le (by rw [h.lambdas]; exact Nat.zero_le _)
  have few (k : LambdaId) : ¬k.index < w.lambdas.size := by
    rw [h.lambdas]
    exact Nat.not_lt_zero _
  have alone (name : String) : w.followers scope name = [] := by
    rw [followers, h.listeners]
    rfl
  refine ⟨⟨h.readable, h.failFast, fun id => ?_, fun hk => absurd hk (few _), fun hk => absurd hk (few _),
    fun {name k} hk => ?_⟩, ⟨fun k id hc => ?_, fun k => ?_⟩, fun {k v} hc => ?_⟩
  · rw [h.listeners]
    exact List.nodup_nil
  · rw [alone] at hk
    cases hk
  · rw [none] at hc
    cases hc
  · rw [none]
    rfl
  · rw [none] at hc
    cases hc

theorem Unused.reaches_inOrder (h : w.Unused scope calm) (hthread : thread.depth = 0)
    (hbudget : 2 * w.config.maxDepth + need ≤ budget)
    (hv : Move.Reaches scope need calm (.ofBudget budget thread) w v) :
    v.config = w.config ∧ ∃ plan, v.InOrder scope plan need calm := by
  induction hv with
  | start => exact ⟨rfl, fun _ => ⟨default, [], fun _ _ => .error default⟩, h.inOrder _⟩
  | step _ hfits run ih =>
    obtain ⟨hconfig, plan, hv⟩ := ih
    obtain ⟨hconfig', later⟩ := Outcome.Leaves.of_done
      (run ▸ hv.act_leaves hthread (hconfig ▸ hbudget) hfits)
    exact ⟨hconfig'.trans hconfig, later⟩

/-- A runtime with one scope, in which nothing has been declared. -/
def bare : World :=
  { scopes := #[{ name := "root", parent := none, source := default, pure := false }] }

theorem unused_bare (calm : Prop) : bare.Unused ⟨0⟩ calm := by
  have undeclared (name : String) : bare.findVariable? ⟨0⟩ name = none := rfl
  have unbound (key : String) : bare.findParameter? ⟨0⟩ key = none := by
    unfold findParameter?
    have scopes : bare.parameterScopes ⟨0⟩ = [] := rfl
    rw [scopes]
    split <;> rfl
  have records (id : ScopeId) : (bare.scopeAt id).listeners = [] ∧ (bare.scopeAt id).handlers = [] := by
    obtain ⟨_ | i⟩ := id
    · exact ⟨rfl, rfl⟩
    · rw [scopeAt, getD_of_le _ _ (Nat.succ_le_succ (Nat.zero_le i))]
      exact ⟨rfl, rfl⟩
  refine ⟨⟨rfl, fun _ => (records _).2, fun h => ?_, fun h => ?_, fun h => ?_, fun h => ?_, fun h => ?_⟩,
    fun _ => rfl, rfl, fun id => (records id).1⟩
  · rw [undeclared] at h
    cases h
  · rw [undeclared] at h
    cases h
  · rw [undeclared] at h
    cases h
  · rw [undeclared] at h
    cases h
  · rw [unbound] at h
    cases h

/-- Some calls after which a lambda keeps the value of a variable. -/
theorem reaches_bare : ∃ v x, Move.Reaches ⟨0⟩ 0 False (.ofThread Session.mainThread) bare v ∧
    0 < v.lambdas.size ∧ (v.lambdaAt ⟨0⟩).cache = .holding x ∧ x.unmark = .integer 1 := by
  have declared : (Move.declare "x" (.integer 1) {}).Fits ⟨0⟩ 0 False bare :=
    ⟨rfl, nofun, rfl⟩
  refine ⟨_, _, .step (r := .ok ()) (.step (r := .ok ()) (.step (r := .ok ()) .start declared rfl)
    (show (Move.reference "x" "l").Fits ⟨0⟩ 0 False _ from ⟨by decide, rfl⟩) rfl)
    (show (Move.force ⟨0⟩).Fits ⟨0⟩ 0 False _ from ?_) rfl, ?_, rfl, rfl⟩
  · show 0 < 1
    decide
  · show 0 < 1
    decide

end World

end Reactor
