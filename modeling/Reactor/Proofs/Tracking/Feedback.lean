import Mathlib
import Reactor.Proofs.Ordering.Compare
import Reactor.Proofs.Tracking.Circuits

/-!
# Assignments from inside notifications

Callbacks of a circuit assign variables while a thread notifies lambdas, and their assignments run callbacks in
turn, with less budget (`assigning`). While the readers of a variable are told (`World.Telling`), all lambdas that
the thread is notifying read variables that feed this one. The passes that are open therefore reach other lambdas
each, and unless the thread was deep in open computations before, they do not come to its limit (`World.Room`).

After an assignment that no notification contains, readers that were up to date give what their names mean, apart
from those that it has overtaken (`ScopeId.readers_after_set`). A reader of a variable that feeds itself can be
overtaken, and it keeps an older value then (`ScopeId.reader_overtaken_by_own_callback`).
-/

namespace Reactor

namespace World

variable {feeds : VariableId → VariableId → Prop} {deep : Prop} {thread : ThreadId} {u v w : World}
  {k : LambdaId} {id : VariableId}

theorem MarksAs.ofRecached (h : w.Recached v) : w.MarksAs (.notifying thread) v := by
  intro k
  rw [h.record k]
  exact Iff.rfl

/-- What a thread has done in a circuit when it has taken away the marks that it has set. -/
structure Restored (feeds : VariableId → VariableId → Prop) (deep : Prop) (thread : ThreadId) (w v : World) :
    Prop where
  carries : w.Carries feeds deep thread v
  marks : w.MarksAs (.notifying thread) v

namespace Restored

theorem refl (hw : w.Circuit feeds) : w.Restored feeds deep thread w :=
  ⟨.refl hw, .refl w⟩

theorem trans (h : u.Restored feeds deep thread v) (h' : v.Restored feeds deep thread w) :
    u.Restored feeds deep thread w :=
  ⟨h.carries.trans h'.carries, h.marks.trans h'.marks⟩

theorem beside (hw : w.Circuit feeds) (h : w.Beside v) : w.Restored feeds deep thread v :=
  ⟨hw.carries_beside h, .ofLambdas h.lambdas⟩

end Restored

/-! ## Room -/

/-- How many lambdas the thread is not notifying. -/
def unmarked (w : World) (thread : ThreadId) : Nat :=
  ((Finset.range w.lambdas.size).filter fun i => thread ∉ (w.lambdaAt ⟨i⟩).notifying).card

/-- The thread does not come to be too deep in open computations by passes that each reach a lambda which it is
not notifying yet. -/
def Room (w : World) (thread : Thread) : Prop :=
  thread.depth + w.unmarked thread.id < w.config.maxDepth

theorem unmarked_le (w : World) (thread : ThreadId) : w.unmarked thread ≤ w.lambdas.size :=
  (Finset.card_filter_le _ _).trans (Nat.le_of_eq (Finset.card_range _))

theorem unmarked_congr (hsize : v.lambdas.size = w.lambdas.size) (h : w.MarksAs (.notifying thread) v) :
    v.unmarked thread = w.unmarked thread := by
  unfold unmarked
  rw [hsize]
  exact congrArg Finset.card (Finset.filter_congr fun i _ => not_congr (h ⟨i⟩))

/-- A pass marks what it reaches. -/
theorem Swept.unmarked_lt {live : Holders} {affected : List LambdaId} (h : w.Swept live thread affected u)
    (hk : k ∈ affected) (hlt : k.index < w.lambdas.size) (idle : thread ∉ (w.lambdaAt k).notifying) :
    u.unmarked thread < w.unmarked thread := by
  refine Finset.card_lt_card (Finset.ssubset_iff_of_subset (fun i hi => ?_) |>.2 ⟨k.index, ?_, ?_⟩)
  · rw [Finset.mem_filter, h.size, h.mem_notifying_iff] at hi
    exact Finset.mem_filter.2 ⟨hi.1, fun noted => hi.2 (.inr noted)⟩
  · exact Finset.mem_filter.2 ⟨Finset.mem_range.2 hlt, idle⟩
  · intro hi
    exact (Finset.mem_filter.1 hi).2 (h.mem_notifying_iff.2 (.inl ⟨rfl, hk⟩))

/-- A thread is notifying the readers of a variable. -/
structure Telling (feeds : VariableId → VariableId → Prop) (deep : Prop) (thread : Thread) (id : VariableId)
    (w : World) : Prop where
  circuit : w.Circuit feeds
  fed {k : LambdaId} {j : VariableId} (noted : thread.id ∈ (w.lambdaAt k).notifying) (hj : w.Watches k j) :
    Relation.ReflTransGen feeds j id
  room : deep ∨ w.Room thread

end World

/-- An assignment by a thread with so much budget carries a circuit, and it gives a plain value if it goes
through. -/
def Assigning (feeds : VariableId → VariableId → Prop) (deep : Prop) (budget : Nat) : Prop :=
  ∀ ⦃thread : Thread⦄ ⦃w : World⦄ ⦃scope owner : ScopeId⦄ ⦃name : String⦄ ⦃id : VariableId⦄ ⦃value : Value⦄,
    w.Circuit feeds → w.findVariable? scope name = some (owner, id) → value.Plain → w.Fed feeds thread.id id →
      (deep ∨ w.Room thread) →
        (scope.set name value (.ofBudget budget thread) w).Leaves fun r v =>
          w.Restored feeds deep thread.id v ∧ ∀ x, r = .ok x → x.Plain

namespace World.Telling

variable {feeds : VariableId → VariableId → Prop} {deep : Prop} {u v w : World} {k : LambdaId} {id : VariableId}
  {budget : Nat} {thread : Thread} (hu : u.Telling feeds deep thread id)
include hu

/-- The force of a lambda. -/
theorem force_leaves (held : List Place) (hw : u.Restored feeds deep thread.id w) (hk : k.index < w.lambdas.size) :
    (Eval.force k (.ofBudget budget { thread with held }) w).Leaves fun r v =>
      u.Restored feeds deep thread.id v ∧ ∀ x, r = .ok x → x.Plain := by
  rw [Eval.force_apply, Context.thread_ofBudget]
  cases budget with
  | zero => exact .inl rfl
  | succ budget =>
    have thread_eq := Context.thread_ofBudget budget { thread with held }
    have deeper (h : w.config.maxDepth ≤ (Context.ofBudget budget { thread with held }).thread.depth) : deep := by
      rw [thread_eq, hw.carries.wiring.config] at h
      refine hu.room.resolve_right fun room => ?_
      exact Nat.not_lt_of_le h (Nat.lt_of_le_of_lt (Nat.le_add_right _ _) room)
    have forced := hw.carries.circuit.force_carries (congrArg Thread.id thread_eq) hk deeper
    exact forced.leaves.mono fun r v h => ⟨hw.trans ⟨h.1, .ofRecached h.2.1⟩, h.2.2⟩

/-- What a callback may do while a thread is notifying the readers of a variable. -/
theorem permits (hset : Assigning feeds deep budget) (scope : ScopeId) :
    (Context.ofBudget budget thread).Permits scope u.desk.registers
      (fun name => ∃ owner target, u.findVariable? scope name = some (owner, target) ∧ feeds id target)
      (u.Restored feeds deep thread.id) where
  known hw name value hvalue := by
    rw [hw.carries.wiring.registers]
    exact hvalue
  beside hw h := hw.trans (.beside hw.carries.circuit h)
  get name must held w hw := by
    rw [World.get_eq_look]
    refine (Outcome.yields_iff.2 ⟨_, _, rfl, hw, fun x hx => ?_⟩).ends
    exact hw.carries.circuit.plain_of_look hx
  set {name value} hname hvalue held w hw := by
    rw [Context.ofBudget_withThread, Context.thread_ofBudget]
    obtain ⟨owner, target, found, hfeeds⟩ := hname
    -- what feeds the variable of the pass feeds the one that is assigned now
    have wiring := hw.carries.wiring
    have fed : w.Fed feeds thread.id target := fun k j noted hj =>
      .tail' (hu.fed ((hw.marks k).1 noted) (wiring.watches_iff.1 hj)) hfeeds
    have room : deep ∨ w.Room { thread with held } := hu.room.imp_right fun room => by
      unfold World.Room at room ⊢
      rwa [World.unmarked_congr wiring.size hw.marks, wiring.config]
    have there : w.findVariable? scope name = some (owner, target) :=
      (World.findVariable?_congr wiring.scopes ..).trans found
    have left : (scope.set name value (.ofBudget budget { thread with held }) w).Leaves fun r v =>
        w.Restored feeds deep thread.id v ∧ ∀ x, r = .ok x → x.Plain :=
      hset hw.carries.circuit there hvalue fed room
    exact left.ends.mono fun r v h => ⟨hw.trans h.1, h.2⟩
  force {name value k} hvalue hk held w hw := by
    rw [Context.ofBudget_withThread, Context.thread_ofBudget]
    have known := hw.carries.circuit.known (hw.carries.wiring.registers ▸ hvalue) hk
    exact (hu.force_leaves held hw known).ends

/-- A callback of a reader of the variable. -/
theorem callback_leaves (hset : ∀ b < budget, Assigning feeds deep b) (hid : u.Watches k id) {c : Callback}
    (hc : c ∈ u.callbacks k) {value : Value} (hvalue : value.Plain) (held : List Place)
    (hw : u.Restored feeds deep thread.id w) :
    (Eval.evaluate c.body c.scope (some value) (.ofBudget budget { thread with held }) w).Leaves fun _ v =>
      u.Restored feeds deep thread.id v := by
  rw [Eval.evaluate_apply, Context.thread_ofBudget]
  cases budget with
  | zero => exact .inl rfl
  | succ budget =>
    -- its assignments have less budget than the pass
    have permits := hu.permits (hset budget (Nat.lt_succ_self budget)) c.scope
    have driven := hu.circuit.callback hc hid permits hvalue
    have run := @driven held w hw
    rw [Context.ofBudget_withThread, Context.thread_ofBudget] at run
    exact run.leaves.mono fun _ _ h => h.1

/-- The callbacks of readers of the variable. -/
theorem runAllCallbacks_leaves (hset : ∀ b < budget, Assigning feeds deep b) {ks : List LambdaId}
    (hks : ∀ k ∈ ks, k.index < u.lambdas.size ∧ u.Watches k id) (held : List Place)
    (hw : u.Restored feeds deep thread.id w) :
    (LambdaId.runAllCallbacks ks (.ofBudget budget { thread with held }) w).Leaves fun _ v =>
      u.Restored feeds deep thread.id v := by
  suffices ends : (LambdaId.runAllCallbacks ks (.ofBudget budget { thread with held }) w).Ends False fun _ v =>
      u.Restored feeds deep thread.id v from ends.leaves
  refine LambdaId.runAllCallbacks_ends Value.Plain (fun k hk held v hv => ?_)
    (fun k hk v hv c hc x hx held v' hv' => ?_) (fun k hk v hv e held v' hv' => ?_) hw
  all_goals rw [Context.ofBudget_withThread, Context.thread_ofBudget]
  · have known : k.index < v.lambdas.size := hv.carries.wiring.size ▸ (hks k hk).1
    exact (hu.force_leaves held hv known).ends
  · have there := hv.carries.wiring.subset_filterMap _ hc
    exact (hu.callback_leaves hset (hks k hk).2 there hx held hv').ends.mono fun _ _ h => ⟨h, trivial⟩
  · refine (ScopeId.handleError_yields (fun _ _ => hv'.carries.circuit.handlers _) e).ends.mono fun _ _ h => ?_
    exact ⟨hv'.trans (.beside hv'.carries.circuit h.1), trivial⟩

end World.Telling

/-! ## Assignments -/

namespace World.Circuit

variable {feeds : VariableId → VariableId → Prop} {deep : Prop} {v w : World} {scope owner : ScopeId} {name : String}
  {id : VariableId} {value x : Value} {budget : Nat} {thread : Thread} (hw : w.Circuit feeds)
  (hset : ∀ b < budget, Assigning feeds deep b) (hfed : w.Fed feeds thread.id id) (hroom : deep ∨ w.Room thread)
include hw hset hfed hroom

omit hset in
/-- When a pass has invalidated what it reaches, callbacks run. -/
theorem telling_swept (own : w.own? owner name = some id) (hx : x.Plain) {k : LambdaId}
    (hk : k ∈ ((w.storeValue id x).enter ((w.storeValue id x).liveness thread.held) thread.id
      (w.followersAt owner name)).1) :
    ((w.storeValue id x).swept thread.id thread.held (w.followersAt owner name)).Telling feeds deep
      { thread with depth := thread.depth + 1 } id := by
  have stored := hw.storeValue hx id
  have known (k : LambdaId) (hk : k ∈ w.followersAt owner name) := (hw.follower own k).1 hk
  have swept := stored.swept thread.id thread.held fun k hk => (known k hk).1
  have told : w.Carries feeds deep thread.id _ := hw.carries_told own hx thread.held hfed
  refine ⟨told.circuit, fun {j i} noted hj => ?_, hroom.imp_right fun room => ?_⟩
  · rw [told.wiring.watches_iff] at hj
    rcases swept.mem_notifying_iff.1 noted with ⟨-, reached⟩ | before
    · have watches := (known j ((mem_entered_iff stored.alone).1 reached).1).2
      rw [watches.unique hj]
    · exact (hfed before hj).to_reflTransGen
  · -- one more level is open, and at least one lambda more is marked
    obtain ⟨root, idle⟩ := (mem_entered_iff stored.alone).1 hk
    have fewer := swept.unmarked_lt hk (known k root).1 idle
    have same : (w.storeValue id x).unmarked thread.id = w.unmarked thread.id := rfl
    unfold Room at room ⊢
    rw [told.wiring.config]
    dsimp only
    omega

/-- The callbacks of the readers that a pass reaches. -/
theorem runAllCallbacks_leaves (own : w.own? owner name = some id) (hx : x.Plain) {reached : List LambdaId}
    (hreached : ((w.storeValue id x).enter ((w.storeValue id x).liveness thread.held) thread.id
      (w.followersAt owner name)).1 = reached) (held : List Place) :
    (LambdaId.runAllCallbacks reached (.ofBudget budget { thread with depth := thread.depth + 1, held })
      ((w.storeValue id x).swept thread.id thread.held (w.followersAt owner name))).Leaves fun _ v =>
        ((w.storeValue id x).swept thread.id thread.held (w.followersAt owner name)).Restored feeds deep
          thread.id v := by
  have told : w.Carries feeds deep thread.id _ := hw.carries_told own hx thread.held hfed
  cases reached with
  | nil => exact .value (.refl told.circuit)
  | cons k rest =>
    have telling := hw.telling_swept hfed hroom own hx (hreached ▸ List.mem_cons_self)
    refine telling.runAllCallbacks_leaves hset (fun j hj => ?_) held (.refl told.circuit)
    have root := ((mem_entered_iff (hw.storeValue hx id).alone).1 (hreached ▸ hj)).1
    rw [told.wiring.size, told.wiring.watches_iff]
    exact (hw.follower own j).1 root

/-- When a variable has been assigned its readers are told. -/
theorem propagate_leaves (own : w.own? owner name = some id) (hx : x.Plain) :
    (LambdaId.propagate (w.followersAt owner name) (.ofBudget budget thread) (w.storeValue id x)).Leaves fun _ v =>
      w.Restored feeds deep thread.id v := by
  have thread_eq := Context.thread_ofBudget budget thread
  have told : w.Carries feeds deep thread.id _ := hw.carries_told own hx thread.held hfed
  have called := hw.runAllCallbacks_leaves hset hfed hroom own hx rfl
  generalize hroots : w.followersAt owner name = roots at told called
  by_cases hne : roots = []
  · subst hne
    exact .value ⟨told, .ofLambdas rfl⟩
  -- a pass with roots is refused at the limit
  by_cases hdepth : thread.depth < w.config.maxDepth
  · have shallow : (Context.ofBudget budget thread).thread.depth < (w.storeValue id x).config.maxDepth := by
      rwa [thread_eq]
    have run := LambdaId.propagate_eq_serve hne shallow Prod.mk.eta.symm
    rw [thread_eq, Context.ofBudget_withThread] at run
    rw [run, serve_apply, Context.ofBudget_withThread, Context.thread_ofBudget]
    refine (called _).ends.attempt.leaves.bind (P := fun r v => ∃ r', r = .ok r' ∧ _) ?_ ?_
    · rintro outcome v ⟨_, _, restored⟩
      refine .inr (Eval.yields_ofExcept ⟨told.trans ?_, ?_⟩)
      · exact restored.carries.trans (restored.carries.circuit.carries_left _)
      · have swept : ((w.storeValue id x).enter ((w.storeValue id x).liveness thread.held) thread.id roots).2.MarksAs
            (.notifying thread.id) v := (MarksAs.foldl .invalidate _ _).trans restored.marks
        exact (MarksAs.ofLambdas rfl).trans swept.passed
    · rintro e v ⟨_, failed, _⟩
      cases failed
  · have deeper := Nat.le_of_not_lt hdepth
    have refused : LambdaId.propagate roots (.ofBudget budget thread) (w.storeValue id x) = .error _ _ :=
      LambdaId.propagate_of_le hne (by rwa [thread_eq])
    rw [refused]
    have hdeep : deep := hroom.resolve_right fun room =>
      hdepth (Nat.lt_of_le_of_lt (Nat.le_add_right _ _) room)
    exact .error ⟨hw.carries_untold own hx hdeep (hroots ▸ refused), .ofLambdas rfl⟩

/-- All readers of a variable are registered, and the host holds them. -/
theorem notify_leaves (own : w.own? owner name = some id) (hx : x.Plain) :
    (owner.notify name (.ofBudget budget thread) (w.storeValue id x)).Leaves fun _ v =>
      w.Restored feeds deep thread.id v := by
  have run : owner.notify name (.ofBudget budget thread) (w.storeValue id x) =
      LambdaId.propagate (w.followersAt owner name) (.ofBudget budget thread) (w.storeValue id x) := by
    refine notify_eq_propagate rfl (hw.keys owner) fun k hk => ?_
    obtain ⟨_, _, _, reader, -⟩ := hw.reader ((hw.follower own k).1 hk).1
    exact hasLambda_of_held (w := w.storeValue id x) reader.held _
  rw [run]
  exact hw.propagate_leaves hset hfed hroom own hx

/-- An assignment is proposed, stored and told. -/
theorem set_leaves (hfound : w.findVariable? scope name = some (owner, id)) (hvalue : value.Plain) :
    (scope.set name value (.ofBudget budget thread) w).Leaves fun r v =>
      w.Restored feeds deep thread.id v ∧ ∀ x, r = .ok x → x.Plain := by
  have own := (own?_of_findVariable? hfound).2
  have failed {e : Error} {v : World} (h : w.Beside v) :
      w.Restored feeds deep thread.id v ∧ ∀ x, (.error e : Except Error Value) = .ok x → x.Plain :=
    ⟨.beside hw h, nofun⟩
  have proposed : (scope.proposeValue owner id name value (.ofBudget budget thread) w).Leaves (ScopeId.Kept w) := by
    rcases ScopeId.proposeValue_cases scope name (.ofBudget budget thread) w owner id value with
      ⟨e, run⟩ | ⟨-, -, run⟩
    · rw [run]
      exact .error ⟨.refl w, nofun⟩
    · rw [run, Eval.holding_apply]
      exact ScopeId.storable_leaves hvalue _ (fun c hc => hw.quiet.condition id hc) _
  unfold ScopeId.set
  rw [Eval.bind_apply]
  rcases ScopeId.checkAlive_cases scope (.ofBudget budget thread) w with ⟨e, run⟩ | ⟨-, run⟩
  · rw [run]
    exact .error (failed (.refl w))
  rw [run, Outcome.bind_value]
  split
  · exact .error (failed (.refl w))
  rw [Eval.bind_apply, Eval.gets_apply, Outcome.bind_value, hfound]
  show (scope.assign owner id name value (.ofBudget budget thread) w).Leaves _
  unfold ScopeId.assign
  refine Eval.leaves_bind proposed ?_ fun e v h => failed h.1
  rintro x v ⟨hv, hx⟩
  -- what has been proposed may be stored
  have beside : w.Restored feeds deep thread.id v := .beside hw hv
  have wiring := beside.carries.wiring
  have own' : v.own? owner name = some id := by
    rwa [own?, scopeAt_congr hv.scopes, ← own?]
  have fed : v.Fed feeds thread.id id := fun k j noted hj =>
    hfed ((beside.marks k).1 noted) (wiring.watches_iff.1 hj)
  have room : deep ∨ v.Room thread := hroom.imp_right fun room => by
    unfold Room at room ⊢
    rwa [unmarked_congr wiring.size beside.marks, wiring.config]
  rw [Eval.bind_apply, Eval.modify_apply, Outcome.bind_value, Eval.bind_apply, Eval.holding_apply,
    Context.ofBudget_withThread, Context.thread_ofBudget]
  have told : (owner.notify name
      (.ofBudget budget { thread with held := x.places ++ [.variable id] ++ thread.held })
      (v.storeValue id x)).Leaves fun _ u => v.Restored feeds deep thread.id u :=
    beside.carries.circuit.notify_leaves hset fed room own' (hx x rfl)
  refine told.bind (fun _ u hu => .value ⟨beside.trans hu, ?_⟩) fun e u hu => ⟨beside.trans hu, nofun⟩
  rintro _ ⟨⟩
  exact hx x rfl

end World.Circuit

/-- Callbacks have less budget than the pass that runs them. -/
theorem assigning (feeds : VariableId → VariableId → Prop) (deep : Prop) (budget : Nat) :
    Assigning feeds deep budget := by
  induction budget using Nat.strongRecOn with
  | _ budget ih =>
    intro thread w scope owner name id value hw hfound hvalue hfed hroom
    exact hw.set_leaves ih hfed hroom hfound hvalue

/-- When an assignment has returned that no notification contains, all readers that were up to date give what their
names mean, apart from those that it has overtaken. It overtakes only readers of variables that feed themselves,
unless the thread may have come to be too deep in open computations. -/
theorem ScopeId.readers_after_set {feeds : VariableId → VariableId → Prop} {v w : World} {scope owner : ScopeId}
    {name : String} {id : VariableId} {value : Value} {budget : Nat} {thread : Thread} {r : Except Error Value}
    (hw : w.Circuit feeds) (hfound : w.findVariable? scope name = some (owner, id)) (hvalue : value.Plain)
    (outermost : ∀ k, thread.id ∉ (w.lambdaAt k).notifying)
    (run : scope.set name value (.ofBudget budget thread) w = .done r v) :
    v.Circuit feeds ∧ (∀ k, thread.id ∉ (v.lambdaAt k).notifying) ∧
    ∀ (k : LambdaId) (source : ScopeId) (key : String), w.Reader k source key → w.UpToDate k source key →
      (v.UpToDate k source key ∧ ∀ later : Context, later.thread.depth < w.config.maxDepth →
        (∀ x, source.get key true later v = .value x v →
          ∃ y v', k.force later v = .value y v' ∧ y.unmark = x.unmark) ∧
        ∀ e, source.get key true later v = .error e v →
          ∃ r v', k.force later v = .done r v' ∧
            r.map Value.unmark = unhandled w.config.failFast (e.addSource (w.lambdaAt k).source)) ∨
      w.Overtaken thread.id k v ∧
        (w.FedBack feeds k ∨ w.config.maxDepth ≤ thread.depth + w.lambdas.size) := by
  have fed : w.Fed feeds thread.id id := fun k j noted => absurd noted (outermost k)
  have room : w.config.maxDepth ≤ thread.depth + w.lambdas.size ∨ w.Room thread := by
    have few := w.unmarked_le thread.id
    unfold World.Room
    omega
  have left := assigning feeds _ budget hw hfound hvalue fed room
  rw [run] at left
  obtain ⟨⟨carries, marks⟩, -⟩ := left.of_done
  refine ⟨carries.circuit, fun k noted => outermost k ((marks k).1 noted), fun k source key hk hup => ?_⟩
  have circuit := carries.circuit
  have config := carries.wiring.config
  have origin : (v.lambdaAt k).source = (w.lambdaAt k).source := by rw [carries.wiring.record k]
  refine (carries.upToDate hk hup).imp_left fun hup => ⟨hup, fun later hdepth => ?_⟩
  rw [← config, ← origin]
  refine LambdaId.gives_of_answers ?_
  have reader := carries.wiring.reader hk (circuit.idle (carries.wiring.size ▸ hk.lt))
  exact (LambdaId.force_consults circuit.nested reader (circuit.answers_found source key) circuit.handlers
    fun _ hx => circuit.plain hx).mono fun r u h => (h.upToDate (config ▸ hdepth) hup).1

/-- Two variables of a scope, each with a reader that a register holds. The reader of the first one has a callback,
and the reader of the second one keeps its value. -/
def World.ofReaders (body : Expr) : World :=
  let held : VariableRecord := { value := .integer 1, flags := {}, constraint := none, thread := default }
  let reader (name : String) : LambdaRecord :=
    { operation := "variable", source := default, scope := ⟨0⟩, inputs := [], body := .lookup name, fixable := true }
  { scopes := #[{ name := "root", parent := none, source := default, pure := false
                  vars := [("x", ⟨0⟩), ("y", ⟨1⟩)], listeners := [("x", [⟨0⟩]), ("y", [⟨1⟩])] }]
    vars := #[held, held]
    lambdas := #[{ reader "x" with listeners := [(.handle ⟨0⟩ 1, .callback { scope := ⟨0⟩, body })] },
      { reader "y" with cache := .holding (.integer 1) }]
    desk := { registers := [("vx", .lambda ⟨0⟩), ("vy", .lambda ⟨1⟩)] } }

namespace World

section OfReaders

variable (body : Expr)

theorem scopeAt_ofReaders (scope : ScopeId) : scope = ⟨0⟩ ∨ (ofReaders body).scopeAt scope = default := by
  obtain ⟨i⟩ := scope
  match i with
  | 0 => exact .inl rfl
  | i + 1 => exact .inr (scopeAt_of_le (Nat.le_add_left 1 i))

theorem lambdaAt_ofReaders (k : LambdaId) :
    k = ⟨0⟩ ∨ k = ⟨1⟩ ∨ 2 ≤ k.index ∧ (ofReaders body).lambdaAt k = default := by
  obtain ⟨i⟩ := k
  match i with
  | 0 => exact .inl rfl
  | 1 => exact .inr (.inl rfl)
  | i + 2 => exact .inr (.inr ⟨Nat.le_add_left 2 i, lambdaAt_of_size_le (Nat.le_add_left 2 i)⟩)

theorem mem_vars_ofReaders {body : Expr} {scope : ScopeId} {name : String} {id : VariableId}
    (h : (name, id) ∈ ((ofReaders body).scopeAt scope).vars) :
    scope = ⟨0⟩ ∧ (name = "x" ∧ id = ⟨0⟩ ∨ name = "y" ∧ id = ⟨1⟩) := by
  rcases scopeAt_ofReaders body scope with rfl | none
  · have listed : (name, id) ∈ [("x", (⟨0⟩ : VariableId)), ("y", ⟨1⟩)] := h
    simpa using listed
  · rw [none] at h
    cases h

theorem nested_ofReaders : (ofReaders body).Nested := by
  have rooted {scope above : ScopeId} (h : ((ofReaders body).scopeAt scope).parent = some above) : False := by
    rcases scopeAt_ofReaders body scope with rfl | none
    · cases h
    · rw [none] at h
      cases h
  exact
    { parent_lt := fun h => (rooted h).elim
      pure := fun h _ => (rooted h).elim
      bound := fun h => by
        obtain ⟨-, ⟨-, rfl⟩ | ⟨-, rfl⟩⟩ := mem_vars_ofReaders h
        · exact Nat.zero_lt_two
        · exact Nat.one_lt_two
      named := fun h h' => by
        obtain ⟨-, ⟨rfl, rfl⟩ | ⟨rfl, rfl⟩⟩ := mem_vars_ofReaders h <;>
          obtain ⟨-, ⟨rfl, same⟩ | ⟨rfl, same⟩⟩ := mem_vars_ofReaders h'
        · rfl
        · cases same
        · cases same
        · rfl }

theorem quiet_ofReaders : ({ ofReaders body with lambdas := #[] } : World).Quiet := by
  have bare (k : LambdaId) : ({ ofReaders body with lambdas := #[] } : World).lambdaAt k = default :=
    lambdaAt_of_size_le (Nat.zero_le _)
  have scopes (scope : ScopeId) : ((ofReaders body).scopeAt scope).handlers = [] ∧
      ((ofReaders body).scopeAt scope).parameters = [] := by
    rcases scopeAt_ofReaders body scope with rfl | none
    · exact ⟨rfl, rfl⟩
    · rw [none]
      exact ⟨rfl, rfl⟩
  have held (id : VariableId) : ((ofReaders body).variableAt id).value.Plain ∧
      ((ofReaders body).variableAt id).constraint = none := by
    obtain ⟨i⟩ := id
    match i with
    | 0 | 1 => exact ⟨rfl, rfl⟩
    | i + 2 => exact ⟨rfl, rfl⟩
  refine ⟨(nested_ofReaders body).ofScopes rfl (Nat.le_refl _), ⟨fun k => ?_, fun k => ?_⟩,
    fun scope => (scopes scope).1, fun id => (held id).1, fun id c hc => ?_, fun scope key value h => ?_⟩
  · rw [callbacks, bare]
    rfl
  · rw [bare]
    rfl
  · change ((ofReaders body).variableAt id).constraint = some c at hc
    rw [(held id).2] at hc
    cases hc
  · change Entries.get? ((ofReaders body).scopeAt scope).parameters key = some value at h
    rw [(scopes scope).2] at h
    cases h

theorem alone_ofReaders (k : LambdaId) : (ofReaders body).dependents k = [] := by
  rcases lambdaAt_ofReaders body k with rfl | rfl | ⟨-, none⟩
  · rfl
  · rfl
  · rw [dependents, none]
    rfl

theorem notifying_ofReaders (k : LambdaId) : ((ofReaders body).lambdaAt k).notifying = [] := by
  rcases lambdaAt_ofReaders body k with rfl | rfl | ⟨-, none⟩
  · rfl
  · rfl
  · rw [none]
    rfl

variable {body}

theorem reader_ofReaders {k : LambdaId} {name : String} (h : ((ofReaders body).lambdaAt k).body = .lookup name) :
    (ofReaders body).Reader k ⟨0⟩ name := by
  have alone (j : LambdaId) : k ∉ (ofReaders body).dependents j := by
    rw [alone_ofReaders body j]
    exact List.not_mem_nil
  have held {register : String} {value : Value} (h : (register, value) ∈ (ofReaders body).desk.registers)
      (hk : Place.lambda k ∈ value.places) : Place.lambda k ∈ entriesPlaces (ofReaders body).desk.registers :=
    Value.mem_entriesPlaces.2 ⟨_, h, hk⟩
  rcases lambdaAt_ofReaders body k with rfl | rfl | ⟨-, none⟩
  · exact ⟨Nat.zero_lt_one, h, rfl, rfl, nofun, alone, Nat.zero_lt_two,
      held List.mem_cons_self List.mem_cons_self⟩
  · exact ⟨Nat.zero_lt_one, h, rfl, rfl, nofun, alone, Nat.one_lt_two,
      held (List.mem_cons_of_mem _ List.mem_cons_self) List.mem_cons_self⟩
  · rw [none] at h
    cases h

theorem upToDate_ofReaders {k : LambdaId} {name : String} (h : ((ofReaders body).lambdaAt k).body = .lookup name) :
    (ofReaders body).UpToDate k ⟨0⟩ name := by
  intro x hx
  rcases lambdaAt_ofReaders body k with rfl | rfl | ⟨-, none⟩
  · cases hx
  · cases h
    cases hx
    refine ⟨rfl, ?_⟩
    rintro _ ⟨⟩
    rfl
  · rw [none] at hx
    cases hx

theorem watches_ofReaders {k : LambdaId} {id : VariableId} :
    (ofReaders body).Watches k id ↔ k = ⟨0⟩ ∧ id = ⟨0⟩ ∨ k = ⟨1⟩ ∧ id = ⟨1⟩ := by
  constructor
  · rintro ⟨name, owner, hbody, found⟩
    rcases lambdaAt_ofReaders body k with rfl | rfl | ⟨-, none⟩
    · cases hbody
      cases found
      exact .inl ⟨rfl, rfl⟩
    · cases hbody
      cases found
      exact .inr ⟨rfl, rfl⟩
    · rw [none] at hbody
      cases hbody
  · rintro (⟨rfl, rfl⟩ | ⟨rfl, rfl⟩)
    · exact ⟨"x", ⟨0⟩, rfl, rfl⟩
    · exact ⟨"y", ⟨0⟩, rfl, rfl⟩

/-- These readers are a circuit if the callback assigns what the first variable feeds. -/
theorem circuit_ofReaders {feeds : VariableId → VariableId → Prop}
    (h : body.Assigns (ofReaders body).desk.registers fun name =>
      ∃ owner target, (ofReaders body).findVariable? ⟨0⟩ name = some (owner, target) ∧ feeds ⟨0⟩ target) :
    (ofReaders body).Circuit feeds where
  quiet := quiet_ofReaders body
  keys scope := by
    rcases scopeAt_ofReaders body scope with rfl | none
    · exact (by decide : ["x", "y"].Nodup)
    · rw [none]
      exact .nil
  alone := alone_ofReaders body
  reader {k} hk := by
    rcases lambdaAt_ofReaders body k with rfl | rfl | ⟨hle, -⟩
    · exact ⟨"x", ⟨0⟩, ⟨0⟩, reader_ofReaders rfl, rfl⟩
    · exact ⟨"y", ⟨0⟩, ⟨1⟩, reader_ofReaders rfl, rfl⟩
    · exact absurd hk (Nat.not_lt.2 hle)
  follower own k := by
    rw [watches_ofReaders]
    obtain ⟨rfl, ⟨rfl, rfl⟩ | ⟨rfl, rfl⟩⟩ := mem_vars_ofReaders (Entries.mem_of_get?_eq_some own)
    · rw [show (ofReaders body).followersAt ⟨0⟩ "x" = [⟨0⟩] from rfl, List.mem_singleton]
      constructor
      · rintro rfl
        exact ⟨Nat.zero_lt_two, .inl ⟨rfl, rfl⟩⟩
      · rintro ⟨-, ⟨hk, -⟩ | ⟨-, hid⟩⟩
        · exact hk
        · cases hid
    · rw [show (ofReaders body).followersAt ⟨0⟩ "y" = [⟨1⟩] from rfl, List.mem_singleton]
      constructor
      · rintro rfl
        exact ⟨Nat.one_lt_two, .inr ⟨rfl, rfl⟩⟩
      · rintro ⟨-, ⟨-, hid⟩ | ⟨hk, -⟩⟩
        · cases hid
        · exact hk
  plain {k x} h := by
    rcases lambdaAt_ofReaders body k with rfl | rfl | ⟨-, none⟩
    · cases h
    · cases h
      rfl
    · rw [none] at h
      cases h
  known hvalue hk := by
    rcases List.mem_pair.1 (Entries.mem_of_get?_eq_some hvalue) with same | same <;> cases same <;> cases hk
    · exact Nat.zero_lt_two
    · exact Nat.one_lt_two
  callback {k c id} hc hid := by
    rcases watches_ofReaders.1 hid with ⟨rfl, rfl⟩ | ⟨rfl, rfl⟩
    · cases List.mem_singleton.1 hc
      exact h.drives ⟨0⟩
    · cases hc

end OfReaders

end World

/-- What a computation has given. -/
def Outcome.data? : Outcome Value → Option Data
  | .value x _ => some x.data
  | _ => none

theorem Outcome.eq_value_of_data? {outcome : Outcome Value} {data : Data} (h : outcome.data? = some data) :
    ∃ x w, outcome = .value x w ∧ x.data = data := by
  cases outcome with
  | value x w => exact ⟨x, w, rfl, Option.some.inj h⟩
  | _ => cases h

/-- A callback assigns what it is told of to another variable, whose reader keeps a result. That reader gives the new
value. -/
theorem ScopeId.reader_of_copy_after_set :
    let ctx := Context.ofBudget 6 default
    ∃ r v x y v', ScopeId.set ⟨0⟩ "x" (.integer 2) ctx (.ofReaders (.set "y" .item)) = .done r v ∧
      ScopeId.get ⟨0⟩ "y" true ctx v = .value x v ∧ x.data = .integer 2 ∧
      LambdaId.force ⟨1⟩ ctx v = .value y v' ∧ y.unmark = x.unmark := by
  intro ctx
  have circuit : (World.ofReaders (.set "y" .item)).Circuit fun a b => a = ⟨0⟩ ∧ b = ⟨1⟩ :=
    World.circuit_ofReaders (.set ⟨⟨0⟩, ⟨1⟩, rfl, rfl, rfl⟩ .item)
  have outermost (k : LambdaId) : ctx.thread.id ∉ ((World.ofReaders (.set "y" .item)).lambdaAt k).notifying := by
    rw [World.notifying_ofReaders]
    exact List.not_mem_nil
  have seen : ((do
      let _ ← ScopeId.set ⟨0⟩ "x" (.integer 2)
      ScopeId.get ⟨0⟩ "y" true : Eval Value) ctx (.ofReaders (.set "y" .item))).data? = some (.integer 2) := by cbv
  obtain ⟨x, u, looked, data⟩ := Outcome.eq_value_of_data? seen
  obtain ⟨r, v, run, got⟩ := Eval.bind_eq_value_iff.1 looked
  have same : u = v := by
    rw [World.get_eq_look] at got
    exact (Outcome.done_inj (show Outcome.done _ v = .done (.ok x) u from got)).2.symm
  have plain : (Value.integer 2).Plain := rfl
  obtain ⟨-, -, readers⟩ := ScopeId.readers_after_set circuit rfl plain outermost
    (show ScopeId.set ⟨0⟩ "x" (.integer 2) ctx _ = .done (.ok r) v from run)
  rcases readers ⟨1⟩ ⟨0⟩ "y" (World.reader_ofReaders rfl) (World.upToDate_ofReaders rfl) with
    ⟨-, gives⟩ | ⟨-, ⟨id, watches, cycle⟩ | deep⟩
  · obtain ⟨y, v', force, value⟩ := (gives ctx (by decide)).1 x (same ▸ got)
    exact ⟨.ok r, v, x, y, v', run, same ▸ got, data, force, value⟩
  · obtain ⟨hk, -⟩ | ⟨-, rfl⟩ := World.watches_ofReaders.1 watches
    · cases hk
    · obtain ⟨c, ⟨first, -⟩, -⟩ := Relation.TransGen.head'_iff.1 cycle
      cases first
  · exact absurd deep (by decide)

/-- It is not so that all readers give what their names mean. Here a callback assigns zero to the variable that
its own lambda reads when it is told of a positive number, and this reader, which was up to date, keeps the number. -/
theorem ScopeId.reader_overtaken_by_own_callback :
    let ctx := Context.ofBudget 6 default
    let w := World.ofReaders (.cond (.call .isPositive [.item] none) (.set "x" (.integer 0)) .void)
    w.Circuit (fun a b => a = ⟨0⟩ ∧ b = ⟨0⟩) ∧ (∀ k, ctx.thread.id ∉ (w.lambdaAt k).notifying) ∧
      w.Reader ⟨0⟩ ⟨0⟩ "x" ∧ w.UpToDate ⟨0⟩ ⟨0⟩ "x" ∧
      ((do
        let _ ← ScopeId.set ⟨0⟩ "x" (.integer 2)
        ScopeId.get ⟨0⟩ "x" true : Eval Value) ctx w).data? = some (.integer 0) ∧
      ((do
        let _ ← ScopeId.set ⟨0⟩ "x" (.integer 2)
        LambdaId.force ⟨0⟩ : Eval Value) ctx w).data? = some (.integer 2) := by
  intro ctx w
  have tested : (Expr.call .isPositive [.item] none).Assigns w.desk.registers fun name =>
      ∃ owner target, w.findVariable? ⟨0⟩ name = some (owner, target) ∧ (⟨0⟩ : VariableId) = ⟨0⟩ ∧ target = ⟨0⟩ :=
    .call Operation.steady_isPositive (List.forall_mem_singleton.2 .item)
  refine ⟨World.circuit_ofReaders (.cond tested (.set ⟨⟨0⟩, ⟨0⟩, rfl, rfl, rfl⟩ (.integer 0)) .void), fun k => ?_,
    World.reader_ofReaders rfl, World.upToDate_ofReaders rfl, ?_, ?_⟩
  · rw [World.notifying_ofReaders]
    exact List.not_mem_nil
  · cbv
  · cbv

end Reactor
