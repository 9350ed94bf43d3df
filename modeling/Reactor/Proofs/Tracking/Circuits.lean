import Mathlib.Logic.Relation
import Reactor.Proofs.Histories.Basic
import Reactor.Proofs.Passes.Run
import Reactor.Proofs.Tracking.Readers
import Reactor.Proofs.Tracking.Scripts

/-!
# Networks whose callbacks assign variables

In a circuit (`World.Circuit`) all lambdas read variables, and their callbacks may assign variables, those that
the lambdas read among them. While a thread notifies the readers of a variable, callbacks assign others, and so
a pass is begun inside another one. What the thread does is a sequence of strides (`World.Stride`): lambdas are
forced, a variable is assigned and its readers forget their results, marks are taken away.

The inner pass passes over the readers that the thread is notifying already. One of them that keeps a result
is overtaken by the assignment (`World.Overtaken`). From one state to another a thread carries the network
(`World.Carries`) if readers that were up to date are so in the end, or have been overtaken. All strides carry
it, and so do sequences of them (`World.Carries.trans`).
-/

namespace Reactor

/-! ## Circuits -/

namespace World

/-- The lambda reads the variable. -/
def Watches (w : World) (k : LambdaId) (id : VariableId) : Prop :=
  ∃ name owner, (w.lambdaAt k).body = .lookup name ∧
    w.findVariable? (w.lambdaAt k).scope name = some (owner, id)

/-- All lambdas read variables that are declared, and those who follow a variable are those that read it, in
whatever scope it is declared. The callbacks of a lambda assign at most the variables that the one it reads
feeds. -/
structure Circuit (feeds : VariableId → VariableId → Prop) (w : World) : Prop where
  /-- Nothing else runs when a variable changes. -/
  quiet : ({ w with lambdas := #[] } : World).Quiet
  keys (scope : ScopeId) : (Entries.keys (w.scopeAt scope).listeners).Nodup
  alone (k : LambdaId) : w.dependents k = []
  reader {k : LambdaId} (hk : k.index < w.lambdas.size) :
    ∃ name owner id, w.Reader k (w.lambdaAt k).scope name ∧
      w.findVariable? (w.lambdaAt k).scope name = some (owner, id)
  follower {owner : ScopeId} {name : String} {id : VariableId} (h : w.own? owner name = some id)
    (k : LambdaId) : k ∈ w.followersAt owner name ↔ k.index < w.lambdas.size ∧ w.Watches k id
  plain {k : LambdaId} {x : Value} (h : (w.lambdaAt k).cache = .holding x) : x.Plain
  known {register : String} {value : Value} {k : LambdaId}
    (hvalue : Entries.get? w.desk.registers register = some value) (hk : value.lambda? = some k) :
    k.index < w.lambdas.size
  callback {k : LambdaId} {c : Callback} {id : VariableId} (hc : c ∈ w.callbacks k) (hid : w.Watches k id) :
    c.body.Drives c.scope w.desk.registers fun name =>
      ∃ owner target, w.findVariable? c.scope name = some (owner, target) ∧ feeds id target

/-- The variable that the lambda reads feeds itself, through others or at once. -/
def FedBack (feeds : VariableId → VariableId → Prop) (w : World) (k : LambdaId) : Prop :=
  ∃ id, w.Watches k id ∧ Relation.TransGen feeds id id

/-- What lambdas read that the thread is notifying feeds the variable, at once or through others. -/
def Fed (feeds : VariableId → VariableId → Prop) (w : World) (thread : ThreadId) (id : VariableId) : Prop :=
  ∀ ⦃k j⦄, thread ∈ (w.lambdaAt k).notifying → w.Watches k j → Relation.TransGen feeds j id

/-- The lambda keeps a result. -/
def Retains (w : World) (k : LambdaId) : Prop :=
  ∃ x, (w.lambdaAt k).cache = .holding x

/-- What a thread does in a circuit, and whom it overtakes by it: readers that keep a result and are not told
that their variable is assigned, and readers that are computed when the thread is too deep in open
computations. -/
inductive Stride (thread : ThreadId) : (LambdaId → Prop) → World → World → Prop
  | beside {w v : World} (h : w.Beside v) : Stride thread (fun _ => False) w v
  | forced {w v : World} {k : LambdaId} {ctx : Context} {r : Except Error Value} (hid : ctx.thread.id = thread)
    (run : k.force ctx w = .done r v) :
    Stride thread (fun j => j = k ∧ w.config.maxDepth ≤ ctx.thread.depth) w v
  /-- A variable is assigned, and its readers forget their results, apart from those that the thread is
  notifying already. -/
  | told {w : World} {owner : ScopeId} {name : String} {id : VariableId} (own : w.own? owner name = some id)
    (x : Value) (held : List Place) :
    Stride thread (fun k => w.Watches k id ∧ w.Retains k ∧ thread ∈ (w.lambdaAt k).notifying) w
      ((w.storeValue id x).swept thread held (w.followersAt owner name))
  /-- A variable is assigned, and the pass is refused. -/
  | untold {w : World} {owner : ScopeId} {name : String} {id : VariableId} (own : w.own? owner name = some id)
    {x : Value} {ctx : Context} {e : Error}
    (run : LambdaId.propagate (w.followersAt owner name) ctx (w.storeValue id x) =
      .error e (w.storeValue id x)) :
    Stride thread (fun k => w.Watches k id ∧ w.Retains k) w (w.storeValue id x)
  /-- A pass is over. -/
  | left {w : World} (ks : List LambdaId) :
    Stride thread (fun _ => False) w (ks.foldl (fun v k => v.leaveNotify thread k) w)

/-- From one state to another a thread takes strides. -/
def Course (thread : ThreadId) : World → World → Prop :=
  Relation.ReflTransGen fun w v => ∃ behind, Stride thread behind w v

/-- On its way from one state to another the thread overtakes a reader. -/
def Overtaken (thread : ThreadId) (k : LambdaId) (w v : World) : Prop :=
  ∃ u u' behind, w.Course thread u ∧ Stride thread behind u u' ∧ behind k ∧ u'.Course thread v

/-! ## What stays -/

/-- Nothing has changed but variables, what lambdas keep, and who is registered with them, where nobody new
is. -/
structure SameWiring (w v : World) : Prop where
  config : v.config = w.config
  scopes : v.scopes = w.scopes
  registers : v.desk.registers = w.desk.registers
  size : v.lambdas.size = w.lambdas.size
  record (k : LambdaId) : v.lambdaAt k = { w.lambdaAt k with
    cache := (v.lambdaAt k).cache
    generation := (v.lambdaAt k).generation
    listeners := (v.lambdaAt k).listeners
    followed := (v.lambdaAt k).followed
    notifying := (v.lambdaAt k).notifying }
  listeners (k : LambdaId) : (v.lambdaAt k).listeners ⊆ (w.lambdaAt k).listeners

variable {feeds : VariableId → VariableId → Prop} {deep : Prop} {thread : ThreadId} {u v w : World}
  {k : LambdaId} {id : VariableId} {scope owner : ScopeId} {name : String} {x : Value}

namespace SameWiring

theorem refl (w : World) : w.SameWiring w :=
  ⟨rfl, rfl, rfl, rfl, fun _ => rfl, fun _ => List.Subset.refl _⟩

theorem trans (h : u.SameWiring v) (h' : v.SameWiring w) : u.SameWiring w where
  config := h'.config.trans h.config
  scopes := h'.scopes.trans h.scopes
  registers := h'.registers.trans h.registers
  size := h'.size.trans h.size
  record k := by rw [h'.record k, h.record k]
  listeners k := List.Subset.trans (h'.listeners k) (h.listeners k)

theorem ofRecached (h : w.Recached v) : w.SameWiring v where
  config := h.config
  scopes := h.scopes
  registers := h.registers
  size := h.size
  record k := by rw [h.record k]
  listeners k := by
    rw [h.record k]
    exact List.Subset.refl _

theorem ofCooled {forgot : LambdaId → Prop} (h : w.Cooled forgot v) : w.SameWiring v where
  config := by rw [h.rest]
  scopes := by rw [h.rest]
  registers := by rw [h.rest]
  size := h.size
  record k := (h.record k).same
  listeners k := (h.record k).listeners

theorem storeValue (w : World) (id : VariableId) (x : Value) : w.SameWiring (w.storeValue id x) :=
  ⟨rfl, rfl, rfl, rfl, fun _ => rfl, fun _ => List.Subset.refl _⟩

theorem watches_iff (h : w.SameWiring v) : v.Watches k id ↔ w.Watches k id := by
  rw [Watches, Watches, h.record k]
  simp only [findVariable?_congr h.scopes]

theorem fedBack_iff (h : w.SameWiring v) : v.FedBack feeds k ↔ w.FedBack feeds k := by
  simp only [FedBack, h.watches_iff]

theorem reader (h : w.SameWiring v) (hk : w.Reader k scope name)
    (idle : ∀ thread, (v.lambdaAt k).cache ≠ .computing thread) : v.Reader k scope name :=
  hk.later h.record h.listeners idle h.size h.registers (Nat.le_of_eq (congrArg Array.size h.scopes.symm))

theorem subset_filterMap {α : Type} (h : w.SameWiring v) (f : ListenerKey × Listener → Option α) :
    (v.lambdaAt k).listeners.filterMap f ⊆ (w.lambdaAt k).listeners.filterMap f := by
  intro a ha
  obtain ⟨entry, hentry, found⟩ := List.mem_filterMap.1 ha
  exact List.mem_filterMap.2 ⟨entry, h.listeners k hentry, found⟩

end SameWiring

/-- A lambda reads one variable. -/
theorem Watches.unique {j : VariableId} (h : w.Watches k id) (h' : w.Watches k j) : id = j := by
  obtain ⟨name, owner, body, found⟩ := h
  obtain ⟨key, source, body', found'⟩ := h'
  cases Body.lookup.inj (body.symm.trans body')
  rw [found] at found'
  cases found'
  rfl

/-- What names mean depends on scopes and variables. -/
theorem meansSame_of_same (hs : v.scopes = w.scopes) (hv : v.vars = w.vars) : w.MeansSame v scope name := by
  refine .of_find ?_ (findVariable?_congr hs ..) (fun _ _ _ => ?_) fun _ => findParameter?_congr hs ..
  · rw [scopeAt_congr hs]
  · rw [variableAt, variableAt, hv]

/-- A scope that declares a name has a record. -/
theorem lt_of_own? (own : w.own? owner name = some id) : owner.index < w.scopes.size := by
  apply Nat.lt_of_not_le
  intro hle
  rw [own?, scopeAt_of_le hle] at own
  cases own

/-- A circuit is one as long as its wiring stays, its variables hold plain values, and its lambdas keep plain
results and are not being computed. -/
theorem Circuit.later (hw : w.Circuit feeds) (h : w.SameWiring v)
    (quiet : ({ v with lambdas := #[] } : World).Quiet)
    (idle : ∀ {k : LambdaId}, k.index < w.lambdas.size → ∀ thread, (v.lambdaAt k).cache ≠ .computing thread)
    (plain : ∀ {k : LambdaId} {x : Value}, (v.lambdaAt k).cache = .holding x → x.Plain) :
    v.Circuit feeds where
  quiet := quiet
  keys scope := by
    rw [scopeAt_congr h.scopes]
    exact hw.keys scope
  alone k := List.subset_nil.1 (hw.alone k ▸ h.subset_filterMap _)
  reader {k} hk := by
    have hlt := h.size ▸ hk
    obtain ⟨name, owner, id, reader, found⟩ := hw.reader hlt
    have scope : (v.lambdaAt k).scope = (w.lambdaAt k).scope := by rw [h.record k]
    refine ⟨name, owner, id, ?_, ?_⟩
    · rw [scope]
      exact h.reader reader (idle hlt)
    · rw [scope, findVariable?_congr h.scopes]
      exact found
  follower own k := by
    rw [own?, scopeAt_congr h.scopes, ← own?] at own
    rw [followersAt_congr h.scopes, h.size, h.watches_iff]
    exact hw.follower own k
  plain := plain
  known hvalue hk := by
    rw [h.registers] at hvalue
    exact h.size ▸ hw.known hvalue hk
  callback hc hid := by
    have drives := hw.callback (h.subset_filterMap _ hc) (h.watches_iff.1 hid)
    rw [h.registers]
    simp only [findVariable?_congr h.scopes]
    exact drives

namespace Circuit

variable (hw : w.Circuit feeds)
include hw

theorem nested : w.Nested :=
  hw.quiet.nested.ofScopes rfl (Nat.le_refl _)

theorem handlers (scope : ScopeId) : (w.scopeAt scope).handlers = [] :=
  hw.quiet.handlers scope

theorem readable (halive : (w.scopeAt scope).destroyed = false) : w.Readable scope :=
  Readable.congr (w := { w with lambdas := #[] }) rfl (hw.quiet.readable halive) rfl

theorem plain_of_look {must : Bool} (hx : w.look scope name must = .ok x) : x.Plain :=
  (hw.readable (look_eq_ok hx).1).plain_of_look hx

theorem answers_found (scope : ScopeId) (name : String) :
    Answers (w.found scope name) (w.means scope name) := by
  have same : ({ w with lambdas := #[] } : World).MeansSame w scope name := meansSame_of_same rfl rfl
  rw [same.found, same.means]
  exact hw.quiet.answers_found scope name

theorem idle (hk : k.index < w.lambdas.size) (thread : ThreadId) :
    (w.lambdaAt k).cache ≠ .computing thread := by
  obtain ⟨_, _, _, reader, _⟩ := hw.reader hk
  exact reader.idle thread

theorem quiet_later (hs : v.scopes = w.scopes) (hv : v.vars = w.vars) :
    ({ v with lambdas := #[] } : World).Quiet := by
  refine hw.quiet.ofScopes ⟨fun _ => rfl, fun _ => rfl⟩ (fun scope => ?_) hv
  rw [show ({ v with lambdas := #[] } : World).scopeAt scope = v.scopeAt scope from rfl, scopeAt_congr hs]
  rfl

/-- What a name means stays when a variable is assigned that the name does not stand for. -/
theorem means_storeValue (hk : w.Reader k scope name) {key : String} (own : w.own? owner key = some id)
    (hnot : ¬ w.Watches k id) : (w.storeValue id x).means scope name = w.means scope name := by
  have known : owner.index < w.scopes.size := lt_of_own? own
  have wrote : w.Wrote (w.storeValue id x) owner key id x := .ofStore hw.nested (.refl w) own known
  refine (wrote.meansSame hw.nested hk.known (wrote.find_of_own hw.nested hk.known own name) ?_).means
  rintro o j found rfl
  exact hnot ⟨name, o, hk.body, hk.scope ▸ found⟩

end Circuit

/-- What a reader reads, and from where, is fixed. -/
theorem Reader.unique {source : ScopeId} {key : String} (h : w.Reader k scope name) (h' : w.Reader k source key) :
    scope = source ∧ name = key :=
  ⟨h.scope.symm.trans h'.scope, Body.lookup.inj (h.body.symm.trans h'.body)⟩

/-- A lambda that keeps nothing is up to date. -/
theorem UpToDate.ofEmpty (h : ¬ w.Retains k) : w.UpToDate k scope name :=
  fun x hx => absurd ⟨x, hx⟩ h

theorem UpToDate.later (h : w.UpToDate k scope name) (wiring : w.SameWiring v)
    (means : v.means scope name = w.means scope name)
    (cache : ∀ x, (v.lambdaAt k).cache = .holding x → (w.lambdaAt k).cache = .holding x) :
    v.UpToDate k scope name := by
  intro x hx
  have source : (v.lambdaAt k).source = (w.lambdaAt k).source := by rw [wiring.record k]
  rw [reading, wiring.config, source, means]
  exact h x (cache x hx)

/-! ## What a thread carries -/

/-- A thread takes strides that leave the wiring as it is. A reader that was up to date is so in the end, or it
has been overtaken, which happens only to readers of variables that feed themselves, unless the thread comes to
be too deep in open computations. -/
structure Carries (feeds : VariableId → VariableId → Prop) (deep : Prop) (thread : ThreadId) (w v : World) :
    Prop where
  wiring : w.SameWiring v
  circuit : v.Circuit feeds
  course : w.Course thread v
  upToDate {k : LambdaId} {scope : ScopeId} {name : String} (hk : w.Reader k scope name)
    (h : w.UpToDate k scope name) :
    v.UpToDate k scope name ∨ w.Overtaken thread k v ∧ (w.FedBack feeds k ∨ deep)

namespace Carries

theorem refl (hw : w.Circuit feeds) : w.Carries feeds deep thread w :=
  ⟨.refl w, hw, .refl, fun _ h => .inl h⟩

theorem trans (h : u.Carries feeds deep thread v) (h' : v.Carries feeds deep thread w) :
    u.Carries feeds deep thread w where
  wiring := h.wiring.trans h'.wiring
  circuit := h'.circuit
  course := h.course.trans h'.course
  upToDate {k scope name} hk hup := by
    rcases h.upToDate hk hup with hup | ⟨⟨u₁, u₂, behind, before, stride, passed, after⟩, cause⟩
    · have hk' := h.wiring.reader hk (h.circuit.idle (h.wiring.size ▸ hk.lt))
      rcases h'.upToDate hk' hup with hup | ⟨⟨u₁, u₂, behind, before, stride, passed, after⟩, cause⟩
      · exact .inl hup
      · exact .inr ⟨⟨u₁, u₂, behind, h.course.trans before, stride, passed, after⟩,
          cause.imp_left h.wiring.fedBack_iff.1⟩
    · exact .inr ⟨⟨u₁, u₂, behind, before, stride, passed, after.trans h'.course⟩, cause⟩

theorem ofStride {behind : LambdaId → Prop} (stride : Stride thread behind w v) (wiring : w.SameWiring v)
    (circuit : v.Circuit feeds)
    (upToDate : ∀ {k : LambdaId} {scope : ScopeId} {name : String}, w.Reader k scope name →
      w.UpToDate k scope name → v.UpToDate k scope name ∨ behind k ∧ (w.FedBack feeds k ∨ deep)) :
    w.Carries feeds deep thread v where
  wiring := wiring
  circuit := circuit
  course := .single ⟨behind, stride⟩
  upToDate hk hup := (upToDate hk hup).imp_right fun ⟨passed, cause⟩ =>
    ⟨⟨w, v, behind, .refl, stride, passed, .refl⟩, cause⟩

end Carries

/-! ## Strides -/

theorem mem_entered_iff (alone : ∀ k, w.dependents k = []) {live : Holders} {roots : List LambdaId} :
    k ∈ (w.enter live thread roots).1 ↔ k ∈ roots ∧ thread ∉ (w.lambdaAt k).notifying := by
  -- nobody follows a lambda, so that a pass goes no further than its roots
  constructor
  · intro h
    refine ⟨?_, Discipline.not_notifying_of_mem_discover _ _ _ w _ h⟩
    rcases mem_pending_of_mem_discover h with h | ⟨j, hj⟩
    · exact h
    · rw [alone] at hj
      cases hj
  · rintro ⟨h, idle⟩
    exact mem_entered h idle

theorem SameWiring.ofSwept {live : Holders} {affected : List LambdaId}
    (h : w.Swept live thread affected v) : w.SameWiring v where
  config := by rw [h.rest]
  scopes := by rw [h.rest]
  registers := by rw [h.rest]
  size := h.size
  record k := by
    by_cases hk : k ∈ affected
    · rw [h.hit hk]
      rfl
    · rw [h.spared hk]
      rfl
  listeners k := by
    by_cases hk : k ∈ affected
    · rw [h.hit hk]
      exact List.Subset.trans List.filter_sublist.subset List.filter_sublist.subset
    · rw [h.spared hk]
      exact List.filter_sublist.subset

theorem Swept.mem_notifying_iff {live : Holders} {affected : List LambdaId} {other : ThreadId}
    (h : w.Swept live thread affected v) : other ∈ (v.lambdaAt k).notifying ↔
      (other = thread ∧ k ∈ affected) ∨ other ∈ (w.lambdaAt k).notifying := by
  by_cases hk : k ∈ affected
  · rw [h.hit hk]
    simp [hk, LambdaRecord.unfollowed]
  · rw [h.spared hk]
    simp [hk, LambdaRecord.unfollowed]

namespace Circuit

variable (hw : w.Circuit feeds)
include hw

/-- What lambdas keep may be forgotten. -/
theorem forgetful (wiring : w.SameWiring v) (vars : v.vars = w.vars)
    (cache : ∀ k, (v.lambdaAt k).cache = (w.lambdaAt k).cache ∨
      (v.lambdaAt k).cache = (w.lambdaAt k).cache.dropped) : v.Circuit feeds := by
  refine hw.later wiring (hw.quiet_later wiring.scopes vars) (fun {k} hk thread => ?_) fun {k x} hx => ?_
  · rcases cache k with same | dropped
    · rw [same]
      exact hw.idle hk thread
    · rw [dropped]
      exact Cache.dropped_ne_computing (hw.idle hk thread)
  · rcases cache k with same | dropped
    · exact hw.plain (same ▸ hx)
    · exact absurd (dropped ▸ hx) (Cache.dropped_ne_holding _ x)

theorem storeValue (hx : x.Plain) (id : VariableId) : (w.storeValue id x).Circuit feeds :=
  hw.later (.storeValue w id x) (hw.quiet.storeValue hx id) (fun hk thread => hw.idle hk thread) fun h => hw.plain h

/-- A pass that begins invalidates what it reaches. -/
theorem swept {roots : List LambdaId} (thread : ThreadId) (held : List Place)
    (hroots : ∀ k ∈ roots, k.index < w.lambdas.size) :
    w.Swept (w.liveness held) thread (w.enter (w.liveness held) thread roots).1 (w.swept thread held roots) := by
  refine (collects_enter w _ thread roots).swept (.ofDependents hroots fun k j hj => ?_)
  rw [liveDependents, hw.alone] at hj
  cases hj

theorem carries_beside (h : w.Beside v) : w.Carries feeds deep thread v := by
  have wiring := SameWiring.ofRecached h.recached
  have cache (k : LambdaId) : (v.lambdaAt k).cache = (w.lambdaAt k).cache := by
    rw [lambdaAt, lambdaAt, h.lambdas]
  refine .ofStride (.beside h) wiring (hw.forgetful wiring h.vars fun k => .inl (cache k)) fun hk hup => .inl ?_
  exact hup.later wiring (meansSame_of_same h.scopes h.vars).means fun x hx => cache _ ▸ hx

/-- A lambda is forced. -/
theorem force_carries {ctx : Context} (hid : ctx.thread.id = thread) (hk : k.index < w.lambdas.size)
    (hdeep : w.config.maxDepth ≤ ctx.thread.depth → deep) :
    (k.force ctx w).Yields fun r v =>
      w.Carries feeds deep thread v ∧ w.Recached v ∧ ∀ x, r = .ok x → x.Plain := by
  obtain ⟨name, owner, id, reader, -⟩ := hw.reader hk
  have consulted : (k.force ctx w).Yields _ :=
    LambdaId.force_consults hw.nested reader (hw.answers_found _ name) hw.handlers fun _ hx => hw.plain hx
  obtain ⟨r, v, run, h⟩ := Outcome.yields_iff.1 consulted
  rw [run]
  have wiring := SameWiring.ofRecached h.recached
  have circuit : v.Circuit feeds := by
    refine hw.later wiring (hw.quiet_later h.recached.scopes h.recached.vars) (fun {j} hj thread => ?_)
      fun {j x} hx => ?_
    · by_cases hjk : j = k
      · subst hjk
        exact h.idle thread
      · rw [h.others hjk]
        exact hw.idle hj thread
    · by_cases hjk : j = k
      · subst hjk
        exact h.kept hx
      · exact hw.plain (h.others hjk ▸ hx)
  refine Outcome.yields_iff.2 ⟨r, v, rfl, .ofStride (.forced hid run) wiring circuit fun {j source key} hj hup => ?_,
    h.recached, fun x hx => h.plain hx⟩
  -- only the lambda that is forced can come to keep something new
  by_cases hjk : j = k
  · subst hjk
    by_cases hdepth : ctx.thread.depth < w.config.maxDepth
    · obtain ⟨rfl, rfl⟩ := reader.unique hj
      exact .inl (h.upToDate hdepth hup).2
    · exact .inr ⟨⟨rfl, Nat.le_of_not_lt hdepth⟩, .inr (hdeep (Nat.le_of_not_lt hdepth))⟩
  · refine .inl (hup.later wiring ?_ fun x hx => h.others hjk ▸ hx)
    exact (h.recached.meansSame hw.nested hj.known).means

/-- A variable that is assigned leaves a reader up to date that does not read it, or keeps nothing. -/
theorem upToDate_storeValue {key : String} (own : w.own? owner key = some id) (hk : w.Reader k scope name)
    (hup : w.UpToDate k scope name) (hnot : ¬ (w.Watches k id ∧ w.Retains k)) :
    (w.storeValue id x).UpToDate k scope name := by
  by_cases retains : w.Retains k
  · have elsewhere : ¬ w.Watches k id := fun watches => hnot ⟨watches, retains⟩
    exact hup.later (.storeValue w id x) (hw.means_storeValue hk own elsewhere) fun _ h => h
  · exact .ofEmpty retains

/-- A variable has been assigned, and a pass has invalidated those readers of it that it reaches. -/
theorem carries_told (own : w.own? owner name = some id) (hx : x.Plain) (held : List Place)
    (hfed : w.Fed feeds thread id) :
    w.Carries feeds deep thread ((w.storeValue id x).swept thread held (w.followersAt owner name)) := by
  have stored := hw.storeValue hx id
  have swept := stored.swept thread held fun k hk => ((hw.follower own k).1 hk).1
  have wiring : (w.storeValue id x).SameWiring _ := .ofSwept swept
  have cache (k : LambdaId) := (Hit.swept (w.storeValue id x) thread held (w.followersAt owner name)).cache k
  have vars : ((w.storeValue id x).swept thread held (w.followersAt owner name)).vars = (w.storeValue id x).vars := by
    rw [swept.rest]
  have circuit := stored.forgetful wiring vars fun k => by
    rw [cache]
    split
    · exact .inr rfl
    · exact .inl rfl
  refine .ofStride (.told own x held) ((SameWiring.storeValue w id x).trans wiring) circuit
    fun {k source key} hk hup => ?_
  by_cases passed : w.Watches k id ∧ w.Retains k ∧ thread ∈ (w.lambdaAt k).notifying
  · exact .inr ⟨passed, .inl ⟨id, passed.1, hfed passed.2.2 passed.1⟩⟩
  have kept := cache k
  split at kept
  · -- its result is gone
    refine .inl (.ofEmpty fun ⟨y, hy⟩ => ?_)
    exact Cache.dropped_ne_holding _ y (kept.symm.trans hy)
  · -- the pass has not reached it: it reads another variable, or it keeps nothing
    rename_i spared
    have hnot : ¬ (w.Watches k id ∧ w.Retains k) := by
      rintro ⟨watches, retains⟩
      have unmarked : thread ∉ (w.lambdaAt k).notifying := fun noted => passed ⟨watches, retains, noted⟩
      exact spared ((mem_entered_iff stored.alone).2 ⟨(hw.follower own k).2 ⟨hk.lt, watches⟩, unmarked⟩)
    refine .inl ((hw.upToDate_storeValue own hk hup hnot).later wiring ?_ fun y hy => kept.symm.trans hy)
    exact (meansSame_of_same wiring.scopes vars).means

/-- A pass is refused, since the thread is too deep in open computations. -/
theorem carries_untold (own : w.own? owner name = some id) (hx : x.Plain) (hdeep : deep) {ctx : Context} {e : Error}
    (run : LambdaId.propagate (w.followersAt owner name) ctx (w.storeValue id x) = .error e (w.storeValue id x)) :
    w.Carries feeds deep thread (w.storeValue id x) := by
  have wiring := SameWiring.storeValue w id x
  refine .ofStride (.untold own run) wiring (hw.storeValue hx id) fun {k source key} hk hup => ?_
  by_cases passed : w.Watches k id ∧ w.Retains k
  · exact .inr ⟨passed, .inr hdeep⟩
  · exact .inl (hw.upToDate_storeValue own hk hup passed)

/-- A pass is over. -/
theorem carries_left (ks : List LambdaId) :
    w.Carries feeds deep thread (ks.foldl (fun v k => v.leaveNotify thread k) w) := by
  have cooled : w.Cooled (fun _ => True) (ks.foldl (fun v k => v.leaveNotify thread k) w) :=
    .foldl (fun k _ v => cooled_leaveNotify v thread k) w
  have wiring := SameWiring.ofCooled cooled
  have vars : (ks.foldl (fun v k => v.leaveNotify thread k) w).vars = w.vars := by rw [cooled.rest]
  have cache (k : LambdaId) := (Hit.left thread ks w).cache k
  refine .ofStride (.left ks) wiring (hw.forgetful wiring vars fun k => .inl (cache k)) fun hk hup => .inl ?_
  exact hup.later wiring (meansSame_of_same wiring.scopes vars).means fun x hx => (cache _).symm.trans hx

end Circuit

end World

end Reactor
