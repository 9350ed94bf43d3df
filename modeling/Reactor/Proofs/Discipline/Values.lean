import Reactor.Proofs.Discipline.Basic
import Reactor.Proofs.Traits.Operations

/-!
# Values, resources and disciplines

To keep a discipline is a trait (`Discipline.trait`): what only reads the state, forces lambdas, waits, or
changes queues and what is no record keeps every discipline, and a write to a queue runs scripts that are
allowed in every state that the discipline holds of. So all operations on values keep it.
-/

namespace Reactor.Discipline

variable {D : Discipline} {α : Type}

/-! ## Forcing -/

/-- A forced value is no lambda. -/
theorem gives_forced (v : Value) : D.Gives Settled v.forced := by
  unfold Value.forced
  cases h : v.lambda? with
  | none => exact gives_pure fun _ _ => h
  | some id =>
    refine (gives_force id).bindOf fun result hresult => ?_
    refine Gives.ite (gives_pure fun _ _ => hresult) (gives_pure fun _ _ => ?_)
    simpa [Settled, Value.lambda?] using hresult

/-- Work with a forced value may rely on its being no lambda. -/
theorem gives_onForced {P : α → World → Prop} {v : Value} {work : Value → Eval α}
    (h : ∀ v : Value, v.lambda? = none → D.Gives P (work v)) : D.Gives P (v.onForced work) := by
  unfold Value.onForced
  cases hv : v.lambda? with
  | none => exact h v hv
  | some _ => exact (gives_forced v).bindOf fun result hresult => (h result hresult).holding _

/-! ## Subscribers -/

theorem keeps_tell (value : Value) {subscribers : List Callback}
    (h : ∀ c ∈ subscribers, D.allows c.body) : D.Keeps (Queue.tell value subscribers) := by
  refine Gives.bind (keeps_inTurn (fun failure c hc => ?_) _ _ _) fun failure => ?_
  · refine (keeps_evaluate (h c hc) _ _).attempt.bind fun result => ?_
    cases result <;> exact keeps_pure _
  · cases failure with
    | none => exact keeps_pure _
    | some e => exact gives_fail e

theorem keeps_publish (id : QueueId) (value : Value) : D.Keeps (Queue.publish id value) := by
  refine Gives.bindOf (p := fun subscribers => ∀ c ∈ subscribers, D.allows c.body)
    (gives_gets (fun _ _ => rfl) fun w hw c hc => ?_) fun _ h => keeps_tell value h
  obtain ⟨entry, hentry, rfl⟩ := List.mem_map.1 hc
  exact D.subscriber hw hentry

theorem keeps_resourceSubscribe (resource : Resource) {callback : Callback}
    (h : D.allows callback.body) : D.Keeps (resource.subscribe callback) := by
  cases resource with
  | queue id =>
    unfold Resource.subscribe
    refine keeps_modifyGet (fun _ _ => rfl) fun w hw => D.queue id (fun entry hentry => ?_) hw
    rcases Entries.mem_insert hentry with hold | rfl
    · exact .inl hold
    · exact .inr h
  | cell id => exact gives_fail _

/-! ## The trait -/

theorem holds_shifts {w v : World} (h : w.Shifts v) (hw : D.holds w) : D.holds v ∧ D.leads w v := by
  cases h with
  | aside h => exact D.aside h hw
  | newQueue items => exact D.newQueue items hw
  | queue id h => exact D.queue id (fun _ hentry => .inl (h hentry)) hw

variable (D) in
/-- Computations that keep the discipline. -/
def trait : Trait where
  Has := D.Keeps
  has_pure := keeps_pure
  has_fail := gives_fail
  has_panic := gives_panic
  has_exhausted := gives_exhausted
  has_bind := keeps_bind
  has_attempt h := h.attempt.keeps
  has_holding := Gives.holding
  has_onNewThread h pooled := by
    refine Gives.bind (keeps_modifyGetAside ?_ ?_) fun id => h.onThread id pooled
    · exact fun _ _ => rfl
    · exact fun _ => ⟨⟨rfl, rfl, rfl, rfl⟩, rfl, rfl⟩
  has_thread := keeps_thread
  has_budget := keeps_budget
  has_gets := keeps_gets
  has_world hf h := gives_world hf fun w _ => h w
  has_modifyGet hf h := keeps_modifyGet hf fun w hw => holds_shifts (h w) hw
  has_wait := keeps_wait
  has_force id := (gives_force id).keeps
  has_publish := keeps_publish

theorem keeps_share (v : Value) : D.Keeps v.share :=
  Trait.has_share (T := D.trait) v

theorem keeps_parallelThreshold (items : List Value) : D.Keeps (Value.parallelThreshold items) :=
  Trait.has_parallelThreshold (T := D.trait) items

theorem keeps_fixDeep (v : Value) (parallel : Bool) : D.Keeps (v.fixDeep parallel) :=
  Trait.has_fixDeep (T := D.trait) v parallel

theorem keeps_requireStream (v : Value) (operation : String) : D.Keeps (v.requireStream operation) :=
  Trait.has_requireStream (T := D.trait) v operation

theorem keeps_subscribe (v : Value) {callback : Callback} (h : D.allows callback.body) :
    D.Keeps (v.subscribe callback) :=
  (keeps_requireStream v _).bind fun resource => keeps_resourceSubscribe resource h

end Reactor.Discipline
