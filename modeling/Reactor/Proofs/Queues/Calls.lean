import Reactor.Proofs.Queues.Fifo

/-!
# Calls on queues

What a call on a queue answers and leaves, for values that are queues and for URIs that are bound to
one.

* `Value.IsQueue` : the queue behind a value.
* `Queue.Use.perform` : the calls other than writes. Each answers at once, like the queue seen as a list,
  and leaves what that leaves (`Queue.perform_eq`).
-/

namespace Reactor

/-- The value is a queue or a URI that is bound to one. -/
def Value.IsQueue (v : Value) (id : QueueId) : Prop :=
  v.data = .queue id ∨ ∃ uri : Uri, v.data = .uri uri ∧ uri.resource = some (.queue id)

/-- A queue as a list. -/
def QueueRecord.fifo (record : QueueRecord) : Fifo :=
  { items := record.items, subscriptions := record.subscribers, given := record.nextSubscriber }

namespace Queue

/-- A use of a queue through a value. -/
def Use.perform (q : Value) : Use → Eval Response
  | .read blocking mutating => do return .value (← q.read blocking mutating)
  | .drain => do return .value (← q.drain)
  | .all => do return .value (← q.all)
  | .size => do return .size (← q.size)
  | .subscribe callback => do return .subscription (← q.subscribe callback)
  | .unsubscribe subscription => do return .found (← q.unsubscribe subscription)

/-- The use does not have to wait: a blocking read needs an item. -/
def Use.Ready (s : Fifo) : Use → Prop
  | .read true _ => s.items ≠ []
  | _ => True

end Queue

/-! ## The resource behind a value -/

namespace Value

variable {q : Value} {id : QueueId}

theorem IsQueue.lambda?_eq_none (h : q.IsQueue id) : q.lambda? = none := by
  unfold lambda?
  rcases h with h | ⟨uri, h, -⟩ <;> rw [h]

theorem stream?_of_isQueue (h : q.IsQueue id) : q.stream? = pure (some (.queue id)) := by
  unfold stream?
  rw [forced_of_lambda?_eq_none h.lambda?_eq_none, pure_bind]
  rcases h with h | ⟨uri, h, hr⟩
  · rw [h]
  · rw [h]
    simp [Uri.bound, hr]

theorem requireStream_of_isQueue (h : q.IsQueue id) (operation : String) :
    q.requireStream operation = pure (.queue id) := by
  unfold requireStream
  rw [stream?_of_isQueue h, pure_bind]

end Value

namespace World

variable {w : World} {id : QueueId}

theorem queueAt_modifyQueue_self (hid : id.index < w.queues.size) (f : QueueRecord → QueueRecord) :
    (w.modifyQueue id f).queueAt id = f (w.queueAt id) := by
  rw [queueAt_modifyQueue, if_pos ⟨rfl, hid⟩]

@[simp] theorem size_queues_modifyQueue (w : World) (id : QueueId) (f : QueueRecord → QueueRecord) :
    (w.modifyQueue id f).queues.size = w.queues.size :=
  Array.size_modify ..

end World

namespace Queue

variable {q : Value} {id : QueueId} {ctx : Context} {w : World}

/-- A use through a value has answered like the queue seen as a list, and leaves what that leaves. -/
def Performed (id : QueueId) (use : Use) (w : World) (outcome : Outcome Response) : Prop :=
  ∃ v, outcome = .value ((w.queueAt id).fifo.response use) v ∧
    (v.queueAt id).fifo = (w.queueAt id).fifo.use use ∧ v.queues.size = w.queues.size

/-- The first item is seen, and taken if the read is mutating. -/
theorem front?_apply (hid : id.index < w.queues.size) (blocking mutating : Bool) :
    ∃ v, front? id mutating ctx w = .value (w.queueAt id).items.head? v ∧
      (v.queueAt id).fifo = (w.queueAt id).fifo.use (.read blocking mutating) ∧
        v.queues.size = w.queues.size := by
  unfold front?
  rw [Eval.modifyGet_apply]
  cases hitems : (w.queueAt id).items with
  | nil =>
    refine ⟨w, rfl, ?_, rfl⟩
    cases mutating with
    | false => rfl
    | true => simp [QueueRecord.fifo, Fifo.use, hitems]
  | cons item items =>
    cases mutating with
    | false => exact ⟨w, rfl, rfl, rfl⟩
    | true =>
      refine ⟨_, rfl, ?_, w.size_queues_modifyQueue id _⟩
      show ((w.modifyQueue id _).queueAt id).fifo = _
      rw [World.queueAt_modifyQueue_self hid]
      simp [QueueRecord.fifo, Fifo.use, hitems]

theorem performed_read (hq : q.IsQueue id) (hid : id.index < w.queues.size) (blocking mutating : Bool)
    (hready : Use.Ready (w.queueAt id).fifo (.read blocking mutating)) :
    Performed id (.read blocking mutating) w ((Use.read blocking mutating).perform q ctx w) := by
  obtain ⟨v, front, hv, hsize⟩ := @front?_apply id (ctx.hold [.queue id]) w hid blocking mutating
  refine ⟨v, ?_, hv, hsize⟩
  have read : q.read blocking mutating ctx w =
      .value ((w.queueAt id).items.head?.getD .void) v := by
    unfold Value.read
    rw [Value.stream?_of_isQueue hq, pure_bind]
    show Resource.read (.queue id) blocking mutating (ctx.hold [.queue id]) w = _
    unfold Resource.read
    cases blocking with
    | false =>
      show (front? id mutating >>= _) _ w = _
      rw [Eval.bind_apply, front]
      rfl
    | true =>
      obtain ⟨item, hitem⟩ : ∃ item, (w.queueAt id).items.head? = some item := by
        cases hitems : (w.queueAt id).items with
        | nil => exact absurd hitems hready
        | cons item items => exact ⟨item, rfl⟩
      rw [hitem] at front ⊢
      show await id none mutating _ w = _
      unfold await
      rw [Eval.bind_apply, front]
      rfl
  rw [Use.perform, Eval.bind_apply, read]
  rfl

/-- A use that only looks. -/
theorem performed_of_look {use : Use} {act : Eval Response}
    (hact : act ctx w = .value ((w.queueAt id).fifo.response use) w)
    (huse : (w.queueAt id).fifo.use use = (w.queueAt id).fifo) :
    Performed id use w (act ctx w) :=
  ⟨w, hact, huse.symm, rfl⟩

/-- A use that changes the record of the queue. -/
theorem performed_of_change (hid : id.index < w.queues.size) {use : Use} {act : Eval Response}
    {f : QueueRecord → QueueRecord}
    (hact : act ctx w = .value ((w.queueAt id).fifo.response use) (w.modifyQueue id f))
    (huse : (w.queueAt id).fifo.use use = (f (w.queueAt id)).fifo) :
    Performed id use w (act ctx w) :=
  ⟨_, hact, by rw [World.queueAt_modifyQueue_self hid, huse], w.size_queues_modifyQueue id f⟩

theorem size_of_isQueue (hq : q.IsQueue id) :
    q.size ctx w = .value (w.queueAt id).items.length w := by
  unfold Value.size
  rw [Value.onForced_of_lambda?_eq_none hq.lambda?_eq_none]
  rcases hq with h | ⟨uri, h, hr⟩
  · rw [h]
    rfl
  · rw [h]
    simp [Uri.bound, hr, Resource.size]

theorem performed_unsubscribe (hq : q.IsQueue id) (hid : id.index < w.queues.size) (text : String) :
    Performed id (.unsubscribe text) w ((Use.unsubscribe text).perform q ctx w) := by
  have run : (Use.unsubscribe text).perform q ctx w =
      (Resource.unsubscribe (.queue id) text ctx w).bind fun found v => .value (.found found) v := by
    rw [Use.perform, Value.unsubscribe, Value.requireStream_of_isQueue hq, pure_bind, Eval.bind_apply]
    rfl
  cases hfind : (w.queueAt id).subscribers.find? fun entry => subscriptionText entry.1 = text with
  | none =>
    have absent : ∀ entry ∈ (w.queueAt id).subscribers, subscriptionText entry.1 ≠ text := by
      simpa using hfind
    have found : (w.queueAt id).subscribers.any (fun entry => subscriptionText entry.1 = text) = false := by
      simpa using absent
    refine performed_of_look ?_ ?_
    · rw [run]
      simp [Resource.unsubscribe, hfind, Fifo.response, QueueRecord.fifo, found]
    · simpa [Fifo.use, QueueRecord.fifo] using absent
  | some entry =>
    obtain ⟨n, callback⟩ := entry
    obtain rfl : subscriptionText n = text := by simpa using List.find?_some hfind
    have found : (w.queueAt id).subscribers.any
        (fun entry => subscriptionText entry.1 = subscriptionText n) = true :=
      List.any_eq_true.2 ⟨_, List.mem_of_find?_eq_some hfind, by simp⟩
    refine performed_of_change hid (f := fun q =>
      { q with subscribers := Entries.erase q.subscribers n }) ?_ ?_
    · rw [run]
      simp [Resource.unsubscribe, hfind, Fifo.response, QueueRecord.fifo, found]
    · simp only [Fifo.use, QueueRecord.fifo, Entries.erase, ne_eq, subscriptionText_inj]

/-- Calls other than writes answer at once, like the queue seen as a list. -/
theorem perform_eq (hq : q.IsQueue id) (hid : id.index < w.queues.size)
    (hordered : (w.queueAt id).fifo.Ordered) {use : Use} (hready : use.Ready (w.queueAt id).fifo) :
    Performed id use w (use.perform q ctx w) := by
  cases use with
  | read blocking mutating => exact performed_read hq hid blocking mutating hready
  | size =>
    refine performed_of_look ?_ rfl
    rw [Use.perform, Eval.bind_apply, size_of_isQueue hq]
    rfl
  | all =>
    refine performed_of_look ?_ rfl
    rw [Use.perform, Value.all, Value.requireStream_of_isQueue hq]
    rfl
  | drain =>
    refine performed_of_change hid (f := fun q => { q with items := [] }) ?_ rfl
    rw [Use.perform, Value.drain, Value.requireStream_of_isQueue hq]
    rfl
  | subscribe callback =>
    have fresh : (w.queueAt id).nextSubscriber ∉ (w.queueAt id).subscribers.map (·.1) := by
      intro hmem
      obtain ⟨entry, hentry, same⟩ := List.mem_map.1 hmem
      exact Nat.ne_of_lt (hordered.below hentry) same
    refine performed_of_change hid (f := fun q =>
      { q with
        subscribers := Entries.insert q.subscribers (w.queueAt id).nextSubscriber callback
        nextSubscriber := (w.queueAt id).nextSubscriber + 1 }) ?_ ?_
    · rw [Use.perform, Value.subscribe, Value.requireStream_of_isQueue hq]
      rfl
    · simp only [QueueRecord.fifo, Fifo.use]
      rw [Entries.insert_of_notMem fresh]
  | unsubscribe text => exact performed_unsubscribe hq hid text

end Queue

end Reactor
