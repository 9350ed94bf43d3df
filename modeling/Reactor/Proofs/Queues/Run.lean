import Reactor.Proofs.Queues.Calls

/-!
# Writes to queues and runs on a queue

A write fixes the item, puts it into the queue if it is mutating, and tells it to the subscribers.

* `Queue.Tells` : how a value is told to subscribers in order, all of them even if some fail.
* `Queue.Writes` : what becomes of a write. It holds of exactly what the engine does
  (`Queue.reaches_write_iff`).

A run is made of calls on a queue, through whatever values and by whatever threads, and of anything
else that leaves the queue alone. While an item is being fixed to be written, its lambdas may use the
queue in turn. Subscribers do not.

What happens in a run is what happens at a queue that is a list (`Queue.refines_fifo`). The proof is by
induction on the run: a call is a step of the list (`Queue.perform_eq`, `Queue.step_of_written`).
-/

namespace Reactor

open Outcome (Reaches)

/-- A result as an outcome. -/
def Outcome.ofExcept {α : Type} : Except Error α → World → Outcome α
  | .ok a, w => .value a w
  | .error e, w => .error e w

namespace Queue

variable {between : World → World → Prop} {ctx : Context} {w : World} {value : Value}

/-- The value is told to a subscriber while the thread holds the places of those whose turn is to
come. -/
def Telling.run (value : Value) (entries : List (Nat × Callback)) (callback : Callback) :
    Eval (Except Error Value) :=
  Eval.holding ((entries.map (·.2)).flatMap Callback.places)
    (Eval.evaluate callback.body callback.scope (some value)).attempt

/-- A value is told to subscribers in order. A failure of one is noted, and the others are told all the
same. -/
inductive Tells (between : World → World → Prop) (ctx : Context) (value : Value) :
    List (Nat × Callback) → World → List Telling → Outcome Unit → Prop
  | done {w : World} : Tells between ctx value [] w [] (.value () w)
  | told {entry : Nat × Callback} {entries : List (Nat × Callback)} {u w : World}
    {result : Except Error Value} {tellings : List Telling} {y : Outcome Unit}
    (run : (Telling.run value (entry :: entries) entry.2 ctx w).Reaches between (.value result u))
    (rest : Tells between ctx value entries u tellings y) :
    Tells between ctx value (entry :: entries) w (⟨entry.1, entry.2, value, w, result, u⟩ :: tellings) y
  | brokeOff {entry : Nat × Callback} {entries : List (Nat × Callback)} {u w : World}
    {message : Option String}
    (run : (Telling.run value (entry :: entries) entry.2 ctx w).Reaches between (.panic message u)) :
    Tells between ctx value (entry :: entries) w [] (.panic message u)
  | exhausted {entry : Nat × Callback} {entries : List (Nat × Callback)} {w : World}
    (run : (Telling.run value (entry :: entries) entry.2 ctx w).Reaches between .exhausted) :
    Tells between ctx value (entry :: entries) w [] .exhausted

/-! ## Telling subscribers -/

/-- A telling has no failure but its result. -/
theorem not_reaches_error {entries : List (Nat × Callback)} {callback : Callback} {e : Error}
    {u : World} :
    ¬ (Telling.run value entries callback ctx w).Reaches between (.error e u) := by
  intro h
  obtain ⟨x, -, hx⟩ := Outcome.reaches_attempt_iff.1 h
  cases x <;> cases hx

/-- What is done in the turn of a subscriber, given the failure so far. -/
def turn (value : Value) (failure : Option Error) (callback : Callback) : Eval (Option Error) := do
  match ← (Eval.evaluate callback.body callback.scope (some value)).attempt with
  | .ok _ => return failure
  | .error e => return failure.or (some e)

theorem turn_apply (failure : Option Error) (entry : Nat × Callback)
    (entries : List (Nat × Callback)) :
    Eval.holding ([] ++ (Callback.places entry.2 ++ (entries.map (·.2)).flatMap Callback.places))
        (turn value failure entry.2) ctx w =
      (Telling.run value (entry :: entries) entry.2 ctx w).bind fun result u =>
        .value (failure.or (failure? result)) u := by
  unfold Telling.run turn
  rw [Eval.holding_apply, Eval.bind_apply, Eval.holding_apply, List.nil_append, List.map_cons,
    List.flatMap_cons]
  congr 1
  funext result u
  cases result with
  | ok v => simp [failure?]
  | error e => simp [failure?]

/-- One subscriber after another is told; the first failure is kept. -/
theorem reaches_turns_iff {entries : List (Nat × Callback)} {failure : Option Error}
    {y : Outcome (Option Error)} :
    (Eval.inTurn (fun _ => []) Callback.places (turn value) failure (entries.map (·.2)) ctx w).Reaches
        between y ↔
      ∃ tellings z, Tells between ctx value entries w tellings z ∧
        y = z.bind fun _ v => .value (failure.or (firstFailure? tellings)) v := by
  induction entries generalizing failure w with
  | nil =>
    rw [List.map_nil, Eval.inTurn_nil, Eval.pure_apply, Outcome.reaches_value_iff]
    constructor
    · rintro rfl
      exact ⟨[], _, .done, by simp [firstFailure?]⟩
    · rintro ⟨tellings, z, tells, rfl⟩
      cases tells
      simp [firstFailure?]
  | cons entry entries ih =>
    have later (tellings : List Telling) (telling : Telling) :
        (failure.or (failure? telling.result)).or (firstFailure? tellings) =
          failure.or (firstFailure? (telling :: tellings)) := by
      rw [Option.or_assoc, firstFailure?, firstFailure?, List.findSome?_cons]
      cases failure? telling.result <;> rfl
    rw [List.map_cons, Eval.inTurn_cons, Eval.bind_apply, turn_apply, Outcome.bind_assoc,
      Outcome.reaches_bind_iff]
    constructor
    · rintro ⟨x, run, rest⟩
      cases x with
      | value result u =>
        obtain ⟨tellings, z, tells, rfl⟩ := ih.1 rest
        exact ⟨_, z, .told run tells, by rw [← later]⟩
      | error e u => exact (not_reaches_error run).elim
      | panic message u =>
        obtain rfl := Outcome.reaches_panic_iff.1 rest
        exact ⟨_, _, .brokeOff run, rfl⟩
      | exhausted =>
        obtain rfl := Outcome.reaches_exhausted_iff.1 rest
        exact ⟨_, _, .exhausted run, rfl⟩
      | waiting on u resume => exact (Outcome.not_reaches_waiting run).elim
    · rintro ⟨tellings, z, tells, rfl⟩
      cases tells with
      | told run rest => exact ⟨_, run, ih.2 ⟨_, z, rest, by rw [← later]⟩⟩
      | brokeOff run => exact ⟨_, run, .panic⟩
      | exhausted run => exact ⟨_, run, .exhausted⟩

/-- When all have been told, no one is waited for. -/
theorem Tells.not_waiting {entries : List (Nat × Callback)} {tellings : List Telling} {on : Wait}
    {u : World} {resume : World → Outcome Unit} :
    ¬ Tells between ctx value entries w tellings (.waiting on u resume) := by
  intro h
  generalize hz : Outcome.waiting on u resume = z at h
  induction h with
  | told _ _ ih => exact ih hz
  | _ => cases hz

/-- A write concludes with the first failure, if there is one. -/
def conclude (value : Value) (failure : Option Error) (v : World) : Outcome Value :=
  match failure with
  | none => .value value v
  | some e => .error e v

theorem conclude_firstFailure (tellings : List Telling) (v : World) :
    conclude value ((none : Option Error).or (firstFailure? tellings)) v =
      .ofExcept (conclusion value tellings) v := by
  rw [conclusion, Option.none_or]
  cases firstFailure? tellings <;> rfl

/-- A value is told to all subscribers, and the first failure ends the write. -/
theorem reaches_tell_iff {entries : List (Nat × Callback)} {y : Outcome Value} :
    ((tell value (entries.map (·.2)) ctx w).bind fun _ v => .value value v).Reaches between y ↔
      ∃ tellings z, Tells between ctx value entries w tellings z ∧
        y = z.bind fun _ v => .ofExcept (conclusion value tellings) v := by
  have run : (tell value (entries.map (·.2)) ctx w).bind (fun _ v => .value value v) =
      (Eval.inTurn (fun _ => []) Callback.places (turn value) none (entries.map (·.2)) ctx w).bind
        (conclude value) := by
    unfold tell
    rw [Eval.bind_apply, Outcome.bind_assoc]
    congr 1
    funext failure v
    cases failure <;> rfl
  have concluded {tellings : List Telling} {z : Outcome Unit}
      (h : Tells between ctx value entries w tellings z) :
      ((z.bind fun _ v => .value ((none : Option Error).or (firstFailure? tellings)) v).bind
          (conclude value)).Reaches between y ↔
        y = z.bind fun _ v => .ofExcept (conclusion value tellings) v := by
    cases z with
    | value _ v =>
      rw [Outcome.bind_value, Outcome.bind_value, Outcome.bind_value, conclude_firstFailure]
      cases conclusion value tellings with
      | ok a => exact Outcome.reaches_value_iff
      | error e => exact Outcome.reaches_error_iff
    | error e v => exact Outcome.reaches_error_iff
    | panic message v => exact Outcome.reaches_panic_iff
    | exhausted => exact Outcome.reaches_exhausted_iff
    | waiting on v resume => exact (Tells.not_waiting h).elim
  rw [run, Outcome.reaches_bind_iff]
  constructor
  · rintro ⟨x, hx, rest⟩
    obtain ⟨tellings, z, tells, rfl⟩ := reaches_turns_iff.1 hx
    exact ⟨tellings, z, tells, (concluded tells).1 rest⟩
  · rintro ⟨tellings, z, tells, rfl⟩
    exact ⟨_, reaches_turns_iff.2 ⟨tellings, z, tells, rfl⟩, (concluded tells).2 rfl⟩

/-! ## Writing -/

end Queue

namespace World

/-- A fixed value, marked to be kept. -/
def marked (w : World) (fixed : Value) : Value :=
  (fixed.markFrom w.marks).1

/-- A fixed value has been marked. A mutating write has put it into the queue. -/
def keep (w : World) (id : QueueId) (fixed : Value) (mutating : Bool) : World :=
  let v := { w with marks := (fixed.markFrom w.marks).2 }
  if mutating then v.modifyQueue id fun q => { q with items := q.items ++ [w.marked fixed] } else v

end World

namespace Queue

variable {q item : Value} {id : QueueId} {mutating : Bool}

/-- A write fixes the item, keeps it if it is mutating, and tells it to the subscribers. The last two
states are those in which the item has been fixed and in which the subscribers have been told. -/
structure Written (between : World → World → Prop) (id : QueueId) (item : Value) (mutating : Bool)
    (ctx : Context) (w : World) (fixed : Value) (u : World) (tellings : List Telling)
    (z : Outcome Unit) : Prop where
  fix : (item.fixDeep false (ctx.hold [.queue id]) w).Reaches between (.value fixed u)
  tells : Tells between ((ctx.hold [.queue id]).hold (u.marked fixed).places) (u.marked fixed)
    (u.queueAt id).subscribers (u.keep id fixed mutating) tellings z

/-- What becomes of a write: it ends as the fixing of the item does, or it goes on to the
subscribers. -/
inductive Writes (between : World → World → Prop) (id : QueueId) (item : Value) (mutating : Bool)
    (ctx : Context) (w : World) : Outcome Value → Prop
  | failed {e : Error} {u : World}
    (fix : (item.fixDeep false (ctx.hold [.queue id]) w).Reaches between (.error e u)) :
    Writes between id item mutating ctx w (.error e u)
  | brokeOff {message : Option String} {u : World}
    (fix : (item.fixDeep false (ctx.hold [.queue id]) w).Reaches between (.panic message u)) :
    Writes between id item mutating ctx w (.panic message u)
  | exhausted (fix : (item.fixDeep false (ctx.hold [.queue id]) w).Reaches between .exhausted) :
    Writes between id item mutating ctx w .exhausted
  | written {fixed : Value} {u : World} {tellings : List Telling} {z : Outcome Unit}
    (h : Written between id item mutating ctx w fixed u tellings z) :
    Writes between id item mutating ctx w
      (z.bind fun _ v => .ofExcept (conclusion (u.marked fixed) tellings) v)

theorem write_apply (hq : q.IsQueue id) :
    q.write item mutating ctx w =
      (item.fixDeep false (ctx.hold [.queue id]) w).bind fun fixed u =>
        (tell (u.marked fixed) (Entries.values (u.queueAt id).subscribers)
          ((ctx.hold [.queue id]).hold (u.marked fixed).places) (u.keep id fixed mutating)).bind
            fun _ v => .value (u.marked fixed) v := by
  unfold Value.write
  rw [Value.requireStream_of_isQueue hq, pure_bind, Eval.holding_apply, Eval.bind_apply]
  congr 1
  funext fixed u
  rw [Eval.bind_apply, Value.share_apply, Outcome.bind_value, Eval.holding_apply]
  unfold Resource.write
  cases mutating with
  | true =>
    have same : ((u.keep id fixed true).queueAt id).subscribers = (u.queueAt id).subscribers := by
      simp only [World.keep, if_true, World.queueAt_modifyQueue]
      split <;> rfl
    rw [← same]
    show (push id _ >>= _) _ _ = _
    rw [Eval.bind_apply]
    rfl
  | false =>
    show (publish id _ >>= _) _ _ = _
    rw [Eval.bind_apply]
    rfl

/-- What becomes of a write is what the engine makes of it. -/
theorem reaches_write_iff (hq : q.IsQueue id) {y : Outcome Value} :
    (q.write item mutating ctx w).Reaches between y ↔ Writes between id item mutating ctx w y := by
  rw [write_apply hq, Outcome.reaches_bind_iff]
  constructor
  · rintro ⟨x, fix, rest⟩
    cases x with
    | value fixed u =>
      obtain ⟨tellings, z, tells, rfl⟩ := reaches_tell_iff.1 rest
      exact .written ⟨fix, tells⟩
    | error e u =>
      obtain rfl := Outcome.reaches_error_iff.1 rest
      exact .failed fix
    | panic message u =>
      obtain rfl := Outcome.reaches_panic_iff.1 rest
      exact .brokeOff fix
    | exhausted =>
      obtain rfl := Outcome.reaches_exhausted_iff.1 rest
      exact .exhausted fix
    | waiting on u resume => exact (Outcome.not_reaches_waiting fix).elim
  · intro h
    cases h with
    | failed fix => exact ⟨_, fix, .error⟩
    | brokeOff fix => exact ⟨_, fix, .panic⟩
    | exhausted fix => exact ⟨_, fix, .exhausted⟩
    | written h => exact ⟨_, h.fix, reaches_tell_iff.2 ⟨_, _, h.tells, rfl⟩⟩

end Queue

open Outcome (Reaches)

/-- The queue is still there, and as it was. -/
structure World.Spares (id : QueueId) (u w : World) : Prop where
  size : u.queues.size ≤ w.queues.size
  record : w.queueAt id = u.queueAt id

namespace Queue

variable {between : World → World → Prop} {id : QueueId}

/-- In a run on a queue some events happen, from one state to another one. A write that fails because
the item cannot be fixed is what happens while the item is being fixed. -/
inductive Run (between : World → World → Prop) (id : QueueId) : World → List Event → World → Prop
  | aside {u w : World} (h : u.Spares id w) : Run between id u [] w
  | trans {u v w : World} {events more : List Event} (h : Run between id u events v)
    (h' : Run between id v more w) : Run between id u (events ++ more) w
  | used {q : Value} {use : Use} {ctx : Context} {response : Response} {w v : World}
    (hq : q.IsQueue id) (hready : use.Ready (w.queueAt id).fifo)
    (h : (use.perform q ctx w).Reaches between (.value response v)) :
    Run between id w [.used use response] v
  | wrote {item fixed : Value} {mutating : Bool} {ctx : Context} {u v w : World}
    {events : List Event} {tellings : List Telling}
    (h : Written between id item mutating ctx w fixed u tellings (.value () v))
    (fixing : Run between id w events u)
    (apart : ∀ telling ∈ tellings, telling.before.Spares id telling.after) :
    Run between id w
      (events ++ [.wrote (u.marked fixed) mutating tellings (conclusion (u.marked fixed) tellings)]) v

/-- What happens from one state of a queue to another one is as it is with a list. -/
structure Refines (s : Fifo) (events : List Event) (s' : Fifo) : Prop where
  /-- All answers, and whom a write is told to, are those of the list. -/
  accepts : s.Accepts events
  final : s' = events.foldl Fifo.after s
  ordered : s'.Ordered
  /-- First in, first out. -/
  items : s.items ++ events.flatMap Event.kept = s.takenAll events ++ s'.items
  told (n : Nat) : events.flatMap (Event.received n) = due n (s.Lasts n) events
  names : (events.flatMap Event.subscribed).Nodup
  fresh {text : String} (h : text ∈ events.flatMap Event.subscribed) {n : Nat} (hn : n < s.given) :
    text ≠ subscriptionText n

/-! ## Steps -/

theorem Refines.of_accepts {s : Fifo} {events : List Event} (hordered : s.Ordered)
    (haccepts : s.Accepts events) : Refines s events (events.foldl Fifo.after s) := by
  obtain ⟨nodup, later⟩ := Fifo.subscribed_fresh haccepts
  refine ⟨haccepts, rfl, ?_, Fifo.kept_eq_taken s events, fun n =>
    Fifo.received_eq_due hordered n haccepts, nodup, fun h n hn same => ?_⟩
  · clear haccepts nodup later
    induction events generalizing s with
    | nil => exact hordered
    | cons event events ih => exact ih (hordered.after event)
  · obtain ⟨m, hm, rfl⟩ := later _ h
    rw [subscriptionText_inj.1 same] at hm
    exact Nat.not_lt.2 hm hn

/-- Subscribers that leave the queue alone are told of a write and leave it as it was. -/
theorem Tells.spares {ctx : Context} {value : Value} {entries : List (Nat × Callback)} {w v : World}
    {tellings : List Telling} (h : Tells between ctx value entries w tellings (.value () v))
    (apart : ∀ telling ∈ tellings, telling.before.Spares id telling.after) :
    w.Spares id v ∧ tellings.map (fun telling => (telling.subscription, telling.callback)) = entries ∧
      ∀ telling ∈ tellings, telling.value = value := by
  generalize hz : Outcome.value () v = z at h
  induction h with
  | done =>
    cases hz
    exact ⟨⟨Nat.le_refl _, rfl⟩, rfl, fun _ h => (List.not_mem_nil h).elim⟩
  | @told entry entries u w result tellings y _ _ ih =>
    obtain ⟨first, apart⟩ := List.forall_mem_cons.1 apart
    have first : w.Spares id u := first
    obtain ⟨spares, told, values⟩ := ih apart hz
    refine ⟨⟨Nat.le_trans first.size spares.size, spares.record.trans first.record⟩, ?_, ?_⟩
    · rw [List.map_cons, told]
    · intro telling htelling
      rcases List.mem_cons.1 htelling with rfl | htelling
      · rfl
      · exact values telling htelling
  | brokeOff _ | exhausted _ => cases hz

theorem fifo_keep {u : World} (hid : id.index < u.queues.size) (fixed : Value) (mutating : Bool)
    (tellings : List Telling) (result : Except Error Value) :
    ((u.keep id fixed mutating).queueAt id).fifo =
      (u.queueAt id).fifo.after (.wrote (u.marked fixed) mutating tellings result) := by
  cases mutating with
  | false => rfl
  | true => exact congrArg QueueRecord.fifo (World.queueAt_modifyQueue_self hid _)

theorem size_queues_keep (u : World) (id : QueueId) (fixed : Value) (mutating : Bool) :
    (u.keep id fixed mutating).queues.size = u.queues.size := by
  cases mutating with
  | false => rfl
  | true => exact World.size_queues_modifyQueue ..

/-- A write is a step of the list. -/
theorem step_of_written {item fixed : Value} {mutating : Bool} {ctx : Context} {u v w : World}
    {tellings : List Telling} (hid : id.index < u.queues.size)
    (h : Written between id item mutating ctx w fixed u tellings (.value () v))
    (apart : ∀ telling ∈ tellings, telling.before.Spares id telling.after) :
    let event := Event.wrote (u.marked fixed) mutating tellings (conclusion (u.marked fixed) tellings)
    (u.queueAt id).fifo.Shows event ∧ (v.queueAt id).fifo = (u.queueAt id).fifo.after event ∧
      u.queues.size ≤ v.queues.size := by
  obtain ⟨spares, entries, values⟩ := h.tells.spares apart
  refine ⟨⟨entries, values, rfl⟩, ?_, ?_⟩
  · rw [spares.record]
    exact fifo_keep hid fixed mutating _ _
  · rw [← size_queues_keep u id fixed mutating]
    exact spares.size

/-! ## Runs -/

/-- The events of a run are those of the list. -/
theorem Run.accepts {w w' : World} {events : List Event} (h : Run between id w events w')
    (hid : id.index < w.queues.size) (hordered : (w.queueAt id).fifo.Ordered) :
    (w.queueAt id).fifo.Accepts events ∧
      (w'.queueAt id).fifo = events.foldl Fifo.after (w.queueAt id).fifo ∧
        w.queues.size ≤ w'.queues.size := by
  induction h with
  | aside h => exact ⟨trivial, by rw [h.record]; rfl, h.size⟩
  | trans _ _ ih ih' =>
    obtain ⟨accepts, final, size⟩ := ih hid hordered
    have hordered' := (Refines.of_accepts hordered accepts).ordered
    rw [← final] at hordered'
    obtain ⟨accepts', final', size'⟩ := ih' (Nat.lt_of_lt_of_le hid size) hordered'
    rw [final] at accepts' final'
    refine ⟨Fifo.accepts_append.2 ⟨accepts, accepts'⟩, ?_, Nat.le_trans size size'⟩
    rw [final', List.foldl_append]
  | used hq hready h =>
    obtain ⟨v, run, hv, size⟩ := perform_eq hq hid hordered hready
    rw [run, Outcome.reaches_value_iff] at h
    cases h
    exact ⟨⟨rfl, trivial⟩, hv, Nat.le_of_eq size.symm⟩
  | wrote h _ apart ih =>
    obtain ⟨accepts, final, size⟩ := ih hid hordered
    obtain ⟨event, after, size'⟩ := step_of_written (Nat.lt_of_lt_of_le hid size) h apart
    rw [final] at event after
    refine ⟨Fifo.accepts_append.2 ⟨accepts, event, trivial⟩, ?_, Nat.le_trans size size'⟩
    rw [after, List.foldl_append]
    rfl

/-- **Queues are lists.** A call on a queue answers at once as it is to, a write goes on as it is to,
and what happens in a run on the queue is what happens with a list. -/
theorem refines_fifo (between : World → World → Prop) (id : QueueId) :
    (∀ (q : Value) (use : Use) (ctx : Context) (w : World), q.IsQueue id → id.index < w.queues.size →
      (w.queueAt id).fifo.Ordered → use.Ready (w.queueAt id).fifo →
        Performed id use w (use.perform q ctx w)) ∧
    (∀ (q item : Value) (mutating : Bool) (ctx : Context) (w : World) (y : Outcome Value),
      q.IsQueue id →
        ((q.write item mutating ctx w).Reaches between y ↔ Writes between id item mutating ctx w y)) ∧
    ∀ (w w' : World) (events : List Event), id.index < w.queues.size →
      (w.queueAt id).fifo.Ordered → Run between id w events w' →
        Refines (w.queueAt id).fifo events (w'.queueAt id).fifo := by
  refine ⟨fun q use ctx w hq hid hordered hready => perform_eq hq hid hordered hready,
    fun q item mutating ctx w y hq => reaches_write_iff hq, fun w w' events hid hordered h => ?_⟩
  obtain ⟨accepts, final, -⟩ := h.accepts hid hordered
  rw [final]
  exact Refines.of_accepts hordered accepts

/-- A subscriber that fails is told of a value, which stays in the queue until it is polled. -/
theorem kept_though_subscriber_fails :
    let w : World := { queues := #[{}] }
    let callback : Callback := { scope := ⟨0⟩, body := .fail (.exception "deaf") }
    ∃ tellings v,
      let events : List Event :=
        [.used (.subscribe callback) (.subscription (subscriptionText 0)),
          .wrote (.integer 7) true tellings (.error (.exception "deaf")),
          .used (.read false true) (.value (.integer 7))]
      Run (fun _ _ => False) ⟨0⟩ w events v ∧ Refines (w.queueAt ⟨0⟩).fifo events (v.queueAt ⟨0⟩).fifo := by
  intro w callback
  have hid : (⟨0⟩ : QueueId).index < w.queues.size := Nat.zero_lt_one
  have hordered : (w.queueAt ⟨0⟩).fifo.Ordered := ⟨fun h => (List.not_mem_nil h).elim, List.nodup_nil⟩
  have hq : (Value.queue ⟨0⟩).IsQueue ⟨0⟩ := .inl rfl
  let ctx := Context.ofBudget 3 default
  have subscribed : Run (fun _ _ => False) ⟨0⟩ w
      [.used (.subscribe callback) (.subscription (subscriptionText 0))] _ :=
    .used hq trivial (show Reaches _ ((Use.subscribe callback).perform (.queue ⟨0⟩) ctx w) _ from .value)
  have wrote := subscribed.trans (.wrote
    (show Written _ _ (.integer 7) true ctx _ _ _ _ _ from ⟨.value, .told .value .done⟩)
    (.aside ⟨Nat.le_refl _, rfl⟩) (List.forall_mem_singleton.2 ⟨Nat.le_refl _, rfl⟩))
  have polled := wrote.trans (.used hq (show (Use.read false true).Ready _ from trivial)
    (show Reaches _ ((Use.read false true).perform (.queue ⟨0⟩) ctx _) _ from .value))
  exact ⟨_, _, polled, (refines_fifo _ _).2.2 _ _ _ hid hordered polled⟩

end Queue

end Reactor
