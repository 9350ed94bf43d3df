import Reactor.Proofs.Handlers

/-!
# A queue as a list

`Fifo` is a queue without an engine: its items, its subscriptions in order, and the number of
subscriptions given so far. `Fifo.response` and `Fifo.after` say what each use answers and leaves,
`Fifo.Accepts` that a list of events is one that such a queue shows.

* Items leave in the order in which they were kept, and none other (`Fifo.kept_eq_taken`).
* A subscription is told what is written while it lasts (`Fifo.received_eq_due`).
* No subscription has the name of an earlier one (`Fifo.subscribed_fresh`).

Each is an induction on the events, from what one event does. The last two rest on the names of
subscriptions being in order (`Fifo.Ordered`).
-/

namespace Reactor

namespace Queue

/-- What is done with a queue, other than writing to it. -/
inductive Use where
  | read (blocking mutating : Bool)
  | drain
  | all
  | size
  | subscribe (callback : Callback)
  | unsubscribe (subscription : String)

/-- What a use of a queue answers. -/
inductive Response where
  | value (v : Value)
  | size (n : Nat)
  | subscription (text : String)
  | found (b : Bool)

/-- A subscriber was told a value: in which state, with which result, and what came of it. -/
structure Telling where
  subscription : Nat
  callback : Callback
  value : Value
  before : World
  result : Except Error Value
  after : World

/-- The error of a failure. -/
def failure? {α : Type} : Except Error α → Option Error
  | .ok _ => none
  | .error e => some e

/-- The first failure of subscribers. -/
def firstFailure? (tellings : List Telling) : Option Error :=
  tellings.findSome? fun telling => failure? telling.result

/-- A write gives back the value, unless a subscriber failed. The first failure counts. -/
def conclusion (value : Value) (tellings : List Telling) : Except Error Value :=
  match firstFailure? tellings with
  | none => .ok value
  | some e => .error e

/-- What happens at a queue. -/
inductive Event where
  | used (use : Use) (response : Response)
  /-- A value was written, which a mutating write keeps. -/
  | wrote (value : Value) (mutating : Bool) (tellings : List Telling) (result : Except Error Value)

namespace Event

/-- The values that an event puts into the queue. -/
def kept : Event → List Value
  | .wrote value true _ _ => [value]
  | _ => []

/-- What a subscription is told in an event. -/
def received (n : Nat) : Event → List Value
  | .wrote _ _ tellings _ => (tellings.filter (·.subscription = n)).map (·.value)
  | .used _ _ => []

/-- The names of the subscriptions that an event begins. -/
def subscribed : Event → List String
  | .used (.subscribe _) (.subscription text) => [text]
  | _ => []

end Event

/-- The values that a subscription is to be told. It may have begun, and it begins and ends with the
events that give and that end its name. -/
def due (n : Nat) : Bool → List Event → List Value
  | _, [] => []
  | begun, .wrote value _ _ _ :: events => (if begun then [value] else []) ++ due n begun events
  | begun, .used (.subscribe _) (.subscription text) :: events =>
    due n (begun || text = subscriptionText n) events
  | begun, .used (.unsubscribe text) _ :: events =>
    due n (begun && text ≠ subscriptionText n) events
  | begun, .used _ _ :: events => due n begun events

/-- Subscriptions have different names. -/
theorem subscriptionText_inj {m n : Nat} : subscriptionText m = subscriptionText n ↔ m = n := by
  refine ⟨fun h => ?_, fun h => by rw [h]⟩
  have digits := congrArg String.toList h
  simp only [subscriptionText, String.toList_append, Nat.toString_eq_ofList_toDigits] at digits
  have value := congrArg (Nat.ofDigitChars 10 · 0) (List.append_cancel_left digits)
  simpa using value

end Queue

open Queue

/-- A queue without an engine. -/
structure Fifo where
  items : List Value
  subscriptions : List (Nat × Callback)
  /-- The number of subscriptions so far. -/
  given : Nat

namespace Fifo

/-- The answer to a use. -/
def response (s : Fifo) : Use → Response
  | .read _ _ => .value (s.items.head?.getD .void)
  | .drain => .value (.list s.items)
  | .all => .value (.list s.items)
  | .size => .size s.items.length
  | .subscribe _ => .subscription (subscriptionText s.given)
  | .unsubscribe text => .found (s.subscriptions.any fun entry => subscriptionText entry.1 = text)

/-- What a use leaves. -/
def use (s : Fifo) : Use → Fifo
  | .read _ true => { s with items := s.items.tail }
  | .read _ false => s
  | .drain => { s with items := [] }
  | .all => s
  | .size => s
  | .subscribe callback =>
    { s with subscriptions := s.subscriptions ++ [(s.given, callback)], given := s.given + 1 }
  | .unsubscribe text =>
    { s with subscriptions := s.subscriptions.filter fun entry => subscriptionText entry.1 ≠ text }

/-- What an event leaves. -/
def after (s : Fifo) : Event → Fifo
  | .used use _ => s.use use
  | .wrote value true _ _ => { s with items := s.items ++ [value] }
  | .wrote _ false _ _ => s

/-- An event is as the queue has it: a use is answered, and a write is told to every subscription in
order. -/
def Shows (s : Fifo) : Event → Prop
  | .used use response => response = s.response use
  | .wrote value _ tellings result =>
    tellings.map (fun telling => (telling.subscription, telling.callback)) = s.subscriptions ∧
      (∀ telling ∈ tellings, telling.value = value) ∧ result = conclusion value tellings

/-- Events are as the queue has them, one after another. -/
def Accepts (s : Fifo) : List Event → Prop
  | [] => True
  | event :: events => s.Shows event ∧ (s.after event).Accepts events

/-- The items that an event takes away. -/
def taken (s : Fifo) : Event → List Value
  | .used (.read _ true) _ => s.items.take 1
  | .used .drain _ => s.items
  | _ => []

/-- The items that events take away, in order. -/
def takenAll (s : Fifo) : List Event → List Value
  | [] => []
  | event :: events => s.taken event ++ (s.after event).takenAll events

/-- The names of the subscriptions are below the next one and differ. -/
structure Ordered (s : Fifo) : Prop where
  below {entry : Nat × Callback} (h : entry ∈ s.subscriptions) : entry.1 < s.given
  nodup : (s.subscriptions.map (·.1)).Nodup

variable {s : Fifo}

theorem accepts_append {events more : List Event} :
    s.Accepts (events ++ more) ↔ s.Accepts events ∧ (events.foldl after s).Accepts more := by
  induction events generalizing s with
  | nil => simp [Accepts]
  | cons event events ih => simp [Accepts, ih, and_assoc]

/-! ## Items -/

theorem items_after (event : Event) : s.items ++ event.kept = s.taken event ++ (s.after event).items := by
  cases event with
  | wrote value mutating _ _ => cases mutating <;> simp [Event.kept, taken, after]
  | used use response =>
    cases use with
    | read blocking mutating =>
      cases mutating with
      | false => simp [Event.kept, taken, after, Fifo.use]
      | true => cases hitems : s.items <;> simp [Event.kept, taken, after, Fifo.use, hitems]
    | _ => simp [Event.kept, taken, after, Fifo.use]

/-- First in, first out: what was there and what has been kept is what has been taken away and what is
there. -/
theorem kept_eq_taken (s : Fifo) (events : List Event) :
    s.items ++ events.flatMap Event.kept = s.takenAll events ++ (events.foldl after s).items := by
  induction events generalizing s with
  | nil => simp [takenAll]
  | cons event events ih =>
    simp only [List.flatMap_cons, takenAll, List.foldl_cons]
    rw [← List.append_assoc, items_after, List.append_assoc, ih, List.append_assoc]

/-! ## Subscriptions -/

theorem Ordered.after (h : s.Ordered) (event : Event) : (s.after event).Ordered := by
  cases event with
  | wrote value mutating _ _ => cases mutating <;> exact ⟨h.below, h.nodup⟩
  | used use response =>
    cases use with
    | read blocking mutating => cases mutating <;> exact ⟨h.below, h.nodup⟩
    | subscribe callback =>
      refine ⟨fun {entry} hentry => ?_, ?_⟩
      · rcases List.mem_append.1 hentry with old | new
        · exact Nat.lt_succ_of_lt (h.below old)
        · rw [List.mem_singleton.1 new]
          exact Nat.lt_succ_self _
      · show ((s.subscriptions ++ [(s.given, callback)]).map (·.1)).Nodup
        rw [List.map_append, List.nodup_append]
        refine ⟨h.nodup, by simp, fun m hm n hn => ?_⟩
        obtain ⟨entry, hentry, rfl⟩ := List.mem_map.1 hm
        obtain rfl : n = s.given := by simpa using hn
        exact Nat.ne_of_lt (h.below hentry)
    | unsubscribe text =>
      exact ⟨fun hentry => h.below (List.mem_filter.1 hentry).1,
        h.nodup.sublist (List.filter_sublist.map _)⟩
    | _ => exact ⟨h.below, h.nodup⟩

/-- The subscription lasts. -/
def Lasts (s : Fifo) (n : Nat) : Prop :=
  n ∈ s.subscriptions.map (·.1)

instance (s : Fifo) (n : Nat) : Decidable (s.Lasts n) :=
  inferInstanceAs (Decidable (n ∈ s.subscriptions.map (·.1)))

/-- Of tellings of one value to different subscriptions at most one is for a given one. -/
theorem received_tellings {value : Value} (n : Nat) {tellings : List Telling}
    (hvalue : ∀ telling ∈ tellings, telling.value = value)
    (hnodup : (tellings.map (·.subscription)).Nodup) :
    (tellings.filter (·.subscription = n)).map (·.value) =
      if n ∈ tellings.map (·.subscription) then [value] else [] := by
  induction tellings with
  | nil => rfl
  | cons telling tellings ih =>
    obtain ⟨hfirst, hvalue⟩ := List.forall_mem_cons.1 hvalue
    obtain ⟨hnew, hnodup⟩ := List.nodup_cons.1 hnodup
    have rest := ih hvalue hnodup
    by_cases hn : telling.subscription = n
    · subst hn
      rw [if_neg hnew] at rest
      simp [hfirst, rest]
    · have hn' : n ≠ telling.subscription := fun h => hn h.symm
      simp only [List.filter_cons, hn, decide_false, Bool.false_eq_true, if_false, rest,
        List.map_cons, List.mem_cons, hn', false_or]

/-- A write reaches exactly the subscriptions that last. -/
theorem received_of_shows (h : s.Ordered) (n : Nat) {value : Value} {mutating : Bool}
    {tellings : List Telling} {result : Except Error Value}
    (hevent : s.Shows (.wrote value mutating tellings result)) :
    Event.received n (.wrote value mutating tellings result) =
      if s.Lasts n then [value] else [] := by
  obtain ⟨hsubscriptions, hvalue, -⟩ := hevent
  have names : tellings.map (·.subscription) = s.subscriptions.map (·.1) := by
    rw [← hsubscriptions, List.map_map]
    rfl
  have lasts : s.Lasts n ↔ n ∈ tellings.map (·.subscription) := by rw [names, Lasts]
  exact (received_tellings n hvalue (names ▸ h.nodup)).trans (by simp only [lasts])

theorem lasts_subscribe (s : Fifo) (callback : Callback) (n : Nat) :
    (s.use (.subscribe callback)).Lasts n ↔ s.Lasts n ∨ subscriptionText s.given = subscriptionText n := by
  unfold Lasts
  simp only [use, List.map_append, List.mem_append, List.map_cons, List.map_nil,
    List.mem_singleton, subscriptionText_inj, eq_comm]

theorem lasts_unsubscribe (s : Fifo) (text : String) (n : Nat) :
    (s.use (.unsubscribe text)).Lasts n ↔ s.Lasts n ∧ text ≠ subscriptionText n := by
  unfold Lasts
  simp only [use, List.mem_map, List.mem_filter, decide_eq_true_eq]
  constructor
  · rintro ⟨entry, ⟨hentry, hne⟩, rfl⟩
    exact ⟨⟨entry, hentry, rfl⟩, fun h => hne h.symm⟩
  · rintro ⟨⟨entry, hentry, rfl⟩, hne⟩
    exact ⟨entry, ⟨hentry, fun h => hne h.symm⟩, rfl⟩

/-- A subscription is told what is written while it lasts, once each and in order. -/
theorem received_eq_due (h : s.Ordered) (n : Nat) {events : List Event} (hevents : s.Accepts events) :
    events.flatMap (Event.received n) = due n (s.Lasts n) events := by
  induction events generalizing s with
  | nil => rfl
  | cons event events ih =>
    obtain ⟨hevent, hevents⟩ := hevents
    have rest := ih (h.after event) hevents
    rw [List.flatMap_cons, rest]
    cases event with
    | wrote value mutating tellings result =>
      have same : (s.after (.wrote value mutating tellings result)).Lasts n ↔ s.Lasts n := by
        cases mutating <;> exact Iff.rfl
      rw [received_of_shows h n hevent, due]
      simp only [same, decide_eq_true_eq]
    | used use response =>
      cases use with
      | subscribe callback =>
        cases hevent
        simp only [after, Fifo.response, lasts_subscribe, Event.received, List.nil_append, due,
          Bool.decide_or]
      | unsubscribe text =>
        cases hevent
        simp only [after, lasts_unsubscribe, Event.received, List.nil_append, due,
          Bool.decide_and]
      | read blocking mutating => cases mutating <;> rfl
      | _ => rfl

/-- The name of a subscription is given once. -/
theorem subscribed_fresh {events : List Event} (hevents : s.Accepts events) :
    (events.flatMap Event.subscribed).Nodup ∧
      ∀ text ∈ events.flatMap Event.subscribed, ∃ n, s.given ≤ n ∧ text = subscriptionText n := by
  induction events generalizing s with
  | nil => exact ⟨List.nodup_nil, nofun⟩
  | cons event events ih =>
    obtain ⟨hevent, hevents⟩ := hevents
    obtain ⟨nodup, later⟩ := ih hevents
    rw [List.flatMap_cons]
    cases event with
    | wrote value mutating _ _ => cases mutating <;> exact ⟨nodup, later⟩
    | used use response =>
      cases use with
      | subscribe callback =>
        cases hevent
        refine ⟨List.nodup_cons.2 ⟨fun hmem => ?_, nodup⟩, List.forall_mem_cons.2 ⟨⟨_, Nat.le_refl _, rfl⟩, ?_⟩⟩
        · obtain ⟨n, hle, hn⟩ := later _ hmem
          exact Nat.not_succ_le_self _ (subscriptionText_inj.1 hn ▸ hle)
        · intro text htext
          obtain ⟨n, hle, hn⟩ := later text htext
          exact ⟨n, Nat.le_of_succ_le hle, hn⟩
      | read blocking mutating => cases mutating <;> exact ⟨nodup, later⟩
      | _ => exact ⟨nodup, later⟩

end Fifo

end Reactor
