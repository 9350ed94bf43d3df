import Mathlib.Data.Set.Card
import Mathlib.Logic.Function.Basic
import Reactor.Store

/-!
# A shelf

A `Shelf` is a store without eviction: a map from keys to entries. `Shelf.asOf` is what is left of it at a
time, so an entry is gone everywhere as soon as its time has come. `Shelf.response` and `Shelf.after` say
what each use answers and leaves, `Shelf.Accepts` that a list of events is one that a shelf shows.

* A use that fails leaves the shelf as it was (`Shelf.after_of_failed`).
* A list is taken away element by element, from its front (`Shelf.popped_eq`). This is an induction on the
  events: each one takes the first element or leaves the list alone.
-/

namespace Reactor

namespace Store

/-- What is done with a store. -/
inductive Use where
  | set (key : String) (value : Value) (ttl : Option Nat)
  | push (key : String) (value : Value)
  /-- Waits so many milliseconds for an element, if there is none. -/
  | pop (key : String) (millis : Nat)
  | get (key : String)
  | remove (key : String)
  | size

/-- What a use of a store answers. -/
inductive Response where
  | done
  | value (v : Value)
  | found (b : Bool)
  | size (n : Nat)

/-- A use of a store: what it found, at which time it began, what it gave and what it left. -/
structure Event where
  before : Store
  now : Nat
  use : Use
  result : Except Error Response
  after : Store

/-- The use takes nothing from the list under a key but by popping, and adds nothing to it. -/
def Use.Drains (key : String) : Use → Prop
  | .set k _ _ | .push k _ | .remove k => k ≠ key
  | .pop _ _ | .get _ | .size => True

/-- The use is a pop from a key. -/
def Use.pops (key : String) : Use → Bool
  | .pop k _ => k = key
  | _ => false

/-- What a pop from a key gave. -/
def Event.popped (key : String) (event : Event) : List (Except Error Response) :=
  if event.use.pops key then [event.result] else []

end Store

/-- The value that a key reads as. -/
def Slot.value : Slot → Value
  | .single value => value
  | .list items => .list items

/-- How a value is kept: a list as its elements. -/
def Slot.ofValue (v : Value) : Slot :=
  match v.data with
  | .list items => .list items
  | _ => .single v

/-- The entry is there until its time has come. -/
def StoreEntry.Lasts (entry : StoreEntry) (now : Nat) : Prop :=
  ∀ time ∈ entry.expires, now < time

instance (entry : StoreEntry) (now : Nat) : Decidable (entry.Lasts now) :=
  inferInstanceAs (Decidable (∀ time ∈ entry.expires, now < time))

open Store

/-- Entries by key. -/
abbrev Shelf := String → Option StoreEntry

namespace Shelf

/-- With an entry, or none, under a key. -/
def put (s : Shelf) (key : String) (entry : Option StoreEntry) : Shelf :=
  Function.update s key entry

/-- What is left at a time. -/
def asOf (s : Shelf) (now : Nat) : Shelf := fun key =>
  (s key).filter fun entry => entry.Lasts now

/-- The answer to a use. -/
noncomputable def response (s : Shelf) : Use → Except Error Response
  | .set _ value _ => if value.isLambda then .error (.invalidOperation "save" .block) else .ok .done
  | .push key _ =>
    match s key with
    | some { slot := .single old, .. } => .error (.invalidOperation "push" old.tag)
    | _ => .ok .done
  | .pop key _ =>
    match s key with
    | some { slot := .single old, .. } => .error (.invalidOperation "pop" old.tag)
    | some { slot := .list items, .. } => .ok (.value (items.head?.getD .void))
    | none => .ok (.value .void)
  | .get key => .ok (.value (((s key).map (·.slot.value)).getD .void))
  | .remove key => .ok (.found (s key).isSome)
  | .size => .ok (.size {key | (s key).isSome}.ncard)

/-- What a use at a time leaves. -/
def after (s : Shelf) (now : Nat) : Use → Shelf
  | .set key value ttl =>
    if value.isLambda then s
    else s.put key (some { slot := .ofValue value, expires := ttl.map (now + ·) })
  | .push key value =>
    match s key with
    | some { slot := .single _, .. } => s
    | some { slot := .list items, expires } =>
      s.put key (some { slot := .list (items ++ [value]), expires })
    | none => s.put key (some { slot := .list [value] })
  | .pop key _ =>
    match s key with
    | some { slot := .list items, expires } =>
      s.put key (some { slot := .list items.tail, expires })
    | _ => s
  | .remove key => s.put key none
  | .get _ | .size => s

/-- What an event leaves. -/
def next (s : Shelf) (event : Event) : Shelf :=
  (s.asOf event.now).after event.now event.use

/-- Events are as the shelf has them, one after another. -/
def Accepts (s : Shelf) : List Event → Prop
  | [] => True
  | event :: events => event.result = (s.asOf event.now).response event.use ∧ (s.next event).Accepts events

variable {s : Shelf}

theorem accepts_append {events more : List Event} :
    s.Accepts (events ++ more) ↔ s.Accepts events ∧ (events.foldl next s).Accepts more := by
  induction events generalizing s with
  | nil => simp [Accepts]
  | cons event events ih => simp [Accepts, ih, and_assoc]

/-! ## Time -/

theorem asOf_apply_eq_some {now : Nat} {key : String} {entry : StoreEntry} :
    s.asOf now key = some entry ↔ s key = some entry ∧ entry.Lasts now := by
  simp [Shelf.asOf, Option.filter_eq_some_iff]

/-- What is gone stays gone. -/
theorem asOf_asOf {now later : Nat} (h : now ≤ later) : (s.asOf now).asOf later = s.asOf later := by
  funext key
  unfold Shelf.asOf
  cases s key with
  | none => rfl
  | some entry =>
    by_cases lasts : entry.Lasts later
    · have earlier : entry.Lasts now := fun time htime => Nat.lt_of_le_of_lt h (lasts time htime)
      simp [Option.filter, lasts, earlier]
    · by_cases earlier : entry.Lasts now <;> simp [Option.filter, lasts, earlier]

theorem asOf_congr {t : Shelf} {now later : Nat} (h : s.asOf now = t.asOf now) (hle : now ≤ later) :
    s.asOf later = t.asOf later := by
  rw [← asOf_asOf hle, h, asOf_asOf hle]

@[simp] theorem put_same (s : Shelf) (key : String) (entry : Option StoreEntry) :
    s.put key entry key = entry :=
  Function.update_self ..

theorem put_of_ne {key other : String} (h : other ≠ key) (s : Shelf) (entry : Option StoreEntry) :
    s.put key entry other = s other :=
  Function.update_of_ne h ..

theorem asOf_put {now : Nat} (s : Shelf) (key : String) (entry : Option StoreEntry) :
    (s.put key entry).asOf now = (s.asOf now).put key (entry.filter fun entry => entry.Lasts now) := by
  funext k
  by_cases h : k = key
  · subst h
    simp [asOf]
  · simp [asOf, put_of_ne h]

/-! ## Uses -/

theorem after_of_failed {use : Use} {e : Error} (now : Nat) (h : s.response use = .error e) :
    s.after now use = s := by
  cases use with
  | set key value ttl =>
    by_cases deferred : value.isLambda
    · simp [after, deferred]
    · simp [response, deferred] at h
  | push key value =>
    simp only [response] at h
    simp only [after]
    split at h
    · rename_i found
      simp [found]
    · cases h
  | pop key millis =>
    simp only [response] at h
    simp only [after]
    split at h
    · rename_i found
      simp [found]
    · cases h
    · cases h
  | get key | remove key | size => cases h

/-- A list that has been stored is under its key. -/
theorem next_set {event : Event} {key : String} {value : Value} {ttl : Option Nat} {items : List Value}
    (huse : event.use = .set key value ttl) (hitems : value.data = .list items) :
    s.next event key =
      some { slot := .list items, expires := ttl.map (event.now + ·) } := by
  have stored : value.isLambda = false := by simp [Value.isLambda, Value.lambda?, hitems]
  simp [next, huse, after, stored, Slot.ofValue, hitems]

/-- A use that drains a list under a key takes away its first element, if it pops it, and leaves it
alone otherwise. -/
theorem after_of_drains (now : Nat) {use : Use} {key : String} {items : List Value}
    {expires : Option Nat} (hkey : s key = some { slot := .list items, expires })
    (hdrains : use.Drains key) :
    s.after now use key =
      some { slot := .list (if use.pops key then items.tail else items), expires } := by
  have elsewhere {k : String} (other : k ≠ key) (entry : Option StoreEntry) :
      s.put k entry key = some { slot := .list items, expires } :=
    (put_of_ne (Ne.symm other) s entry).trans hkey
  cases use with
  | set k value ttl => by_cases deferred : value.isLambda <;> simp [after, deferred, elsewhere hdrains, Use.pops, hkey]
  | push k value =>
    simp only [after]
    rcases s k with _ | ⟨_ | _, _⟩
    · exact elsewhere hdrains _
    · exact hkey
    · exact elsewhere hdrains _
  | remove k => exact elsewhere hdrains _
  | pop k millis =>
    by_cases same : k = key
    · subst same
      simp [after, hkey, Use.pops]
    · have spared : (Use.pop k millis).pops key = false := by simp [Use.pops, same]
      rw [spared]
      simp only [after]
      rcases s k with _ | ⟨_ | _, _⟩
      · exact hkey
      · exact hkey
      · exact elsewhere same _
  | get k | size => exact hkey

/-- A list is taken away from its front, one element for each pop. When nothing is left, a pop gives
void. -/
theorem popped_eq {events : List Event} {key : String} {items : List Value} {expires : Option Nat}
    (hevents : s.Accepts events) (hkey : s key = some { slot := .list items, expires })
    (hlasts : ∀ event ∈ events, ∀ time ∈ expires, event.now < time)
    (hdrains : ∀ event ∈ events, event.use.Drains key) :
    events.flatMap (Event.popped key) =
      (List.range (events.flatMap (Event.popped key)).length).map
        fun i => .ok (.value (items.getD i .void)) := by
  induction events generalizing s items with
  | nil => rfl
  | cons event events ih =>
    obtain ⟨hresult, hevents⟩ := hevents
    obtain ⟨lasts, hlasts⟩ := List.forall_mem_cons.1 hlasts
    obtain ⟨drains, hdrains⟩ := List.forall_mem_cons.1 hdrains
    have there : s.asOf event.now key = some { slot := .list items, expires } :=
      asOf_apply_eq_some.2 ⟨hkey, lasts⟩
    have left := after_of_drains event.now there drains
    have rest := ih hevents left hlasts hdrains
    rw [List.flatMap_cons]
    cases pops : event.use.pops key with
    | true =>
      -- The first element is taken, and the rest of the list is drained by the other events.
      rw [if_pos pops] at rest
      have answer : event.popped key = [.ok (.value (items.head?.getD .void))] := by
        rw [Event.popped, if_pos pops, hresult]
        cases huse : event.use with
        | pop k millis =>
          obtain rfl : k = key := by simpa [huse, Use.pops] using pops
          simp [response, there]
        | _ => simp [huse, Use.pops] at pops
      rw [answer, List.singleton_append, List.length_cons, List.range_succ_eq_map, List.map_cons,
        List.map_map, List.cons.injEq]
      refine ⟨by cases items <;> rfl, rest.trans (List.map_congr_left fun i _ => ?_)⟩
      cases items <;> simp
    | false =>
      rw [pops] at rest
      rw [Event.popped, pops]
      exact rest

end Shelf

end Reactor
