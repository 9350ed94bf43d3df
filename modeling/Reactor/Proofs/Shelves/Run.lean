import Reactor.Proofs.Reaches
import Reactor.Proofs.Shelves.Shelf
import Reactor.Session.Run

/-!
# Runs on the store

A run is made of uses of the store at times that never go back, by whatever threads, and of anything else
that leaves the store alone. A pop that finds nothing waits until its time is over.

What happens in a run is what happens at a shelf (`Store.refines_shelf`), although the store drops an entry
whose time has come only when its key is used. The store and the shelf agree on what is left at the present
time (`Store.step`); so they agree at every later time, and the proof is an induction on the run.
-/

namespace Reactor

open Outcome (Reaches)

namespace Store

/-- The store as a shelf. Entries whose time has come may still be on it. -/
def shelf (store : Store) : Shelf :=
  Entries.get? store.entries

/-- A key has at most one entry. -/
def Sound (store : Store) : Prop :=
  (Entries.keys store.entries).Nodup

/-- A use of the store by the engine. -/
def Use.perform : Use → Eval Response
  | .set key value ttl => do
    useStore fun store now => (store.set now key value ttl).map fun store => ((), store)
    return .done
  | .push key value => do
    useStore fun store now => (store.push now key value).map fun store => ((), store)
    return .done
  | .pop key millis => do return .value (← popStore key millis)
  | .get key => do return .value (← useStore fun store now => .ok (store.get now key))
  | .remove key => do return .found (← useStore fun store now => .ok (store.remove now key))
  | .size => do return .size (← Eval.gets fun w => w.store.size w.now)

end Store

/-- Time has passed and the store has been left alone. -/
structure World.Idles (u v : World) : Prop where
  store : v.store = u.store
  now : u.now ≤ v.now

namespace Store

/-- In a run on the store some events happen, from one state to another one. -/
inductive Run : World → List Event → World → Prop
  | aside {u v : World} (h : u.Idles v) : Run u [] v
  | trans {u v w : World} {events more : List Event} (h : Run u events v) (h' : Run v more w) :
    Run u (events ++ more) w
  | used {use : Use} {ctx : Context} {response : Response} {w v : World}
    (h : (use.perform ctx w).Reaches World.Idles (.value response v)) :
    Run w [{ before := w.store, now := w.now, use, result := .ok response, after := v.store }] v
  | failed {use : Use} {ctx : Context} {e : Error} {w v : World}
    (h : (use.perform ctx w).Reaches World.Idles (.error e v)) :
    Run w [{ before := w.store, now := w.now, use, result := .error e, after := v.store }] v

/-- What happens from one state of the store to another one is as it is with a shelf. -/
structure Refines (s : Shelf) (events : List Event) (store : Store) (now : Nat) : Prop where
  /-- All answers are those of the shelf. -/
  accepts : s.Accepts events
  final : store.shelf.asOf now = (events.foldl Shelf.next s).asOf now
  /-- A use that fails leaves what is there as it was. -/
  failed {event : Event} (h : event ∈ events) {e : Error} (he : event.result = .error e) :
    event.after.shelf.asOf event.now = event.before.shelf.asOf event.now
  /-- The elements of a list that has been stored are popped one by one in order, unless its time
  comes. -/
  popped {before after : List Event} {event : Event} (hevents : events = before ++ event :: after)
    {key : String} {value : Value} {ttl : Option Nat} {items : List Value}
    (huse : event.use = .set key value ttl) (hitems : value.data = .list items)
    (hlasts : ∀ later ∈ after, ∀ millis ∈ ttl, later.now < event.now + millis)
    (hdrains : ∀ later ∈ after, later.use.Drains key) :
    after.flatMap (Event.popped key) =
      (List.range (after.flatMap (Event.popped key)).length).map
        fun i => .ok (.value (items.getD i .void))

/-! ## Eviction -/

theorem isLive_iff {entry : StoreEntry} {now : Nat} : entry.isLive now = true ↔ entry.Lasts now := by
  unfold StoreEntry.isLive StoreEntry.Lasts
  cases entry.expires <;> simp

variable {store : Store} {now : Nat}

theorem shelf_insert (store : Store) (key : String) (entry : StoreEntry) :
    ({ entries := Entries.insert store.entries key entry } : Store).shelf =
      store.shelf.put key (some entry) := by
  funext k
  simp only [shelf, Entries.get?_insert]
  by_cases h : k = key
  · subst h
    simp
  · rw [if_neg (Ne.symm h), Shelf.put_of_ne h]

theorem shelf_erase (store : Store) (key : String) :
    ({ entries := Entries.erase store.entries key } : Store).shelf = store.shelf.put key none := by
  funext k
  simp only [shelf, Entries.get?_erase]
  by_cases h : k = key
  · subst h
    simp
  · rw [if_neg (Ne.symm h), Shelf.put_of_ne h]

/-- After the eviction of a key there is under it what is left at the time, and nothing else has
changed. -/
theorem shelf_evict (store : Store) (now : Nat) (key : String) :
    (store.evict now key).shelf = store.shelf.put key (store.shelf.asOf now key) := by
  have unchanged : store.shelf.put key (store.shelf key) = store.shelf := Function.update_eq_self ..
  unfold evict
  cases found : store.shelf key with
  | none =>
    rw [show Entries.get? store.entries key = none from found, Shelf.asOf, found, Option.filter_none]
    exact (found ▸ unchanged).symm
  | some entry =>
    rw [show Entries.get? store.entries key = some entry from found]
    by_cases lasts : entry.Lasts now
    · simp only [isLive_iff.2 lasts, if_true]
      rw [Shelf.asOf_apply_eq_some.2 ⟨found, lasts⟩, ← found, unchanged]
    · simp only [isLive_iff, if_neg lasts]
      rw [shelf_erase, Shelf.asOf, found]
      simp [Option.filter, lasts]

theorem asOf_evict (store : Store) (now : Nat) (key : String) :
    (store.evict now key).shelf.asOf now = store.shelf.asOf now := by
  rw [shelf_evict, Shelf.asOf_put]
  funext k
  by_cases h : k = key
  · subst h
    rw [Shelf.put_same]
    exact congrFun (Shelf.asOf_asOf (s := store.shelf) (Nat.le_refl now)) k
  · rw [Shelf.put_of_ne h]

/-- What the engine finds under a key, once the key is evicted. -/
theorem get?_evict (store : Store) (now : Nat) (key : String) :
    Entries.get? (store.evict now key).entries key = store.shelf.asOf now key := by
  rw [show Entries.get? (store.evict now key).entries key = (store.evict now key).shelf key from rfl,
    shelf_evict, Shelf.put_same]

theorem Sound.insert (h : store.Sound) (key : String) (entry : StoreEntry) :
    ({ entries := Entries.insert store.entries key entry } : Store).Sound := by
  unfold Sound
  rw [Entries.keys_insert]
  split
  · exact h
  · rename_i new
    exact List.nodup_append.2 ⟨h, by simp, fun a ha b hb => by
      rw [List.mem_singleton.1 hb]; exact fun same => new (same ▸ ha)⟩

theorem Sound.erase (h : store.Sound) (key : String) :
    ({ entries := Entries.erase store.entries key } : Store).Sound :=
  h.sublist (List.filter_sublist.map _)

theorem Sound.evict (h : store.Sound) (now : Nat) (key : String) : (store.evict now key).Sound := by
  unfold Store.evict
  split
  · split
    · exact h
    · exact h.erase key
  · exact h

/-! ## Uses -/

/-- What a use of the store gives, and what it leaves, is as it is with the shelf at that time. -/
def AsShelf (store : Store) (now : Nat) (use : Use) (result : Except Error Response) (left : Store) :
    Prop :=
  result = (store.shelf.asOf now).response use ∧
    left.shelf.asOf now = ((store.shelf.asOf now).after now use).asOf now ∧ left.Sound

theorem asShelf_set (now : Nat) (h : store.Sound) (key : String) (value : Value) (ttl : Option Nat) :
    match store.set now key value ttl with
    | .ok left => store.AsShelf now (.set key value ttl) (.ok .done) left
    | .error e => store.AsShelf now (.set key value ttl) (.error e) store := by
  by_cases deferred : value.isLambda
  · simp only [Store.set, deferred, if_true]
    refine ⟨by simp [Shelf.response, deferred], ?_, h⟩
    simp only [Shelf.after, deferred, if_true]
    exact (Shelf.asOf_asOf (Nat.le_refl now)).symm
  · simp only [Store.set, deferred]
    refine ⟨by simp [Shelf.response, deferred], ?_, h.insert _ _⟩
    simp only [Shelf.after, deferred]
    rw [shelf_insert, if_neg Bool.false_ne_true, Shelf.asOf_put, Shelf.asOf_put,
      Shelf.asOf_asOf (Nat.le_refl now)]
    rfl

/-- An entry that is put into the evicted store is put on the shelf. -/
theorem asOf_insert_evict (store : Store) (now : Nat) (key : String) (entry : StoreEntry) :
    ({ entries := Entries.insert (store.evict now key).entries key entry } : Store).shelf.asOf now =
      ((store.shelf.asOf now).put key (some entry)).asOf now := by
  rw [shelf_insert, Shelf.asOf_put, Shelf.asOf_put, asOf_evict, Shelf.asOf_asOf (Nat.le_refl now)]

/-- The evicted store holds what is on the shelf. -/
theorem asOf_evict_eq (store : Store) (now : Nat) (key : String) :
    (store.evict now key).shelf.asOf now = (store.shelf.asOf now).asOf now := by
  rw [asOf_evict, Shelf.asOf_asOf (Nat.le_refl now)]

theorem asShelf_push (now : Nat) (h : store.Sound) (key : String) (value : Value) :
    match store.push now key value with
    | .ok left => store.AsShelf now (.push key value) (.ok .done) left
    | .error e => store.AsShelf now (.push key value) (.error e) store := by
  simp only [Store.push, get?_evict]
  rcases found : store.shelf.asOf now key with _ | ⟨old | items, expires⟩
  · refine ⟨by simp [Shelf.response, found], ?_, (h.evict now key).insert _ _⟩
    rw [asOf_insert_evict]
    simp only [Shelf.after, found]
  · refine ⟨by simp [Shelf.response, found], ?_, h⟩
    simp only [Shelf.after, found]
    exact (Shelf.asOf_asOf (Nat.le_refl now)).symm
  · refine ⟨by simp [Shelf.response, found], ?_, (h.evict now key).insert _ _⟩
    rw [asOf_insert_evict]
    simp only [Shelf.after, found]

theorem asShelf_pop (now : Nat) (h : store.Sound) (key : String) (millis : Nat) :
    match store.pop now key with
    | .ok (item, left) => store.AsShelf now (.pop key millis) (.ok (.value (item.getD .void))) left
    | .error e => store.AsShelf now (.pop key millis) (.error e) store := by
  simp only [Store.pop, get?_evict]
  rcases found : store.shelf.asOf now key with _ | ⟨old | _ | ⟨item, items⟩, expires⟩
  · refine ⟨by simp [Shelf.response, found], ?_, h.evict now key⟩
    simp only [Shelf.after, found]
    exact asOf_evict_eq ..
  · refine ⟨by simp [Shelf.response, found], ?_, h⟩
    simp only [Shelf.after, found]
    exact (Shelf.asOf_asOf (Nat.le_refl now)).symm
  · -- An empty list stays under its key.
    have same : (store.shelf.asOf now).put key (store.shelf.asOf now key) = store.shelf.asOf now :=
      Function.update_eq_self ..
    refine ⟨by simp [Shelf.response, found], ?_, h.evict now key⟩
    simp only [Shelf.after, found, List.tail_nil]
    rw [← found, same]
    exact asOf_evict_eq ..
  · refine ⟨by simp [Shelf.response, found], ?_, (h.evict now key).insert _ _⟩
    rw [asOf_insert_evict]
    simp only [Shelf.after, found, List.tail_cons]

theorem asShelf_get (h : store.Sound) (key : String) :
    store.AsShelf now (.get key) (.ok (.value (store.get now key).1)) (store.get now key).2 := by
  simp only [Store.get, get?_evict]
  rcases found : store.shelf.asOf now key with _ | ⟨old | items, expires⟩ <;>
    exact ⟨by simp [Shelf.response, found, Slot.value], asOf_evict_eq .., h.evict now key⟩

theorem asShelf_remove (h : store.Sound) (key : String) :
    store.AsShelf now (.remove key) (.ok (.found (store.remove now key).1)) (store.remove now key).2 := by
  refine ⟨?_, ?_, h.erase key⟩
  · simp only [Store.remove, Shelf.response]
    rw [show Entries.get? store.entries key = store.shelf key from rfl, Shelf.asOf]
    cases store.shelf key with
    | none => rfl
    | some entry =>
      by_cases lasts : entry.Lasts now
      · simp [Option.filter, isLive_iff.2 lasts, lasts]
      · simp [Option.filter, Bool.eq_false_iff.2 (isLive_iff.not.2 lasts), lasts]
  · rw [show (store.remove now key).2.shelf = _ from shelf_erase store key]
    simp only [Shelf.after, Shelf.asOf_put]
    rw [Shelf.asOf_asOf (Nat.le_refl now)]

/-- The entries that have not expired are the keys of the shelf. -/
theorem size_eq_ncard (h : store.Sound) :
    store.size now = {key | (store.shelf.asOf now key).isSome}.ncard := by
  have live : {key | (store.shelf.asOf now key).isSome} =
      ↑(((store.entries.filter fun entry => entry.2.isLive now).map (·.1)).toFinset) := by
    ext key
    simp only [Set.mem_ofPred_eq, List.coe_toFinset, List.mem_map, List.mem_filter, isLive_iff,
      Option.isSome_iff_exists, Shelf.asOf_apply_eq_some]
    constructor
    · rintro ⟨entry, found, lasts⟩
      exact ⟨(key, entry), ⟨Entries.mem_of_get?_eq_some found, lasts⟩, rfl⟩
    · rintro ⟨⟨k, entry⟩, ⟨member, lasts⟩, rfl⟩
      exact ⟨entry, Entries.get?_of_mem h member, lasts⟩
  rw [live, Set.ncard_coe_finset, List.toFinset_card_of_nodup, List.length_map, Store.size]
  exact h.sublist (List.filter_sublist.map _)

theorem asShelf_size (h : store.Sound) :
    store.AsShelf now .size (.ok (.size (store.size now))) store :=
  ⟨congrArg (fun n => Except.ok (Response.size n)) (size_eq_ncard h), (Shelf.asOf_asOf (Nat.le_refl now)).symm, h⟩

/-! ## Runs -/

theorem useStore_apply {α : Type} (f : Store → Nat → Except Error (α × Store)) (ctx : Context)
    (w : World) :
    useStore f ctx w =
      match f w.store w.now with
      | .ok (a, store) => .value a { w with store }
      | .error e => .error e w := by
  unfold useStore
  rw [Eval.bind_apply, Eval.world_apply, Outcome.bind_value, Eval.bind_apply]
  cases f w.store w.now with
  | error e => rfl
  | ok result => rfl

/-- A use of the store ends with an answer or a failure as with the shelf at the time when it began. -/
def Ends (use : Use) (w : World) : Outcome Response → Prop
  | .value response v => AsShelf w.store w.now use (.ok response) v.store ∧ w.now ≤ v.now
  | .error e v => AsShelf w.store w.now use (.error e) v.store ∧ w.now ≤ v.now
  | _ => False

/-- A use that changes the store at once. -/
theorem ends_useStore {α : Type} (answer : α → Response) {w : World} {use : Use}
    {f : Store → Nat → Except Error (α × Store)} {ctx : Context} {y : Outcome Response}
    (hf : match f w.store w.now with
      | .ok (a, store) => AsShelf w.store w.now use (.ok (answer a)) store
      | .error e => AsShelf w.store w.now use (.error e) w.store)
    (h : ((useStore f >>= fun a => pure (answer a)) ctx w).Reaches World.Idles y) : Ends use w y := by
  rw [Eval.bind_apply, useStore_apply] at h
  cases hresult : f w.store w.now with
  | ok result =>
    rw [hresult] at hf h
    obtain rfl := Outcome.reaches_value_iff.1 h
    exact ⟨hf, Nat.le_refl _⟩
  | error e =>
    rw [hresult] at hf h
    obtain rfl := Outcome.reaches_error_iff.1 h
    exact ⟨hf, Nat.le_refl _⟩

/-- A pop that finds nothing leaves what it found when its time is over. -/
theorem ends_pop {w : World} (hsound : w.store.Sound) {key : String} {millis : Nat} {ctx : Context}
    {y : Outcome Response} (h : ((Use.pop key millis).perform ctx w).Reaches World.Idles y) :
    Ends (.pop key millis) w y := by
  have asShelf := asShelf_pop w.now hsound key millis
  simp only [Use.perform, popStore, Eval.bind_apply, useStore_apply] at h
  cases hpop : w.store.pop w.now key with
  | error e =>
    rw [hpop] at h asShelf
    obtain rfl := Outcome.reaches_error_iff.1 h
    exact ⟨asShelf, Nat.le_refl _⟩
  | ok result =>
    obtain ⟨item, store⟩ := result
    rw [hpop] at h asShelf
    cases item with
    | some item =>
      obtain rfl := Outcome.reaches_value_iff.1 h
      exact ⟨asShelf, Nat.le_refl _⟩
    | none =>
      by_cases hmillis : millis = 0
      · subst hmillis
        obtain rfl := Outcome.reaches_value_iff.1 h
        exact ⟨asShelf, Nat.le_refl _⟩
      · simp only [Outcome.bind_value, ne_eq, hmillis, not_false_eq_true, if_true, Eval.bind_apply,
          Eval.gets_apply, Eval.wait_apply, Outcome.bind] at h
        cases h with
        | waiting idles h =>
          obtain rfl := Outcome.reaches_value_iff.1 h
          have same : (World.unpark _ ctx.thread.id).store = store := idles.store
          exact ⟨same ▸ asShelf, idles.now⟩

/-- A use of the store is a step of the shelf. -/
theorem step {w : World} (hsound : w.store.Sound) {use : Use} {ctx : Context} {y : Outcome Response}
    (h : (use.perform ctx w).Reaches World.Idles y) : Ends use w y := by
  cases use with
  | set key value ttl =>
    refine ends_useStore (fun _ => .done) ?_ h
    have asShelf := asShelf_set w.now hsound key value ttl
    cases hset : w.store.set w.now key value ttl <;> simpa only [hset, Except.map] using asShelf
  | push key value =>
    refine ends_useStore (fun _ => .done) ?_ h
    have asShelf := asShelf_push w.now hsound key value
    cases hpush : w.store.push w.now key value <;> simpa only [hpush, Except.map] using asShelf
  | pop key millis => exact ends_pop hsound h
  | get key => exact ends_useStore .value (asShelf_get hsound key) h
  | remove key => exact ends_useStore .found (asShelf_remove hsound key) h
  | size =>
    obtain rfl := Outcome.reaches_value_iff.1 h
    exact ⟨asShelf_size hsound, Nat.le_refl _⟩

/-- The store and a shelf go on together: the events are those of the shelf, and what is left in the end
is the same. -/
structure Agrees (s : Shelf) (events : List Event) (store : Store) (now : Nat) : Prop where
  accepts : s.Accepts events
  final : store.shelf.asOf now = (events.foldl Shelf.next s).asOf now
  sound : store.Sound
  failed {event : Event} (h : event ∈ events) {e : Error} (he : event.result = .error e) :
    event.after.shelf.asOf event.now = event.before.shelf.asOf event.now

theorem AsShelf.agrees {w v : World} {use : Use} {result : Except Error Response} {s : Shelf}
    (h : AsShelf w.store w.now use result v.store) (hnow : w.now ≤ v.now)
    (hs : w.store.shelf.asOf w.now = s.asOf w.now) :
    Agrees s [{ before := w.store, now := w.now, use, result, after := v.store }] v.store v.now := by
  obtain ⟨hresult, left, sound⟩ := h
  refine ⟨⟨hs ▸ hresult, trivial⟩, ?_, sound, fun hevent e he => ?_⟩
  · rw [hs] at left
    exact Shelf.asOf_congr left hnow
  · obtain rfl := List.mem_singleton.1 hevent
    have same := Shelf.after_of_failed w.now (hresult.symm.trans he)
    rw [left, same, Shelf.asOf_asOf (Nat.le_refl _)]

theorem Run.agrees {w v : World} {events : List Event} (h : Run w events v) (hsound : w.store.Sound)
    {s : Shelf} (hs : w.store.shelf.asOf w.now = s.asOf w.now) : Agrees s events v.store v.now := by
  induction h generalizing s with
  | aside idles =>
    refine ⟨trivial, ?_, idles.store ▸ hsound, fun h => (List.not_mem_nil h).elim⟩
    rw [idles.store]
    exact Shelf.asOf_congr hs idles.now
  | trans _ _ ih ih' =>
    have first := ih hsound hs
    have rest := ih' first.sound first.final
    refine ⟨Shelf.accepts_append.2 ⟨first.accepts, rest.accepts⟩, ?_, rest.sound, fun hevent e he => ?_⟩
    · rw [List.foldl_append]
      exact rest.final
    · exact (List.mem_append.1 hevent).elim (first.failed · he) (rest.failed · he)
  | used h =>
    obtain ⟨asShelf, hnow⟩ := step hsound h
    exact asShelf.agrees hnow hs
  | failed h =>
    obtain ⟨asShelf, hnow⟩ := step hsound h
    exact asShelf.agrees hnow hs

/-- **A store is a shelf.** In every run the answers are those of a map from keys to values and lists in
which an entry is gone as soon as its time has come. A use that fails leaves what is there as it was, and
a list that is stored is popped element by element. -/
theorem refines_shelf {w v : World} {events : List Event} (h : Run w events v)
    (hsound : w.store.Sound) : Refines w.store.shelf events v.store v.now := by
  have agrees := h.agrees hsound rfl
  refine ⟨agrees.accepts, agrees.final, agrees.failed, ?_⟩
  rintro before after event rfl key value ttl items huse hitems hlasts hdrains
  obtain ⟨-, -, rest⟩ := Shelf.accepts_append.1 agrees.accepts
  refine Shelf.popped_eq rest (Shelf.next_set huse hitems) (fun later hlater time htime => ?_) hdrains
  obtain ⟨millis, hmillis, rfl⟩ := Option.mem_map.1 htime
  exact hlasts later hlater millis hmillis

/-- A list is popped, and the value after it refuses to be pushed onto. When the time of the value has come,
its key reads as missing. -/
theorem missing_in_time :
    let w : World := {}
    ∃ v events,
      events.map Event.result =
          [.ok .done, .ok (.value (.integer 1)), .ok .done,
            .error (.invalidOperation "push" .boolean), .ok (.value .void)] ∧
        w.store.Sound ∧ Run w events v ∧ Refines w.store.shelf events v.store v.now := by
  intro w
  have sound : w.store.Sound := List.nodup_nil
  let ctx := Context.ofBudget 0 { id := 0 }
  have stored := Run.used (show Reaches _
    ((Use.set "job" (.list [.integer 1, .integer 2]) none).perform ctx w) _ from .value)
  have popped := stored.trans (.used
    (show Reaches _ ((Use.pop "job" 0).perform ctx _) _ from .value))
  have single := popped.trans (.used
    (show Reaches _ ((Use.set "job" (.boolean true) (some 20)).perform ctx _) _ from .value))
  have refused := single.trans (.failed
    (show Reaches _ ((Use.push "job" .void).perform ctx _) _ from .error))
  have waited := refused.trans (.aside
    (show World.Idles _ { w with store := _, now := w.now + 20 } from ⟨rfl, by decide⟩))
  have missing := waited.trans (.used
    (show Reaches _ ((Use.get "job").perform ctx _) _ from .value))
  exact ⟨_, _, rfl, sound, missing, refines_shelf missing sound⟩

end Store

end Reactor
