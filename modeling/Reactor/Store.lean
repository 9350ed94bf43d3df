import Reactor.Value.Basic

/-!
# Key/value store

A key holds a single value or a list that is used first in, first out. An entry may expire; from
then on its key reads as missing. Times are in milliseconds on a clock that never goes back.

* `Store.get`, `Store.set`, `Store.remove`, `Store.size`.
* `Store.push`, `Store.pop` : the two ends of a list.
-/

namespace Reactor

/-- What a key holds. -/
inductive Slot where
  | single (value : Value)
  | list (items : List Value)
  deriving Inhabited

/-- An entry of the store. -/
structure StoreEntry where
  slot : Slot
  /-- The time from which the entry is gone. -/
  expires : Option Nat := none
  deriving Inhabited

/-- The entry has not expired. -/
def StoreEntry.isLive (entry : StoreEntry) (now : Nat) : Bool :=
  match entry.expires with
  | some expires => now < expires
  | none => true

/-- Values by key. -/
structure Store where
  entries : Entries String StoreEntry := []
  deriving Inhabited

namespace Store

/-- The number of live keys. -/
def size (store : Store) (now : Nat) : Nat :=
  (store.entries.filter fun (_, entry) => entry.isLive now).length

/-- Drops the entry of a key if it has expired. -/
def evict (store : Store) (now : Nat) (key : String) : Store :=
  match Entries.get? store.entries key with
  | some entry => if entry.isLive now then store else { entries := Entries.erase store.entries key }
  | none => store

/-- What a key holds, after the entry has been dropped if it has expired. -/
def get (store : Store) (now : Nat) (key : String) : Value × Store :=
  let store := store.evict now key
  match Entries.get? store.entries key with
  | some { slot := .single value, .. } => (value, store)
  | some { slot := .list items, .. } => (.list items, store)
  | none => (.void, store)

/-- Replaces what a key holds. A list value becomes a list; a deferred value is refused. -/
def set (store : Store) (now : Nat) (key : String) (value : Value) (ttl : Option Nat) :
    Except Error Store :=
  if value.isLambda then .error (.invalidOperation "save" .block)
  else
    let slot :=
      match value.data with
      | .list items => .list items
      | _ => .single value
    .ok { entries := Entries.insert store.entries key { slot, expires := ttl.map (now + ·) } }

/-- Appends to the list at a key, which is created if need be. -/
def push (store : Store) (now : Nat) (key : String) (value : Value) : Except Error Store :=
  let store := store.evict now key
  match Entries.get? store.entries key with
  | none => .ok { entries := Entries.insert store.entries key { slot := .list [value] } }
  | some { slot := .list items, expires } =>
    let entry := { slot := .list (items ++ [value]), expires }
    .ok { entries := Entries.insert store.entries key entry }
  | some { slot := .single old, .. } => .error (.invalidOperation "push" old.tag)

/-- Takes the first element of the list at a key, if there is one. -/
def pop (store : Store) (now : Nat) (key : String) : Except Error (Option Value × Store) :=
  let store := store.evict now key
  match Entries.get? store.entries key with
  | none => .ok (none, store)
  | some { slot := .list [], .. } => .ok (none, store)
  | some { slot := .list (item :: items), expires } =>
    let entry := { slot := .list items, expires }
    .ok (some item, { entries := Entries.insert store.entries key entry })
  | some { slot := .single value, .. } => .error (.invalidOperation "pop" value.tag)

/-- Forgets a key and tells whether it was there. -/
def remove (store : Store) (now : Nat) (key : String) : Bool × Store :=
  ((Entries.get? store.entries key).any (·.isLive now),
    { entries := Entries.erase store.entries key })

end Store

end Reactor
