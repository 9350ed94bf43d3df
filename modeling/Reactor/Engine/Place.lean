import Reactor.Value.Basic

/-!
# Places

The state of the engine is spread over records that refer to one another by names.

* `ScopeId`, `VariableId`, `ForkId`, `ThreadId` : names of scopes, variables, forks and threads.
* `Place` : a part of the state that can hold values.
* `Value.places` : the places that a value names.
-/

namespace Reactor

/-- Names a scope of the engine. -/
structure ScopeId where
  index : Nat
  deriving DecidableEq, Hashable, Repr, Inhabited

/-- Names a variable of the engine. -/
structure VariableId where
  index : Nat
  deriving DecidableEq, Hashable, Repr, Inhabited

/-- Names a forked computation. -/
structure ForkId where
  index : Nat
  deriving DecidableEq, Hashable, Repr, Inhabited

/-- Names a thread. -/
abbrev ThreadId := Nat

/-- A part of the state that can hold values. -/
inductive Place where
  | scope (id : ScopeId)
  | variable (id : VariableId)
  | lambda (id : LambdaId)
  | queue (id : QueueId)
  | cell (id : CellId)
  | fork (id : ForkId)
  deriving DecidableEq, Hashable, Repr

/-- The place of a resource. -/
def Resource.place : Resource → Place
  | .queue id => .queue id
  | .cell id => .cell id

mutual

/-- The places that a value names, in front of others. -/
def Value.placesBefore : Value → List Place → List Place
  | .mk data _, rest => dataPlacesBefore data rest

/-- The places that a payload names, in front of others. -/
def dataPlacesBefore : Data → List Place → List Place
  | .lambda id, rest => .lambda id :: rest
  | .queue id, rest => .queue id :: rest
  | .uri uri, rest => uri.resource.toList.map Resource.place ++ rest
  | .list items, rest => itemsPlacesBefore items rest
  | .sequence items, rest => itemsPlacesBefore items rest
  | .map entries, rest => entriesPlacesBefore entries rest
  | .range start stop, rest => start.placesBefore (stop.placesBefore rest)
  | _, rest => rest

/-- The places that some values name, those of the last one first, in front of others. -/
def itemsPlacesBefore : List Value → List Place → List Place
  | [], rest => rest
  | item :: items, rest => itemsPlacesBefore items (item.placesBefore rest)

/-- The places that the values of a map name, those of the last one first, in front of others. -/
def entriesPlacesBefore : List (String × Value) → List Place → List Place
  | [], rest => rest
  | (_, item) :: entries, rest => entriesPlacesBefore entries (item.placesBefore rest)

end

/-- The places that a value names. -/
def Value.places (v : Value) : List Place :=
  v.placesBefore []

/-- The places that some values name. -/
def itemsPlaces (items : List Value) : List Place :=
  itemsPlacesBefore items []

/-- The places that the values of a map name. -/
def entriesPlaces (entries : List (String × Value)) : List Place :=
  entriesPlacesBefore entries []

/-- A lambda names itself. -/
theorem Value.places_of_lambda? {v : Value} {id : LambdaId} (h : v.lambda? = some id) :
    v.places = [.lambda id] := by
  obtain ⟨data, notes⟩ := v
  cases data <;> simp_all [lambda?, places, placesBefore, dataPlacesBefore]

theorem itemsPlaces_nil : itemsPlaces [] = [] := rfl

theorem entriesPlaces_nil : entriesPlaces [] = [] := rfl

end Reactor
