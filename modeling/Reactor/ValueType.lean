/-!
# Tags of values

* `ValueType` : the tag that every value reports, in the order in which ties are broken.
* `ValueType.name` : its name, which messages and the type parameter of a cast use.
-/

namespace Reactor

/-- The tag of a value, in the order in which ties are broken. -/
inductive ValueType where
  | string
  | integer
  | decimal
  | list
  | map
  | range
  | uri
  | queue
  | boolean
  | date
  | void
  | null
  | error
  | block
  | sequence
  | infinity
  /-- Stands for an input whose type is not known yet. -/
  | any
  deriving DecidableEq, Repr, Inhabited

namespace ValueType

/-- Every tag, in declaration order. -/
def all : List ValueType :=
  [string, integer, decimal, list, map, range, uri, queue, boolean, date, void, null, error, block,
   sequence, infinity, any]

/-- The name of the tag. -/
def name : ValueType → String
  | string => "String"
  | integer => "Integer"
  | decimal => "Decimal"
  | list => "List"
  | map => "Map"
  | range => "Range"
  | uri => "URI"
  | queue => "Queue"
  | boolean => "Boolean"
  | date => "Date"
  | void => "Void"
  | null => "Null"
  | error => "Error"
  | block => "Block"
  | sequence => "Sequence"
  | infinity => "Infinity"
  | any => "Any"

/-- The place of the tag in declaration order. -/
def index (ty : ValueType) : Nat :=
  all.idxOf ty

/-- The tags of numbers. -/
def isNumeric (ty : ValueType) : Bool :=
  ty matches integer | decimal | infinity

/-- The tags of collections. -/
def isCollection (ty : ValueType) : Bool :=
  ty matches list | map | range | sequence | queue

theorem mem_all (ty : ValueType) : ty ∈ all := by cases ty <;> decide

theorem name_injective {s t : ValueType} (h : s.name = t.name) : s = t := by
  cases s <;> cases t <;> first | rfl | (exact absurd h (by decide))

end ValueType

end Reactor
