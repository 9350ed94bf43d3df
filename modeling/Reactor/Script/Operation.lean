import Reactor.Error

/-!
# Operations

* `Query` : questions about types, errors, sources, dates and URIs that involve no value.
* `Operation` : what a script can do with values. The operands are the arguments of a call; what is
  fixed when the script is written is a parameter of the constructor.
-/

namespace Reactor

/-- A question that involves no value. -/
inductive Query where
  | castValid (source target : ValueType)
  | castRow (source : ValueType)
  | validateCast (source target : ValueType)
  | parseType (text : String)
  | typeInfo (text : String)
  | parseLabel (text : String)
  | labelOf (type : ValueType)
  | span (start stop : Nat)
  | kindInfo (name : String)
  | parseDate (text : String)
  | formatDate (millis : Int64)
  | uriParts (text : String)
  | shortHash (text : String)
  | sha256 (text : String)
  | segment (source : Segment) (slice : Option (Nat × Nat))
  | error (error : Error)
  | errorText (error : Error)
  | report (error : Error)
  | render (error : Error)
  deriving Repr, Inhabited

/-- What a script can do with values. -/
inductive Operation where
  -- Arithmetic and logic
  | plus
  | minus
  | multiply
  | divide
  | modulus
  | negate
  | abs
  | sign
  | inc
  | dec
  | not
  | and
  | or
  | equals
  -- Collections
  | append
  | prepend
  | remove
  | get
  | set
  | withEntry (key : String)
  | keys
  | first
  | last
  | sum
  | product
  | min
  | max
  | avg
  | sort
  | reverse
  | unique
  | toList
  | toMap
  | each
  | pipe
  | default
  | size
  | isEmpty
  | containsValue
  | containsKey
  | has (key : String)
  -- Errors, tags, types
  | withError (error : Error)
  | withErrorsOf
  | clearErrors
  | onErrors
  | intoResult
  | hasErrors
  | errors
  | withTag (key text : String)
  | withTagOnce (key text : String)
  | tag (key : String)
  | constrain (source : String)
  | fingerprint
  | cast (target : ValueType)
  | is (type : ValueType)
  | labelIs (type : ValueType)
  | type
  | typeLabel
  | kinds
  | truth
  -- Comparison
  | eq
  | lt
  | ge
  | compare
  | partialCompare
  | isZero
  | isNegative
  | isPositive
  | truthy
  | isVoid
  | isPending
  -- Texts and numbers
  | toInteger
  | toDecimal
  | asInteger
  | asString
  | human
  | display
  | script
  | json
  | debug
  | fromJson (text : String)
  | parseJson
  -- Deferred values
  | copy
  | forced
  | notify
  | fix (parallel : Bool)
  | fixDeep (parallel : Bool)
  | fixDepth (depth : Nat) (parallel : Bool)
  | hasRuntime
  | predict
  -- Streams
  | read (blocking mutating : Bool)
  | write (blocking mutating : Bool)
  | peek
  | poll
  | pop
  | popTimeout (millis : Nat)
  | push
  | publish
  | drain
  | all
  | unsubscribe (id : String)
  | query (query : Query)
  deriving Repr, Inhabited

end Reactor
