import Reactor.Decimal.Basic
import Reactor.Script.Operation

/-!
# Scripts

* `Expr` : the expressions that hosts hand to the engine, as initial values, as bodies of lambdas,
  listeners and handlers, and as steps of a session.
-/

namespace Reactor

/-- An expression. It is evaluated in a scope, with an optional current item. -/
inductive Expr where
  | void
  | null
  | typedNull (type : ValueType)
  | boolean (b : Bool)
  | integer (n : Int64)
  | decimal (x : Decimal)
  | string (s : String)
  | date (millis : Int64)
  | infinity (positive : Bool)
  | list (items : List Expr)
  | sequence (items : List Expr)
  | map (entries : List (String × Expr))
  | range (start stop : Expr)
  | uri (text : String)
  /-- A new queue, onto which the items are pushed. -/
  | queue (items : List Expr)
  /-- An error as a value. -/
  | failure (error : Error)
  /-- The value inside `depth` lists of one element. -/
  | nest (depth : Nat) (e : Expr)
  | register (name : String)
  | item
  | lookup (name : String) (must : Bool)
  | parameter (name : String)
  | set (name : String) (e : Expr)
  | declare (name : String) (e : Expr)
  /-- Fails with an error. -/
  | fail (error : Error)
  /-- Breaks off the thread, with a message if it is a text. -/
  | panic (message : Option String)
  /-- All in order; the value is that of the last. -/
  | block (es : List Expr)
  | cond (test yes no : Expr)
  | log (e : Expr)
  | count (name : String)
  /-- A new lambda. Without a source it has that of its scope. -/
  | lambda (operation : String) (inputs : List Expr) (body : Expr) (source : Option Segment)
      (fixable : Bool)
  /-- Forces a new lambda whose body is the definition of the name. -/
  | invoke (name : String)
  | call (op : Operation) (args : List Expr) (body : Option Expr)
  deriving Inhabited

end Reactor
