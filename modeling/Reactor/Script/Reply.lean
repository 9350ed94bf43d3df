import Reactor.Decimal.Basic
import Reactor.Prediction.Tally
import Reactor.Script.Rendering
import Reactor.Value.Equality

/-!
# Replies

* `Reply` : what an operation or a question gives. Most give a value; others give a plain truth
  value, number or text, or facts about errors, types and sources.
* `Reply.toValue` : the value that stands for a reply inside an expression.
-/

namespace Reactor

/-- What an operation or a question gives. -/
inductive Reply where
  | value (v : Value)
  | flag (b : Bool)
  | integer (n : Int)
  | decimal (x : Decimal)
  | text (s : String)
  | absent
  | flags (bs : List Bool)
  | errors (es : List Error)
  | error (e : Error)
  | report (r : Report)
  | rendering (r : Rendering)
  | prediction (tally : Tally)
  | typeInfo (type : ValueType)
  | label (label : TypeLabel)
  | span (span : Span)
  | kindInfo (kind : ErrorKind)
  | uri (uri : Uri)
  | segment (segment : Segment)
  deriving Inhabited

namespace Reply

/-- A text, if there is one. -/
def ofText? : Option String → Reply
  | some s => text s
  | none => absent

/-- A number, if there is one. -/
def ofInteger? : Option Int → Reply
  | some n => integer n
  | none => absent

/-- The name of an order. -/
def orderName : Ordering → String
  | .lt => "Less"
  | .eq => "Equal"
  | .gt => "Greater"

/-- An order as a number: -1, 0 or 1. -/
def orderSign : Ordering → Int
  | .lt => -1
  | .eq => 0
  | .gt => 1

/-- The value that stands for a reply inside an expression. -/
def asValue : Reply → Value
  | value v => v
  | flag b => .boolean b
  | integer n => .integer (Int64.ofInt n)
  | decimal x => .decimal x
  | text s => .string s
  | absent => .null
  | _ => .void

/-- The value that stands for a reply, ready to be copied. -/
def toValue (reply : Reply) : Eval Value :=
  reply.asValue.share

end Reply

end Reactor
