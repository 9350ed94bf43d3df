import Reactor.Calendar
import Reactor.Engine.Resource
import Reactor.Script.Reply
import Reactor.Value.Cast

/-!
# Questions that involve no value

* `Query.answer` : the answer, which may be a failure.
-/

namespace Reactor

namespace Query

/-- The answer to a question. -/
def answer : Query → Except Error Reply
  | castValid source target => .ok (.flag (Reactor.castValid source target))
  | castRow source =>
    .ok (.text (String.ofList (ValueType.all.map fun target =>
      if Reactor.castValid source target then '1' else '0')))
  | validateCast source target => (Reactor.validateCast source target).map fun _ => .flag true
  | parseType text => (ValueType.parse text).map fun ty => .text ty.name
  | typeInfo text => (ValueType.parse text).map .typeInfo
  | parseLabel text => (TypeLabel.parse text).map .label
  | labelOf type => .ok (.text { type, constraint := none : TypeLabel }.text)
  | span start stop => .ok (.span (Span.new start stop))
  | kindInfo name =>
    .ok (match ErrorKind.ofName? name with
      | some kind => .kindInfo kind
      | none => .absent)
  | parseDate text => .ok (.ofInteger? (Calendar.parse? text))
  | formatDate millis => .ok (.text (Calendar.format millis.toInt))
  | uriParts text => .ok (.uri { text })
  | shortHash text => .ok (.text (Digest.short text))
  | sha256 text => .ok (.text (Digest.ofText text))
  | segment source none => .ok (.segment source)
  | segment source (some (start, stop)) => .ok (.segment (source.slice start stop))
  | error e => .ok (.error e)
  | errorText e => .ok (.text e.describe)
  | report e => .ok (.report { error := e })
  | render e => .ok (.rendering e.render)

end Query

end Reactor
