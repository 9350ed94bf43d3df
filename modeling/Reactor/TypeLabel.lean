import Reactor.Error
import Reactor.Text.Blank

/-!
# Type names and labels

* `ValueType.parse` : reads a name, up to ASCII case and blanks around it.
* `TypeLabel` : a tag with an optional constraint name, as in `Integer:positive`.
-/

namespace Reactor

/-- Reads a type name; case and surrounding blanks do not matter. -/
def ValueType.parse (text : String) : Except Error ValueType :=
  let wanted := Text.trimBlank text
  match ValueType.all.find? fun ty => Text.equalsIgnoringCase ty.name wanted with
  | some ty => .ok ty
  | none => .error (.new .invalidCast ("Unknown type '" ++ text ++ "'"))

/-- A type tag with an optional constraint name. -/
structure TypeLabel where
  type : ValueType
  constraint : Option String := none
  deriving DecidableEq, Repr

namespace TypeLabel

/-- Reads `Integer` or `Integer:positive`; the constraint is what follows the first colon. -/
def parse (text : String) : Except Error TypeLabel := do
  match text.toList.span (· ≠ ':') with
  | (tag, _ :: constraint) =>
    let type ← ValueType.parse (String.ofList tag)
    return { type, constraint := some (String.ofList (Text.trimChars constraint)) }
  | (_, []) => return { type := ← ValueType.parse text }

/-- Compares the tag only. -/
def is (label : TypeLabel) (type : ValueType) : Bool :=
  label.type == type

/-- The written form, with the constraint after a colon. -/
def text (label : TypeLabel) : String :=
  match label.constraint with
  | some constraint => label.type.name ++ ":" ++ constraint
  | none => label.type.name

end TypeLabel

end Reactor
