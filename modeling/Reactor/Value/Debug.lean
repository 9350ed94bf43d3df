import Reactor.Value.Text

/-!
# Inspection of values

The form of a value that serves to look into it: its type and its text, and the fields of the errors
that are attached.

* `Text.literal` : a text in quotes, with escapes.
* `Error.fields` : all that an error consists of.
* `Value.debug`.
-/

namespace Reactor

namespace Text

/-- The digits of a number to base sixteen, without leading zeros. -/
def hexDigits (n : Nat) : List Char :=
  Nat.toDigits 16 n

/-- A character inside quotes: quotes, backslashes and control characters are escaped. -/
def literalChar (c : Char) : List Char :=
  match c with
  | '"' => ['\\', '"']
  | '\\' => ['\\', '\\']
  | '\n' => ['\\', 'n']
  | '\r' => ['\\', 'r']
  | '\t' => ['\\', 't']
  | '\x00' => ['\\', '0']
  | c =>
    if c.toNat < 32 || (127 ≤ c.toNat && c.toNat < 160) then
      ['\\', 'u', '\x7b'] ++ hexDigits c.toNat ++ ['\x7d']
    else [c]

/-- A text in quotes. -/
def literal (s : String) : String :=
  String.ofList ('"' :: s.toList.flatMap literalChar ++ ['"'])

end Text

/-- The name of a cause as an identifier. -/
def ErrorKind.identifier : ErrorKind → String
  | invalidCast => "InvalidCast"
  | invalidOperation => "InvalidOperation"
  | variableNotFound => "VariableNotFound"
  | readonly => "Readonly"
  | concurrencyViolation => "ConcurrencyViolation"
  | purityViolation => "PurityViolation"
  | constraintViolation => "ConstraintViolation"
  | excessiveRecursion => "ExcessiveRecursion"
  | timeout => "Timeout"
  | exception => "Exception"
  | assertion => "Assertion"

/-- A record by its name and its fields. -/
def recordText (name : String) (fields : List (String × String)) : String :=
  name ++ " \x7b " ++ String.intercalate ", " (fields.map fun (key, text) => key ++ ": " ++ text) ++
    " \x7d"

/-- A list in brackets. -/
def listText (items : List String) : String :=
  "[" ++ String.intercalate ", " items ++ "]"

/-- All that a fragment consists of. -/
def Segment.fields (segment : Segment) : String :=
  recordText "SourceSegment"
    [("text", Text.literal segment.text),
     ("span", "Span(" ++ toString segment.start ++ ".." ++ toString segment.stop ++ ")"),
     ("file", match segment.file with
       | some file => "Some(" ++ Text.literal file ++ ")"
       | none => "None"),
     ("hash", Text.literal segment.hash)]

/-- All that an error consists of. -/
def Error.fields (e : Error) : String :=
  recordText "Error"
    [("kind", e.kind.identifier),
     ("message", Text.literal e.message),
     ("sources", listText (e.sources.map Segment.fields))]

namespace Value

/-- The type and the text for people; a lambda by its operation and a queue by its size. -/
def summary (v : Value) : Eval String :=
  match v.data with
  | .lambda id => Eval.gets fun w => "Lambda(" ++ (w.lambdaAt id).operation ++ ")"
  | .queue id => Eval.gets fun w =>
    "Queue(" ++ toString (w.queueAt id).items.length ++ " items)"
  | data => do return data.type.name ++ "(" ++ (← v.human) ++ ")"

/-- The summary of a value and its errors. -/
def debug (v : Value) : Eval String := do
  let summary ← v.summary
  if v.errors.isEmpty then return summary
  else return summary ++ " errors=" ++ listText (v.errors.map Error.fields)

end Value

end Reactor
