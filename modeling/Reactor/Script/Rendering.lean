import Reactor.Engine.World

/-!
# Rendered errors

* `lineAndColumn` : where a byte of a text stands.
* `Rendering` : the parts of an error as it is shown to people.
* `Error.render` : an error that passed through sources is shown at the innermost one. Further
  fragments of the same text are labels beside it, fragments of other texts are notes below it.
-/

namespace Reactor

/-- The characters that end a line. -/
def endsLine (c : Char) : Bool :=
  c == '\n' || c == '\r' || c == '\x0b' || c == '\x0c' || c == '\u0085' || c == '\u2028' ||
    c == '\u2029'

/-- Walks over characters up to a byte and counts from a line and a column. A carriage return with
its line feed ends one line, and no line starts behind the last character. -/
def walk (line column : Nat) : Nat → List Char → Nat × Nat
  | _, [] => (line, column)
  | bytes, c :: rest =>
    if bytes < c.utf8Size then (line, column)
    else
      let ends := endsLine c && !rest.isEmpty && !(c == '\r' && rest.head? == some '\n')
      if ends then walk (line + 1) 1 (bytes - c.utf8Size) rest
      else walk line (column + 1) (bytes - c.utf8Size) rest

/-- The line and the column at which a byte of a text stands, both counted from one and the column
in characters. -/
def lineAndColumn (text : String) (byte : Nat) : Nat × Nat :=
  walk 1 1 byte text.toList

/-- An error as it is shown to people. -/
inductive Rendering where
  /-- One line, for an error without sources. -/
  | plain (text : String)
  /-- The first line, the position, the texts of the labels in order of their text, and the
  notes. -/
  | located (head position : String) (labels notes : List String)
  deriving DecidableEq, Repr, Inhabited

/-- The source is a fragment of the same text as another one. -/
def Segment.sharesText (source other : Segment) : Bool :=
  source.text == other.text && source.name == other.name

/-- Shows an error. -/
def Error.render (e : Error) : Rendering :=
  match e.sources with
  | [] => .plain ("[" ++ e.kind.code ++ "] " ++ e.describe ++ "\n")
  | primary :: outer =>
    let (line, column) := lineAndColumn primary.text primary.start
    let position := primary.name ++ ":" ++ toString line ++ ":" ++ toString column
    let inside := outer.filter (·.sharesText primary)
    let labels := inside.map fun source => "while evaluating \x60" ++ source.fragment ++ "\x60"
    let notes := outer.filter fun source => !source.sharesText primary
    .located ("[" ++ e.kind.code ++ "] Error: " ++ e.describe) position
      ((e.message :: labels).mergeSort fun s t => !(t < s)) (notes.map Segment.describe)

end Reactor
