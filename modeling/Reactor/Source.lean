import Reactor.Digest
import Reactor.Text.Bytes

/-!
# Fragments of a script

* `Segment` : a span of a text, with the name of the file it was read from.
* `Segment.hash` : the short digest by which a fragment is recognised in a chain of sources.
* `Segment.describe` : its form in messages, `fragment (name:line) [hash]`.
-/

namespace Reactor

/-- A span of bytes inside a source text. -/
structure Segment where
  /-- The whole text. -/
  text : String
  /-- Byte offset of the first byte of the fragment. -/
  start : Nat
  /-- Byte offset after the last byte of the fragment. -/
  stop : Nat
  /-- The file that the text was read from, if any. -/
  file : Option String := none
  deriving DecidableEq, Repr, Inhabited

namespace Segment

/-- The segment over a span, which is clamped to the text. -/
def ofSpan (text : String) (start stop : Nat) : Segment :=
  let stop := min stop text.utf8ByteSize
  { text, start := min start stop, stop }

/-- The segment that covers all of a text. -/
def whole (text : String) : Segment :=
  ofSpan text 0 text.utf8ByteSize

/-- The same segment, read from a file. -/
def withFile (segment : Segment) (file : String) : Segment :=
  { segment with file := some file }

/-- Another span of the same text and file. -/
def slice (segment : Segment) (start stop : Nat) : Segment :=
  { ofSpan segment.text start stop with file := segment.file }

/-- The text of the span; empty if the span cuts a character. -/
def fragment (segment : Segment) : String :=
  (Text.sliceBytes? segment.text segment.start segment.stop).getD ""

/-- First eight digits of the digest of the fragment. -/
def hash (segment : Segment) : String :=
  Digest.short segment.fragment

/-- The file name, or a stand-in for a text that has none. -/
def name (segment : Segment) : String :=
  segment.file.getD "<script>"

/-- The text before the fragment; empty if the fragment starts inside a character. -/
def leading (segment : Segment) : List Char :=
  ((Text.splitAtByte? segment.text.toList segment.start).map (·.1)).getD []

/-- The line on which the fragment starts, counted from 1. -/
def line (segment : Segment) : Nat :=
  segment.leading.count '\n' + 1

/-- The column at which the fragment starts, in characters and counted from 1. -/
def column (segment : Segment) : Nat :=
  (segment.leading.reverse.takeWhile (· ≠ '\n')).length + 1

/-- The form used in messages. -/
def describe (segment : Segment) : String :=
  segment.fragment ++ " (" ++ segment.name ++ ":" ++ toString segment.line ++ ") [" ++
    segment.hash ++ "]"

theorem start_le_stop (text : String) (start stop : Nat) :
    (ofSpan text start stop).start ≤ (ofSpan text start stop).stop :=
  Nat.min_le_right _ _

theorem stop_le_size (text : String) (start stop : Nat) :
    (ofSpan text start stop).stop ≤ text.utf8ByteSize :=
  Nat.min_le_right _ _

end Segment

/-- A span of bytes whose end is not before its start. -/
structure Span where
  start : Nat
  stop : Nat
  start_le_stop : start ≤ stop
  deriving DecidableEq, Repr

/-- The span between two offsets, empty if the second comes first. -/
def Span.new (start stop : Nat) : Span :=
  ⟨start, max stop start, Nat.le_max_right _ _⟩

end Reactor
