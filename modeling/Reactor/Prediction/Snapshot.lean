import Reactor.Error
import Reactor.Prediction.Learner

/-!
# Snapshots of learned types

A snapshot is a list of bytes: the number of entries, then for each entry its key, its counts and
the time of its last update. Numbers are little-endian groups of seven bits, the highest bit of a
byte telling that more follow; texts have their length in front.

* `Snapshot.encode` : the bytes of a learner's entries.
* `Snapshot.decode?` : reads them back, from the front of a list of bytes.
-/

namespace Reactor.Snapshot

/-- The groups of a number that has at most `fuel + 1` of them. -/
def encodeNat : Nat → Nat → List UInt8
  | 0, n => [UInt8.ofNat n]
  | fuel + 1, n =>
    if n < 128 then [UInt8.ofNat n] else UInt8.ofNat (n % 128 + 128) :: encodeNat fuel (n / 128)

/-- Reads a number of at most `fuel` groups whose last group, if all are used, is at most `top`. -/
def decodeNat? (top : Nat) : Nat → List UInt8 → Option (Nat × List UInt8)
  | 0, _ => none
  | _, [] => none
  | fuel + 1, b :: bytes =>
    let group := b.toNat
    if group < 128 then if fuel == 0 && top < group then none else some (group, bytes)
    else (decodeNat? top fuel bytes).map fun (rest, bytes) => (group - 128 + 128 * rest, bytes)

/-- Reads a number of 64 bits. -/
def decodeWord? : List UInt8 → Option (Nat × List UInt8) :=
  decodeNat? 1 10

/-- Reads the place of a type in declaration order. -/
def decodeType? (bytes : List UInt8) : Option (ValueType × List UInt8) := do
  let (index, bytes) ← decodeNat? 15 5 bytes
  let ty ← ValueType.all[index]?
  return (ty, bytes)

/-- Reads a text. -/
def decodeText? (bytes : List UInt8) : Option (String × List UInt8) := do
  let (size, bytes) ← decodeWord? bytes
  if bytes.length < size then none
  else
    let text ← String.fromUTF8? ⟨(bytes.take size).toArray⟩
    return (text, bytes.drop size)

/-- Reads `count` items one after another. The count may exceed the bytes that are left, so the
bytes bound the recursion: each item takes at least one. -/
def decodeMany? {α : Type} (item : List UInt8 → Option (α × List UInt8)) :
    Nat → Nat → List UInt8 → Option (List α × List UInt8)
  | _, 0, bytes => some ([], bytes)
  | 0, _ + 1, _ => none
  | fuel + 1, count + 1, bytes => do
    let (a, bytes) ← item bytes
    let (rest, bytes) ← decodeMany? item fuel count bytes
    return (a :: rest, bytes)

/-- Reads a list with its length in front. -/
def decodeList? {α : Type} (item : List UInt8 → Option (α × List UInt8)) (bytes : List UInt8) :
    Option (List α × List UInt8) := do
  let (count, bytes) ← decodeWord? bytes
  decodeMany? item bytes.length count bytes

/-- Reads a type and its count. -/
def decodeCount? (bytes : List UInt8) : Option ((ValueType × UInt64) × List UInt8) := do
  let (ty, bytes) ← decodeType? bytes
  let (count, bytes) ← decodeWord? bytes
  return ((ty, UInt64.ofNat count), bytes)

/-- Reads one entry. A type that is given twice has the later count. -/
def decodeEntry? (bytes : List UInt8) : Option ((String × LearnedEntry) × List UInt8) := do
  let (key, bytes) ← decodeText? bytes
  let (counts, bytes) ← decodeList? decodeCount? bytes
  let (updated, bytes) ← decodeWord? bytes
  return ((key, { counts := Entries.merge [] counts, updated }), bytes)

/-- Reads a snapshot; bytes that follow it are ignored. -/
def decode? (bytes : List UInt8) : Option (List (String × LearnedEntry)) :=
  (decodeList? decodeEntry? bytes).map (·.1)

/-- The groups of a number of 64 bits. -/
def encodeWord : Nat → List UInt8 :=
  encodeNat 9

/-- The bytes of a list with its length in front. -/
def encodeList {α : Type} (item : α → List UInt8) (items : List α) : List UInt8 :=
  encodeWord items.length ++ items.flatMap item

/-- The bytes of a text with its length in front. -/
def encodeText (s : String) : List UInt8 :=
  let bytes := s.toUTF8.toList
  encodeWord bytes.length ++ bytes

/-- The bytes of one entry, its types in declaration order. -/
def encodeEntry (key : String) (entry : LearnedEntry) : List UInt8 :=
  let counts := ValueType.all.filterMap fun ty =>
    (Entries.get? entry.counts ty).map fun count => (ty, count)
  encodeText key ++
    encodeList (fun (ty, count) => encodeWord ty.index ++ encodeWord count.toNat) counts ++
    encodeWord entry.updated

/-- The bytes of a learner's entries. -/
def encode (learner : Learner) : List UInt8 :=
  encodeList (fun (key, entry) => encodeEntry key entry) learner.entries

/-- The failure of reading bytes that are no snapshot. -/
def invalid : Error :=
  .exception "Invalid snapshot: *"

/-- The failure of a file that cannot be read or written. -/
def ioFailure : Error :=
  .exception "I/O failure: *"

end Reactor.Snapshot
