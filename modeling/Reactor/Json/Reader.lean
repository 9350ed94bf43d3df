import Reactor.Json.Numeral

/-!
# Reading JSON texts

* `Json.parse?` : the tree of a text, or none if the text is not JSON.

Arrays and objects may be nested up to `Json.maxNesting` levels. Each reader takes the rest of the
text and gives back what it left over; the length of the text bounds their recursion.
-/

namespace Reactor.Json

/-- The greatest number of arrays and objects around a value. -/
def maxNesting : Nat := 127

/-- Blanks between tokens. -/
def skipBlank (cs : List Char) : List Char :=
  cs.dropWhile fun c => c == ' ' || c == '\n' || c == '\t' || c == '\r'

/-- The value of a hexadecimal digit. -/
def hexValue? (c : Char) : Option Nat :=
  if c.isDigit then some (c.toNat - 48)
  else if 'a' ≤ c && c ≤ 'f' then some (c.toNat - 87)
  else if 'A' ≤ c && c ≤ 'F' then some (c.toNat - 55)
  else none

/-- Reads four hexadecimal digits. -/
def readHex? : List Char → Option (Nat × List Char)
  | a :: b :: c :: d :: cs => do
    let a ← hexValue? a
    let b ← hexValue? b
    let c ← hexValue? c
    let d ← hexValue? d
    return (4096 * a + 256 * b + 16 * c + d, cs)
  | _ => none

/-- Reads what follows `\u`: one unit, or two that make up one character. -/
def readUnit? (cs : List Char) : Option (Char × List Char) := do
  let (n, cs) ← readHex? cs
  if 0xD800 ≤ n && n < 0xDC00 then
    match cs with
    | '\\' :: 'u' :: cs =>
      let (m, cs) ← readHex? cs
      if 0xDC00 ≤ m && m < 0xE000 then
        some (Char.ofNat (0x10000 + 0x400 * (n - 0xD800) + (m - 0xDC00)), cs)
      else none
    | _ => none
  else if 0xDC00 ≤ n && n < 0xE000 then none
  else some (Char.ofNat n, cs)

/-- Reads what follows a backslash. -/
def readEscape? : List Char → Option (Char × List Char)
  | '"' :: cs => some ('"', cs)
  | '\\' :: cs => some ('\\', cs)
  | '/' :: cs => some ('/', cs)
  | 'b' :: cs => some (Char.ofNat 8, cs)
  | 'f' :: cs => some (Char.ofNat 12, cs)
  | 'n' :: cs => some ('\n', cs)
  | 'r' :: cs => some ('\r', cs)
  | 't' :: cs => some ('\t', cs)
  | 'u' :: cs => readUnit? cs
  | _ => none

/-- Reads the rest of a text up to its closing quote; `done` holds what was read, last first. -/
def readText? : Nat → List Char → List Char → Option (String × List Char)
  | 0, _, _ => none
  | _, [], _ => none
  | fuel + 1, c :: cs, done =>
    if c == '"' then some (String.ofList done.reverse, cs)
    else if c == '\\' then do
      let (c, cs) ← readEscape? cs
      readText? fuel cs (c :: done)
    else if c.toNat < 32 then none
    else readText? fuel cs (c :: done)

/-- Passes over a word that must stand at the front. -/
def skipWord? (word : String) (cs : List Char) : Option (List Char) :=
  if word.toList.isPrefixOf cs then some (cs.drop word.length) else none

mutual

/-- Reads a value with at most `nesting` levels of arrays and objects. -/
def readValue? : Nat → Nat → List Char → Option (Json × List Char)
  | 0, _, _ => none
  | fuel + 1, nesting, cs =>
    match skipBlank cs with
    | '"' :: cs => (readText? fuel cs []).map fun (s, cs) => (.string s, cs)
    | '[' :: cs =>
      if nesting = 0 then none
      else match skipBlank cs with
        | ']' :: cs => some (.array [], cs)
        | cs => (readItems? fuel (nesting - 1) cs).map fun (items, cs) => (.array items, cs)
    | '\x7b' :: cs =>
      if nesting = 0 then none
      else match skipBlank cs with
        | '\x7d' :: cs => some (.object [], cs)
        | cs =>
          (readMembers? fuel (nesting - 1) cs).map fun (members, cs) => (ofMembers members, cs)
    | 'n' :: cs => (skipWord? "ull" cs).map fun cs => (.null, cs)
    | 't' :: cs => (skipWord? "rue" cs).map fun cs => (.boolean true, cs)
    | 'f' :: cs => (skipWord? "alse" cs).map fun cs => (.boolean false, cs)
    | cs => Numeral.read? cs

/-- Reads at least one item and the end of the array. -/
def readItems? : Nat → Nat → List Char → Option (List Json × List Char)
  | 0, _, _ => none
  | fuel + 1, nesting, cs => do
    let (item, cs) ← readValue? fuel nesting cs
    match skipBlank cs with
    | ',' :: cs =>
      let (items, cs) ← readItems? fuel nesting cs
      return (item :: items, cs)
    | ']' :: cs => return ([item], cs)
    | _ => none

/-- Reads at least one member and the end of the object. -/
def readMembers? : Nat → Nat → List Char → Option (List (String × Json) × List Char)
  | 0, _, _ => none
  | fuel + 1, nesting, cs => do
    let '"' :: cs := skipBlank cs | none
    let (key, cs) ← readText? fuel cs []
    let ':' :: cs := skipBlank cs | none
    let (value, cs) ← readValue? fuel nesting cs
    match skipBlank cs with
    | ',' :: cs =>
      let (members, cs) ← readMembers? fuel nesting cs
      return ((key, value) :: members, cs)
    | '\x7d' :: cs => return ([(key, value)], cs)
    | _ => none

end

/-- The tree of a text that holds one value and blanks around it. -/
def parse? (text : String) : Option Json := do
  let cs := text.toList
  let (json, rest) ← readValue? (2 * cs.length + 2) maxNesting cs
  if (skipBlank rest).isEmpty then some json else none

end Reactor.Json
