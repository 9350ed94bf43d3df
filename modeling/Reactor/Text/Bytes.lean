/-!
# Byte offsets in a text

Spans count the bytes of the UTF-8 form of a text. A cut is possible only between characters.

* `splitAtByte?` : the two parts of a text at a byte offset.
* `sliceBytes?` : the part between two byte offsets.
-/

namespace Reactor.Text

/-- The characters before and after byte offset `n`, or none if no character starts there. -/
def splitAtByte? : List Char → Nat → Option (List Char × List Char)
  | cs, 0 => some ([], cs)
  | [], _ + 1 => none
  | c :: cs, n + 1 =>
    if c.utf8Size ≤ n + 1 then
      (splitAtByte? cs (n + 1 - c.utf8Size)).map fun (front, back) => (c :: front, back)
    else none

/-- The text between two byte offsets, or none if one of them is inside a character. -/
def sliceBytes? (s : String) (start stop : Nat) : Option String := do
  if stop < start then none
  let (_, back) ← splitAtByte? s.toList start
  let (front, _) ← splitAtByte? back (stop - start)
  return String.ofList front

/-- A cut loses nothing. -/
theorem append_of_splitAtByte? {cs front back : List Char} {n : Nat}
    (h : splitAtByte? cs n = some (front, back)) : front ++ back = cs := by
  induction cs generalizing n front back with
  | nil =>
    cases n with
    | zero => simp only [splitAtByte?, Option.some.injEq, Prod.mk.injEq] at h; simp [← h.1, ← h.2]
    | succ n => simp [splitAtByte?] at h
  | cons c cs ih =>
    cases n with
    | zero => simp only [splitAtByte?, Option.some.injEq, Prod.mk.injEq] at h; simp [← h.1, ← h.2]
    | succ n =>
      rw [splitAtByte?] at h
      split at h
      · obtain ⟨⟨f, b⟩, hs, he⟩ := Option.map_eq_some_iff.1 h
        simp only [Prod.mk.injEq] at he
        obtain ⟨rfl, rfl⟩ := he
        simp [ih hs]
      · simp at h

end Reactor.Text
