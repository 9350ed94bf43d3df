/-!
# Parts of texts

Occurrences of a text in another one are found from left to right and do not overlap.

* `removeText` : a text without the occurrences of another one.
* `splitText` : the texts between the occurrences.
* `containsText` : whether there is one.
-/

namespace Reactor.Text

/-- The characters without the occurrences of `part`, which is not empty. The first argument counts
the characters of an occurrence that are still to be passed over. -/
def removeChars (part : List Char) : Nat → List Char → List Char
  | _, [] => []
  | skip + 1, _ :: cs => removeChars part skip cs
  | 0, c :: cs =>
    if part.isPrefixOf (c :: cs) then removeChars part (part.length - 1) cs
    else c :: removeChars part 0 cs

/-- The text without the occurrences of `part`, which is not empty. -/
def removeText (s part : String) : String :=
  String.ofList (removeChars part.toList 0 s.toList)

/-- The texts between the occurrences of `part`, which is not empty. `done` holds the characters
since the last occurrence, last first. -/
def splitChars (part : List Char) : Nat → List Char → List Char → List (List Char)
  | _, done, [] => [done.reverse]
  | skip + 1, done, _ :: cs => splitChars part skip done cs
  | 0, done, c :: cs =>
    if part.isPrefixOf (c :: cs) then
      done.reverse :: splitChars part (part.length - 1) [] cs
    else splitChars part 0 (c :: done) cs

/-- The texts between the occurrences of `part`, which is not empty. -/
def splitText (s part : String) : List String :=
  (splitChars part.toList 0 [] s.toList).map String.ofList

/-- The characters start with `part` at some place. -/
def containsChars (part : List Char) : List Char → Bool
  | [] => part.isEmpty
  | c :: cs => part.isPrefixOf (c :: cs) || containsChars part cs

/-- The text holds an occurrence of `part`. -/
def containsText (s part : String) : Bool :=
  containsChars part.toList s.toList

theorem containsChars_iff (part cs : List Char) :
    containsChars part cs = true ↔ ∃ front back, cs = front ++ part ++ back := by
  induction cs with
  | nil =>
    simp only [containsChars, List.isEmpty_iff]
    constructor
    · rintro rfl; exact ⟨[], [], rfl⟩
    · rintro ⟨front, back, h⟩
      have := congrArg List.length h
      simp only [List.length_nil, List.length_append] at this
      exact List.eq_nil_of_length_eq_zero (by omega)
  | cons c cs ih =>
    simp only [containsChars, Bool.or_eq_true, List.isPrefixOf_iff_prefix, ih]
    constructor
    · rintro (⟨back, h⟩ | ⟨front, back, rfl⟩)
      · exact ⟨[], back, by simp [h]⟩
      · exact ⟨c :: front, back, by simp⟩
    · rintro ⟨_ | ⟨d, front⟩, back, h⟩
      · exact Or.inl ⟨back, by simpa using h.symm⟩
      · simp only [List.cons_append, List.cons.injEq] at h
        exact Or.inr ⟨front, back, h.2⟩

end Reactor.Text
