import Reactor.Proofs.Sorting.Merges
import Reactor.Sorting.Small

/-!
# Sorts of a few elements

A merge from both ends divides each of two sorted lists into what is done at the front, a middle part, and what
is done at the back (`EndsMerge.Parts`). What is done at the front precedes the middle parts, and these precede
what is done at the back (`EndsMerge.Precede`), where elements of the first list precede those of their rank in
the second one. So a comparison of the next elements always takes one from the middle parts, and nothing is
taken twice. When the middle parts are empty, the two lists are merged.

The sorts of a fixed number of elements, of up to thirty-two elements and by insertion are stable, if the
comparison goes by ranks.

* `Comparison.promises_takeFront`, `Comparison.promises_takeBack` : one step at each end.
* `Comparison.promises_mergeFromEnds` : the whole merge.
* `Comparison.promises_sortFour`, `Comparison.promises_sortEight` : a fixed number of elements.
* `Comparison.promises_sortSmall`, `Comparison.promises_sortByInsertion` : any number of elements.
-/

namespace Reactor.Comparison

section

variable {α : Type} {rank : α → Nat}

namespace EndsMerge

variable {x y : α} {left right left₁ left₂ left₃ right₁ right₂ right₃ front back : List α}

/-- The parts of the two lists come before other parts of them. Elements of the first list come before those of
their rank in the second one. -/
structure Precede (rank : α → Nat) (left right laterLeft laterRight : List α) : Prop where
  le {x y : α} (hx : x ∈ left) (hy : y ∈ laterRight) : rank x ≤ rank y
  lt {x y : α} (hy : y ∈ right) (hx : x ∈ laterLeft) : rank y < rank x

/-- Two sorted lists, each of them divided into what is done at the front, the middle, and what is done at the
back. -/
structure Parts (rank : α → Nat) (left₁ left₂ left₃ right₁ right₂ right₃ front back : List α) : Prop where
  left : InOrder rank (left₁ ++ left₂ ++ left₃)
  right : InOrder rank (right₁ ++ right₂ ++ right₃)
  front : SortsTo rank (left₁ ++ right₁) front
  back : SortsTo rank (left₃ ++ right₃) back
  first : Precede rank left₁ right₁ (left₂ ++ left₃) (right₂ ++ right₃)
  last : Precede rank left₂ right₂ left₃ right₃

namespace Parts

/-- Before the first step all is in the middle. -/
theorem start (hleft : InOrder rank left) (hright : InOrder rank right) :
    Parts rank [] left [] [] right [] [] [] where
  left := by simpa using hleft
  right := by simpa using hright
  front := .refl .nil
  back := .refl .nil
  first := ⟨nofun, nofun⟩
  last := ⟨nofun, nofun⟩

/-- The first of the left middle part goes to the front. -/
theorem frontLeft (h : Parts rank left₁ (x :: left₂) left₃ right₁ right₂ right₃ front back)
    (hx : ∀ y ∈ right₂ ++ right₃, rank x ≤ rank y) :
    Parts rank (left₁ ++ [x]) left₂ left₃ right₁ right₂ right₃ (front ++ [x]) back where
  left := by simpa using h.left
  right := h.right
  front := by
    have moved : Rearranged rank (left₁ ++ [x] ++ right₁) (left₁ ++ right₁ ++ [x]) := by
      rw [List.append_assoc, List.append_assoc]
      apply (Rearranged.move x _).append_left
      intro y hy
      exact h.first.lt hy (by simp)
    apply SortsTo.of_rearranged moved (h.front.concat _)
    intro y hy
    rcases List.mem_append.1 hy with hy | hy
    · exact h.left.left.le_of_append hy (by simp)
    · exact Nat.le_of_lt (h.first.lt hy (by simp))
  back := h.back
  first := by
    constructor
    · intro z y hz hy
      rcases List.mem_append.1 hz with hz | hz
      · exact h.first.le hz hy
      · rw [List.mem_singleton.1 hz]
        exact hx y hy
    · intro z y hy hz
      exact h.first.lt hy (by simp_all)
  last := ⟨fun hz hy => h.last.le (List.mem_cons_of_mem x hz) hy, h.last.lt⟩

/-- The first of the right middle part goes to the front. -/
theorem frontRight (h : Parts rank left₁ left₂ left₃ right₁ (y :: right₂) right₃ front back)
    (hy : ∀ x ∈ left₂ ++ left₃, rank y < rank x) :
    Parts rank left₁ left₂ left₃ (right₁ ++ [y]) right₂ right₃ (front ++ [y]) back where
  left := h.left
  right := by simpa using h.right
  front := by
    rw [← List.append_assoc]
    apply h.front.concat
    intro x hx
    rcases List.mem_append.1 hx with hx | hx
    · exact h.first.le hx (by simp)
    · exact h.right.left.le_of_append hx (by simp)
  back := h.back
  first := by
    constructor
    · intro x z hx hz
      exact h.first.le hx (by simp_all)
    · intro x z hz hx
      rcases List.mem_append.1 hz with hz | hz
      · exact h.first.lt hz hx
      · rw [List.mem_singleton.1 hz]
        exact hy x hx
  last := ⟨h.last.le, fun hz hx => h.last.lt (List.mem_cons_of_mem y hz) hx⟩

/-- The last of the left middle part goes to the back. -/
theorem backLeft (h : Parts rank left₁ (left₂ ++ [x]) left₃ right₁ right₂ right₃ front back)
    (hx : ∀ y ∈ right₂, rank y < rank x) :
    Parts rank left₁ left₂ (x :: left₃) right₁ right₂ right₃ front (x :: back) where
  left := by simpa using h.left
  right := h.right
  front := h.front
  back := by
    apply h.back.cons
    intro y hy
    rcases List.mem_append.1 hy with hy | hy
    · exact h.left.le_of_append (by simp) hy
    · exact h.last.le (by simp) hy
  first := ⟨h.first.le, fun hy hz => h.first.lt hy (by simp_all)⟩
  last := by
    constructor
    · intro z y hz hy
      exact h.last.le (List.mem_append_left _ hz) hy
    · intro z y hy hz
      rcases List.mem_cons.1 hz with rfl | hz
      · exact hx y hy
      · exact h.last.lt hy hz

/-- The last of the right middle part goes to the back. -/
theorem backRight (h : Parts rank left₁ left₂ left₃ right₁ (right₂ ++ [y]) right₃ front back)
    (hy : ∀ x ∈ left₂, rank x ≤ rank y) :
    Parts rank left₁ left₂ left₃ right₁ right₂ (y :: right₃) front (y :: back) where
  left := h.left
  right := by simpa using h.right
  front := h.front
  back := by
    have moved : Rearranged rank (left₃ ++ y :: right₃) (y :: (left₃ ++ right₃)) := by
      have behind : Rearranged rank (left₃ ++ [y]) ([y] ++ left₃) := by
        apply Rearranged.exchange
        intro x hx z hz
        rw [List.mem_singleton.1 hz]
        exact h.last.lt (by simp) hx
      simpa using behind.append_right right₃
    apply SortsTo.of_rearranged moved (h.back.cons _)
    intro x hx
    rcases List.mem_append.1 hx with hx | hx
    · exact Nat.le_of_lt (h.last.lt (by simp) hx)
    · exact h.right.le_of_append (by simp) hx
  first := ⟨fun hx hz => h.first.le hx (by simp_all), h.first.lt⟩
  last := by
    constructor
    · intro x z hx hz
      rcases List.mem_cons.1 hz with rfl | hz
      · exact hy x hx
      · exact h.last.le hx hz
    · intro x z hz hx
      exact h.last.lt (List.mem_append_left _ hz) hx

/-- Of the next elements, the one that comes first is in its middle part. -/
theorem exists_next {xs ys : List α} (h : Parts rank left₁ left₂ left₃ right₁ right₂ right₃ front back)
    (hmiddle : 0 < left₂.length + right₂.length) (hxs : left₂ ++ left₃ = x :: xs)
    (hys : right₂ ++ right₃ = y :: ys) :
    (rank y < rank x → ∃ rest, right₂ = y :: rest) ∧ (rank x ≤ rank y → ∃ rest, left₂ = x :: rest) := by
  cases left₂ with
  | nil =>
    obtain ⟨z, rest, rfl⟩ := List.exists_cons_of_length_pos (by simpa using hmiddle)
    obtain ⟨rfl, -⟩ := List.cons.inj hys
    have hlt : rank z < rank x := h.last.lt List.mem_cons_self ((show left₃ = x :: xs from hxs) ▸ List.mem_cons_self)
    exact ⟨fun _ => ⟨rest, rfl⟩, fun hle => by omega⟩
  | cons z left₂ =>
    obtain ⟨rfl, -⟩ := List.cons.inj hxs
    refine ⟨fun hlt => ?_, fun _ => ⟨left₂, rfl⟩⟩
    cases right₂ with
    | nil =>
      have hle : rank z ≤ rank y := h.last.le List.mem_cons_self ((show right₃ = y :: ys from hys) ▸ List.mem_cons_self)
      omega
    | cons u rest =>
      obtain ⟨rfl, -⟩ := List.cons.inj hys
      exact ⟨rest, rfl⟩

/-- Of the last elements, the one that comes last is in its middle part. -/
theorem exists_last {xs ys : List α} (h : Parts rank left₁ left₂ left₃ right₁ right₂ right₃ front back)
    (hmiddle : 0 < left₂.length + right₂.length) (hxs : (left₁ ++ left₂).reverse = x :: xs)
    (hys : (right₁ ++ right₂).reverse = y :: ys) :
    (rank y < rank x → ∃ rest, left₂ = rest ++ [x]) ∧ (rank x ≤ rank y → ∃ rest, right₂ = rest ++ [y]) := by
  rcases left₂.eq_nil_or_concat' with rfl | ⟨rest, z, rfl⟩
  · have hx : x ∈ left₁ := by
      rw [List.append_nil] at hxs
      exact List.mem_reverse.1 (hxs ▸ List.mem_cons_self)
    obtain ⟨rest, z, rfl⟩ : ∃ rest z, right₂ = rest ++ [z] := by
      rcases right₂.eq_nil_or_concat' with rfl | hrest
      · simp at hmiddle
      · exact hrest
    obtain rfl : z = y := by simpa using congrArg List.head? hys
    have hle : rank x ≤ rank z := h.first.le hx (by simp)
    exact ⟨fun hlt => by omega, fun _ => ⟨rest, rfl⟩⟩
  · obtain rfl : z = x := by simpa using congrArg List.head? hxs
    refine ⟨fun _ => ⟨rest, rfl⟩, fun hle => ?_⟩
    rcases right₂.eq_nil_or_concat' with rfl | ⟨rest', u, rfl⟩
    · have hy : y ∈ right₁ := by
        rw [List.append_nil] at hys
        exact List.mem_reverse.1 (hys ▸ List.mem_cons_self)
      have hlt : rank y < rank z := h.first.lt hy (by simp)
      omega
    · obtain rfl : u = y := by simpa using congrArg List.head? hys
      exact ⟨rest', rfl⟩

/-- When the middle parts are empty, the lists are merged. -/
theorem sorted (h : Parts rank left₁ [] left₃ right₁ [] right₃ front back) :
    SortsTo rank (left₁ ++ left₃ ++ (right₁ ++ right₃)) (front ++ back) := by
  have moved : Rearranged rank (left₁ ++ left₃ ++ (right₁ ++ right₃))
      (left₁ ++ right₁ ++ (left₃ ++ right₃)) := by
    have behind : Rearranged rank (left₃ ++ right₁) (right₁ ++ left₃) := by
      apply Rearranged.exchange
      intro x hx y hy
      exact h.first.lt hy (by simpa using hx)
    simpa using (behind.append_right right₃).append_left left₁
  apply SortsTo.of_rearranged moved (h.front.append h.back _)
  intro a ha b hb
  rcases List.mem_append.1 ha with ha | ha
  · rcases List.mem_append.1 hb with hb | hb
    · exact h.left.le_of_append (by simpa using ha) hb
    · exact h.first.le ha (by simpa using hb)
  · rcases List.mem_append.1 hb with hb | hb
    · exact Nat.le_of_lt (h.first.lt ha (by simpa using hb))
    · exact h.right.le_of_append (by simpa using ha) hb

end Parts

variable {s : EndsMerge α} {i j : Nat}

/-- The state of a merge of two lists that are divided so. -/
structure Stands (rank : α → Nat) (left₁ left₂ left₃ right₁ right₂ right₃ : List α) (s : EndsMerge α) :
    Prop where
  parts : Parts rank left₁ left₂ left₃ right₁ right₂ right₃ s.front.reverse s.back
  nextLeft : s.left = left₂ ++ left₃
  nextRight : s.right = right₂ ++ right₃
  lastLeft : s.leftBack = (left₁ ++ left₂).reverse
  lastRight : s.rightBack = (right₁ ++ right₂).reverse
  fromLeft : s.fromLeft = left₁.length + left₃.length

/-- The state of a merge of two lists after some steps at the front and some at the back. -/
def Reached (rank : α → Nat) (left right : List α) (i j : Nat) (s : EndsMerge α) : Prop :=
  ∃ left₁ left₂ left₃ right₁ right₂ right₃, Stands rank left₁ left₂ left₃ right₁ right₂ right₃ s ∧
    left = left₁ ++ left₂ ++ left₃ ∧ right = right₁ ++ right₂ ++ right₃ ∧
    left₁.length + right₁.length = i ∧ left₃.length + right₃.length = j

/-- All is taken, and the two lists are merged. -/
structure Merged (rank : α → Nat) (left right : List α) (s : EndsMerge α) : Prop where
  fromLeft : s.fromLeft = left.length
  sorted : SortsTo rank (left ++ right) (s.front.reverse ++ s.back)

theorem Reached.merged (hs : s.Reached rank left right i j) (hij : i + j = left.length + right.length) :
    s.Merged rank left right := by
  obtain ⟨left₁, left₂, left₃, right₁, right₂, right₃, hs, rfl, rfl, rfl, rfl⟩ := hs
  simp only [List.length_append] at hij
  obtain rfl := List.eq_nil_of_length_eq_zero (l := left₂) (by omega)
  obtain rfl := List.eq_nil_of_length_eq_zero (l := right₂) (by omega)
  constructor
  · rw [hs.fromLeft]
    simp
  · simpa using hs.parts.sorted

/-- The element in the middle is in the first list if not all of that is taken. -/
theorem Reached.merged_takeMiddle (hs : s.Reached rank left right i j)
    (hij : i + j + 1 = left.length + right.length) : (s.takeMiddle left.length).Merged rank left right := by
  obtain ⟨left₁, left₂, left₃, right₁, right₂, right₃, hs, rfl, rfl, rfl, rfl⟩ := hs
  simp only [List.length_append] at hij
  have hfrom := hs.fromLeft
  unfold takeMiddle
  split
  · rename_i hlt
    simp only [List.length_append] at hlt
    obtain ⟨x, rfl⟩ := List.length_eq_one_iff.1 (show left₂.length = 1 by omega)
    obtain rfl := List.eq_nil_of_length_eq_zero (l := right₂) (by omega)
    constructor
    · simp only [List.length_append, List.length_singleton]
      omega
    · have := (hs.parts.frontLeft fun y hy => hs.parts.last.le List.mem_cons_self hy).sorted
      simpa [hs.nextLeft] using this
  · rename_i hle
    simp only [List.length_append] at hle
    obtain ⟨y, rfl⟩ := List.length_eq_one_iff.1 (show right₂.length = 1 by omega)
    obtain rfl := List.eq_nil_of_length_eq_zero (l := left₂) (by omega)
    constructor
    · simp only [List.length_append, List.length_nil]
      omega
    · have := (hs.parts.frontRight fun x hx => hs.parts.last.lt List.mem_cons_self hx).sorted
      simpa [hs.nextRight] using this

end EndsMerge

variable {m : Type → Type} [Monad m] {P : ∀ β : Type, m β → (β → Prop) → Prop} {among : α → Prop}
  {order : Comparison m α} (h : order.Ranks P among rank) {left right : List α} {s : EndsMerge α} {i j : Nat}
include h

/-- A step at the front takes an element from one of the middle parts. -/
theorem promises_takeFront (hleft : ∀ x ∈ left, among x) (hright : ∀ y ∈ right, among y)
    (hs : s.Reached rank left right i j) (hi : i < left.length) (hi' : i < right.length)
    (hij : i + j < left.length + right.length) :
    P _ (order.takeFront s) (EndsMerge.Reached rank left right (i + 1) j) := by
  obtain ⟨left₁, left₂, left₃, right₁, right₂, right₃, hs, rfl, rfl, rfl, rfl⟩ := hs
  simp only [List.length_append] at hi hi' hij
  obtain ⟨x, xs, hxs⟩ : ∃ x xs, left₂ ++ left₃ = x :: xs := by
    apply List.exists_cons_of_length_pos
    rw [List.length_append]
    omega
  obtain ⟨y, ys, hys⟩ : ∃ y ys, right₂ ++ right₃ = y :: ys := by
    apply List.exists_cons_of_length_pos
    rw [List.length_append]
    omega
  rw [List.append_assoc, hxs] at hleft
  rw [List.append_assoc, hys] at hright
  obtain ⟨hfirst, hfirst'⟩ := hs.parts.exists_next (by omega) hxs hys
  have hsortedLeft : InOrder rank (x :: xs) := by
    have := hs.parts.left
    rw [List.append_assoc, hxs] at this
    exact this.right
  have hsortedRight : InOrder rank (y :: ys) := by
    have := hs.parts.right
    rw [List.append_assoc, hys] at this
    exact this.right
  unfold takeFront
  rw [hs.nextLeft, hs.nextRight, hxs, hys]
  apply promises_if h (hright y (by simp)) (hleft x (by simp))
  · intro hlt
    obtain ⟨rest, rfl⟩ := hfirst hlt
    obtain ⟨-, rfl⟩ := List.cons.inj hys
    refine h.pure ⟨left₁, left₂, left₃, right₁ ++ [y], rest, right₃, ?_, rfl, by simp, ?_, rfl⟩
    · constructor
      · rw [List.reverse_cons]
        apply hs.parts.frontRight
        intro z hz
        have := hsortedLeft.le_of_mem (hxs ▸ hz)
        omega
      · exact hxs.symm
      · rfl
      · exact hs.lastLeft
      · simpa using hs.lastRight
      · exact hs.fromLeft
    · rw [List.length_append, List.length_singleton]
      omega
  · intro hle
    obtain ⟨rest, rfl⟩ := hfirst' hle
    obtain ⟨-, rfl⟩ := List.cons.inj hxs
    refine h.pure ⟨left₁ ++ [x], rest, left₃, right₁, right₂, right₃, ?_, by simp, rfl, ?_, rfl⟩
    · constructor
      · rw [List.reverse_cons]
        apply hs.parts.frontLeft
        intro z hz
        have := hsortedRight.le_of_mem (hys ▸ hz)
        omega
      · rfl
      · exact hys.symm
      · simpa using hs.lastLeft
      · exact hs.lastRight
      · have := hs.fromLeft
        rw [List.length_append, List.length_singleton]
        dsimp only
        omega
    · rw [List.length_append, List.length_singleton]
      omega

/-- A step at the back takes an element from one of the middle parts. -/
theorem promises_takeBack (hleft : ∀ x ∈ left, among x) (hright : ∀ y ∈ right, among y)
    (hs : s.Reached rank left right i j) (hj : j < left.length) (hj' : j < right.length)
    (hij : i + j < left.length + right.length) :
    P _ (order.takeBack s) (EndsMerge.Reached rank left right i (j + 1)) := by
  obtain ⟨left₁, left₂, left₃, right₁, right₂, right₃, hs, rfl, rfl, rfl, rfl⟩ := hs
  simp only [List.length_append] at hj hj' hij
  obtain ⟨x, xs, hxs⟩ : ∃ x xs, (left₁ ++ left₂).reverse = x :: xs := by
    apply List.exists_cons_of_length_pos
    rw [List.length_reverse, List.length_append]
    omega
  obtain ⟨y, ys, hys⟩ : ∃ y ys, (right₁ ++ right₂).reverse = y :: ys := by
    apply List.exists_cons_of_length_pos
    rw [List.length_reverse, List.length_append]
    omega
  have hleft' : left₁ ++ left₂ = xs.reverse ++ [x] := List.reverse_eq_cons_iff.1 hxs
  have hright' : right₁ ++ right₂ = ys.reverse ++ [y] := List.reverse_eq_cons_iff.1 hys
  obtain ⟨hlast, hlast'⟩ := hs.parts.exists_last (by omega) hxs hys
  have hsortedLeft : InOrder rank (xs.reverse ++ [x]) := hleft' ▸ hs.parts.left.left
  have hsortedRight : InOrder rank (ys.reverse ++ [y]) := hright' ▸ hs.parts.right.left
  rw [hleft'] at hleft
  rw [hright'] at hright
  unfold takeBack
  rw [hs.lastLeft, hs.lastRight, hxs, hys]
  apply promises_if h (hright y (by simp)) (hleft x (by simp))
  · intro hlt
    obtain ⟨rest, rfl⟩ := hlast hlt
    refine h.pure ⟨left₁, rest, x :: left₃, right₁, right₂, right₃, ?_, by simp, rfl, rfl, ?_⟩
    · constructor
      · apply hs.parts.backLeft
        intro z hz
        have := hsortedRight.le_last (hright' ▸ List.mem_append_right _ hz)
        omega
      · simpa using hs.nextLeft
      · exact hs.nextRight
      · simpa using hxs.symm
      · exact hys.symm
      · have := hs.fromLeft
        rw [List.length_cons]
        dsimp only
        omega
    · rw [List.length_cons]
      omega
  · intro hle
    obtain ⟨rest, rfl⟩ := hlast' hle
    refine h.pure ⟨left₁, left₂, left₃, right₁, rest, y :: right₃, ?_, rfl, by simp, rfl, ?_⟩
    · constructor
      · apply hs.parts.backRight
        intro z hz
        have := hsortedLeft.le_last (hleft' ▸ List.mem_append_right _ hz)
        omega
      · exact hs.nextLeft
      · simpa using hs.nextRight
      · exact hxs.symm
      · simpa using hys.symm
      · exact hs.fromLeft
    · rw [List.length_cons]
      omega

theorem promises_takeFromEnds {n : Nat} (hleft : ∀ x ∈ left, among x) (hright : ∀ y ∈ right, among y)
    (hs : s.Reached rank left right i i) (hn : i + n = left.length) (hlength : left.length ≤ right.length) :
    P _ (order.takeFromEnds n s) (EndsMerge.Reached rank left right left.length left.length) := by
  induction n generalizing s i with
  | zero =>
    obtain rfl : i = left.length := hn
    exact h.pure hs
  | succ n ih =>
    apply h.bind (promises_takeFront h hleft hright hs (by omega) (by omega) (by omega))
    intro s hs
    apply h.bind (promises_takeBack h hleft hright hs (by omega) (by omega) (by omega))
    intro s hs
    exact ih hs (by omega)

/-- Two sorted halves are merged from both ends. -/
theorem promises_mergeFromEnds (hleft : ∀ x ∈ left, among x) (hright : ∀ y ∈ right, among y)
    (hsorted : InOrder rank left) (hsorted' : InOrder rank right) (hlength : left.length ≤ right.length)
    (hlength' : right.length ≤ left.length + 1) :
    P _ (order.mergeFromEnds left right) (SortsTo rank (left ++ right)) := by
  have hstart : EndsMerge.Reached rank left right 0 0
      { left, right, leftBack := left.reverse, rightBack := right.reverse } := by
    refine ⟨[], left, [], [], right, [], ?_, by simp, by simp, rfl, rfl⟩
    constructor
    · exact .start hsorted hsorted'
    · simp
    · simp
    · rfl
    · rfl
    · rfl
  apply h.bind (promises_takeFromEnds h hleft hright hstart (by omega) hlength)
  intro s hs
  have hmerged : EndsMerge.Merged rank left right
      (if left.length = right.length then s else s.takeMiddle left.length) := by
    split
    · exact hs.merged (by omega)
    · exact hs.merged_takeMiddle (by omega)
  dsimp only
  rw [if_neg (not_not.2 hmerged.fromLeft)]
  exact h.pure hmerged.sorted

end

section

variable {m : Type → Type} [Monad m] {α : Type} {P : ∀ β : Type, m β → (β → Prop) → Prop}
  {among : α → Prop} {rank : α → Nat} {order : Comparison m α} (h : order.Ranks P among rank)
  {x y z u : α} {xs : List α}
include h

/-- Insertion one after another sorts. -/
theorem promises_sortByInsertion (hxs : ∀ x ∈ xs, among x) :
    P _ (order.sortByInsertion xs) (SortsTo rank xs) := by
  have hinserted : P _ (order.insertAll [] xs) fun ys => SortsTo rank ([].reverse ++ xs) ys.reverse :=
    promises_insertAll h (List.forall_mem_nil _) hxs .nil
  apply h.bind hinserted
  intro ys hys
  exact h.pure hys

/-! ## A fixed number of elements -/

theorem promises_sortTwo (hx : among x) (hy : among y) :
    P _ (order.sortTwo x y) fun p => SortsTo rank [x, y] [p.1, p.2] := by
  apply promises_if h hy hx
  · intro hlt
    apply h.pure
    exact .of_rearranged (.swap hlt []) (.refl (by simp [InOrder, Nat.le_of_lt hlt]))
  · intro hle
    apply h.pure
    exact .refl (by simp [InOrder, hle])

omit h in
/-- Between an element that ranks lowest and one that ranks highest, two elements are sorted. -/
theorem sortsTo_between {first second third last : α} (hmiddle : SortsTo rank [x, y] [second, third])
    (hfirst : rank first ≤ rank x ∧ rank first ≤ rank y) (hlast : rank x ≤ rank last ∧ rank y ≤ rank last) :
    SortsTo rank [first, x, y, last] [first, second, third, last] := by
  have hupper : SortsTo rank [x, y, last] [second, third, last] := hmiddle.concat (by simp [hlast])
  apply hupper.cons
  simp only [List.forall_mem_cons, List.not_mem_nil, false_imp_iff, implies_true, and_true]
  omega

/-- Two pairs are sorted, then the ends are found, then the middle. -/
theorem promises_sortFour (hx : among x) (hy : among y) (hz : among z) (hu : among u) :
    P _ (order.sortFour x y z u) (SortsTo rank [x, y, z, u]) := by
  apply h.bind (promises_sortTwo h hx hy)
  rintro ⟨a, b⟩ hab
  apply h.bind (promises_sortTwo h hz hu)
  rintro ⟨c, d⟩ hcd
  dsimp only at hab hcd
  have hleft (v : α) (hv : v ∈ [a, b]) : among v := by
    have := hab.mem_iff.1 hv
    simp only [List.mem_cons, List.not_mem_nil, or_false] at this
    rcases this with rfl | rfl <;> assumption
  have hright (v : α) (hv : v ∈ [c, d]) : among v := by
    have := hcd.mem_iff.1 hv
    simp only [List.mem_cons, List.not_mem_nil, or_false] at this
    rcases this with rfl | rfl <;> assumption
  have ha := hleft a (by simp)
  have hb := hleft b (by simp)
  have hc := hright c (by simp)
  have hd := hright d (by simp)
  have hle : rank a ≤ rank b := hab.inOrder.le_of_mem (by simp)
  have hle' : rank c ≤ rank d := hcd.inOrder.le_of_mem (by simp)
  have pairs : Rearranged rank [x, y, z, u] [a, b, c, d] := hab.rearranged.append hcd.rearranged
  apply h.bind (h.less hc ha)
  rintro _ rfl
  apply h.bind (h.less hd hb)
  rintro _ rfl
  by_cases hca : rank c < rank a
  · have first : Rearranged rank [a, b, c, d] [c, a, b, d] := by
      have behind : Rearranged rank ([a, b] ++ [c]) ([c] ++ [a, b]) := by
        apply Rearranged.exchange
        simp only [List.forall_mem_cons, List.not_mem_nil, false_imp_iff, implies_true, and_true]
        omega
      exact behind.append_right [d]
    by_cases hdb : rank d < rank b
    · simp only [hca, hdb, decide_true, if_true]
      apply h.bind (promises_sortTwo h ha hd)
      rintro ⟨second, third⟩ hmiddle
      apply h.pure
      have last : Rearranged rank [c, a, b, d] [c, a, d, b] := ((Rearranged.swap hdb []).cons a).cons c
      exact .of_rearranged (pairs.trans (first.trans last)) (sortsTo_between hmiddle (by omega) (by omega))
    · simp only [hca, hdb, decide_true, decide_false, if_true, Bool.false_eq_true, if_false]
      apply h.bind (promises_sortTwo h ha hb)
      rintro ⟨second, third⟩ hmiddle
      apply h.pure
      exact .of_rearranged (pairs.trans first) (sortsTo_between hmiddle (by omega) (by omega))
  · by_cases hdb : rank d < rank b
    · simp only [hca, hdb, decide_true, decide_false, if_true, Bool.false_eq_true, if_false]
      apply h.bind (promises_sortTwo h hc hd)
      rintro ⟨second, third⟩ hmiddle
      apply h.pure
      have last : Rearranged rank [a, b, c, d] [a, c, d, b] := by
        refine (Rearranged.move b ?_).cons a
        simp only [List.forall_mem_cons, List.not_mem_nil, false_imp_iff, implies_true, and_true]
        omega
      exact .of_rearranged (pairs.trans last) (sortsTo_between hmiddle (by omega) (by omega))
    · simp only [hca, hdb, decide_false, Bool.false_eq_true, if_false]
      apply h.bind (promises_sortTwo h hb hc)
      rintro ⟨second, third⟩ hmiddle
      apply h.pure
      exact .of_rearranged pairs (sortsTo_between hmiddle (by omega) (by omega))

theorem promises_sortFirstFour (hxs : ∀ x ∈ xs, among x) (hlength : 4 ≤ xs.length) :
    P _ (order.sortFirstFour xs) (SortsTo rank (xs.take 4)) := by
  match xs, hlength with
  | x :: y :: z :: u :: rest, _ =>
    exact promises_sortFour h (hxs x (by simp)) (hxs y (by simp)) (hxs z (by simp)) (hxs u (by simp))

/-- Two fours are sorted and merged. -/
theorem promises_sortEight (hxs : ∀ x ∈ xs, among x) (hlength : 8 ≤ xs.length) :
    P _ (order.sortEight xs) (SortsTo rank (xs.take 8)) := by
  apply h.bind (promises_sortFirstFour h hxs (by omega))
  intro left hleft
  have hdrop : ∀ x ∈ xs.drop 4, among x := fun x hx => hxs x (List.mem_of_mem_drop hx)
  apply h.bind (promises_sortFirstFour h hdrop (by rw [List.length_drop]; omega))
  intro right hright
  have length_left := hleft.rearranged.perm.length_eq
  have length_right := hright.rearranged.perm.length_eq
  rw [List.length_take] at length_left length_right
  rw [List.length_drop] at length_right
  apply h.mono (promises_mergeFromEnds h (fun x hx => hxs x (List.mem_of_mem_take (hleft.mem_iff.1 hx)))
    (fun x hx => hxs x (List.mem_of_mem_drop (List.mem_of_mem_take (hright.mem_iff.1 hx)))) hleft.inOrder
    hright.inOrder (by omega) (by omega))
  intro ys hys
  rw [show 8 = 4 + 4 from rfl, List.take_add]
  exact .of_rearranged (hleft.rearranged.append hright.rearranged) hys

/-! ## Up to thirty-two elements -/

/-- The elements that are sorted before the others are inserted. -/
theorem promises_sortStart {count : Nat} (hxs : ∀ x ∈ xs, among x) (hcount : count = 8 ∨ count = 4 ∨ count = 1)
    (hlength : count ≤ xs.length) : P _ (order.sortStart count xs) (SortsTo rank (xs.take count)) := by
  rcases hcount with rfl | rfl | rfl
  · exact promises_sortEight h hxs hlength
  · exact promises_sortFirstFour h hxs hlength
  · apply h.pure
    obtain ⟨x, rest, rfl⟩ := List.exists_cons_of_length_pos hlength
    exact .refl (List.pairwise_singleton _ x)

omit h in
/-- Half of the elements are at least as many as are sorted before the others are inserted. -/
theorem presorted_le {length : Nat} (hlength : 2 ≤ length) :
    (presorted length = 8 ∨ presorted length = 4 ∨ presorted length = 1) ∧ presorted length ≤ length / 2 := by
  unfold presorted
  split
  · omega
  · split <;> omega

/-- The other elements are inserted behind those that are sorted first. -/
theorem promises_insertRest {count : Nat} {start : List α} (hxs : ∀ x ∈ xs, among x)
    (hstart : SortsTo rank (xs.take count) start) :
    P _ (order.insertAll start.reverse (xs.drop count)) fun ys => SortsTo rank xs ys.reverse := by
  have hinOrder : InOrder rank start.reverse.reverse := by
    rw [List.reverse_reverse]
    exact hstart.inOrder
  apply h.mono (promises_insertAll h _ _ hinOrder)
  · intro ys hys
    rw [List.reverse_reverse] at hys
    have := hstart.rearranged.append_right (xs.drop count)
    rw [List.take_append_drop] at this
    exact .of_rearranged this hys
  · intro y hy
    exact hxs y (List.mem_of_mem_take (hstart.mem_iff.1 (List.mem_reverse.1 hy)))
  · intro y hy
    exact hxs y (List.mem_of_mem_drop hy)

/-- Both halves are sorted and then merged. -/
theorem promises_sortSmall (hxs : ∀ x ∈ xs, among x) : P _ (order.sortSmall xs) (SortsTo rank xs) := by
  unfold sortSmall
  split
  · rename_i hlength
    apply h.pure
    apply SortsTo.refl
    match xs, hlength with
    | [], _ => exact .nil
    | [x], _ => exact List.pairwise_singleton _ x
  · rename_i hlength
    have hlong : 2 ≤ xs.length := by omega
    obtain ⟨hcount, hhalf⟩ := presorted_le hlong
    have hleft (x : α) (hx : x ∈ xs.take (xs.length / 2)) : among x := hxs x (List.mem_of_mem_take hx)
    have hright (x : α) (hx : x ∈ xs.drop (xs.length / 2)) : among x := hxs x (List.mem_of_mem_drop hx)
    have length_left : (xs.take (xs.length / 2)).length = xs.length / 2 := by
      rw [List.length_take]
      omega
    have length_right : (xs.drop (xs.length / 2)).length = xs.length - xs.length / 2 := List.length_drop
    apply h.bind (promises_sortStart h hleft hcount (by omega))
    intro leftStart hleftStart
    apply h.bind (promises_sortStart h hright hcount (by omega))
    intro rightStart hrightStart
    apply h.bind (promises_insertRest h hleft hleftStart)
    intro left hsorted
    apply h.bind (promises_insertRest h hright hrightStart)
    intro right hsorted'
    have merged := hsorted.rearranged.append hsorted'.rearranged
    rw [List.take_append_drop] at merged
    have length_sorted := hsorted.rearranged.perm.length_eq
    have length_sorted' := hsorted'.rearranged.perm.length_eq
    apply h.mono (promises_mergeFromEnds h _ _ hsorted.inOrder hsorted'.inOrder (by omega) (by omega))
    · intro ys hys
      exact .of_rearranged merged hys
    · intro x hx
      exact hleft x (hsorted.mem_iff.1 hx)
    · intro x hx
      exact hright x (hsorted'.mem_iff.1 hx)

end

end Reactor.Comparison
