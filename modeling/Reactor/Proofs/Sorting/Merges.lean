import Mathlib.Data.List.Basic
import Mathlib.Tactic.Common
import Reactor.Sorting.Merge

/-!
# Stable rearrangements, insertions and merges

A list of elements that have ranks is rearranged (`Rearranged`) by swaps of neighbours of which the second one
has the lower rank. Such swaps never change the order of elements of one rank, and a list that is in order
(`InOrder`) allows none. A list is sorted to another one (`SortsTo`) if it is rearranged to it and that one is in
order.

What is said of a computation by its result (`Promises`) passes from two computations to their composition. A
comparison goes by ranks (`Comparison.Ranks`) if its answers among certain elements are those of their ranks.
Then insertion into a sorted list and the merge of two sorted lists are stable.

* `Rearranged.perm`, `Rearranged.filter_eq` : what a rearrangement keeps.
* `Rearranged.exchange` : two blocks change places if all of the second one rank lower.
* `SortsTo.cons`, `SortsTo.concat`, `SortsTo.append` : sorted lists from smaller ones.
* `SortsTo.eq_of_inOrder` : a list in order is sorted to itself only.
* `Comparison.promises_insertAll` : insertion of elements one after another.
* `Comparison.promises_merge` : the merge, which starts at either end.
-/

namespace Reactor

section Rearrangements

variable {α : Type} {rank : α → Nat} {x y : α} {xs ys zs us vs : List α} {n : Nat}

/-- Reached by swaps of neighbours of which the second one has the lower rank. -/
inductive Rearranged (rank : α → Nat) : List α → List α → Prop
  | nil : Rearranged rank [] []
  | cons (x : α) {xs ys : List α} (h : Rearranged rank xs ys) : Rearranged rank (x :: xs) (x :: ys)
  | swap {x y : α} (h : rank y < rank x) (xs : List α) : Rearranged rank (x :: y :: xs) (y :: x :: xs)
  | trans {xs ys zs : List α} (h : Rearranged rank xs ys) (h' : Rearranged rank ys zs) : Rearranged rank xs zs

/-- Lower ranks come first. -/
def InOrder (rank : α → Nat) (xs : List α) : Prop :=
  xs.Pairwise fun x y => rank x ≤ rank y

/-- The first list is rearranged to the second one, which is in order. -/
structure SortsTo (rank : α → Nat) (xs ys : List α) : Prop where
  rearranged : Rearranged rank xs ys
  inOrder : InOrder rank ys

namespace Rearranged

@[refl] theorem refl (xs : List α) : Rearranged rank xs xs := by
  induction xs with
  | nil => exact .nil
  | cons x xs ih => exact ih.cons x

theorem perm (h : Rearranged rank xs ys) : xs.Perm ys := by
  induction h with
  | nil => exact .nil
  | cons x _ ih => exact ih.cons x
  | swap _ xs => exact .swap _ _ xs
  | trans _ _ ih ih' => exact ih.trans ih'

theorem mem_iff (h : Rearranged rank xs ys) : x ∈ ys ↔ x ∈ xs :=
  h.perm.mem_iff.symm

/-- Elements of one rank keep their order. -/
theorem filter_eq (h : Rearranged rank xs ys) (n : Nat) :
    ys.filter (rank · = n) = xs.filter (rank · = n) := by
  induction h with
  | nil => rfl
  | cons x _ ih => simp only [List.filter_cons, ih]
  | @swap x y h xs =>
    by_cases hx : rank x = n
    · have hy : rank y ≠ n := by omega
      simp [hx, hy]
    · simp [List.filter_cons, hx]
  | trans _ _ ih ih' => exact ih'.trans ih

/-- A list in order allows no swap. -/
theorem eq_of_inOrder (h : Rearranged rank xs ys) (hxs : InOrder rank xs) : ys = xs := by
  induction h with
  | nil => rfl
  | cons x _ ih => rw [ih (List.Pairwise.of_cons hxs)]
  | swap h xs =>
    have := (List.pairwise_cons.1 hxs).1 _ List.mem_cons_self
    omega
  | trans _ _ ih ih' =>
    obtain rfl := ih hxs
    exact ih' hxs

theorem append_left (us : List α) (h : Rearranged rank xs ys) : Rearranged rank (us ++ xs) (us ++ ys) := by
  induction us with
  | nil => exact h
  | cons u us ih => exact ih.cons u

theorem append_right (us : List α) (h : Rearranged rank xs ys) : Rearranged rank (xs ++ us) (ys ++ us) := by
  induction h with
  | nil => exact refl us
  | cons x _ ih => exact ih.cons x
  | swap h xs => exact .swap h (xs ++ us)
  | trans _ _ ih ih' => exact ih.trans ih'

theorem append (h : Rearranged rank xs ys) (h' : Rearranged rank us vs) :
    Rearranged rank (xs ++ us) (ys ++ vs) :=
  (h.append_right us).trans (h'.append_left ys)

/-- An element moves behind those that rank lower. -/
theorem move (x : α) (h : ∀ y ∈ ys, rank y < rank x) : Rearranged rank (x :: ys) (ys ++ [x]) := by
  induction ys with
  | nil => exact refl [x]
  | cons y ys ih =>
    obtain ⟨hy, hys⟩ := List.forall_mem_cons.1 h
    exact (swap hy ys).trans ((ih hys).cons y)

/-- Two blocks change places if all elements of the second one rank lower than all of the first. -/
theorem exchange (h : ∀ x ∈ xs, ∀ y ∈ ys, rank y < rank x) : Rearranged rank (xs ++ ys) (ys ++ xs) := by
  induction xs with
  | nil =>
    rw [List.append_nil]
    exact refl ys
  | cons x xs ih =>
    obtain ⟨hx, hxs⟩ := List.forall_mem_cons.1 h
    have first := ((move x hx).append_right xs)
    rw [List.append_assoc] at first
    exact ((ih hxs).cons x).trans first

/-- A list whose ranks fall is turned around. -/
theorem reverse (h : xs.Pairwise fun x y => rank y < rank x) : Rearranged rank xs xs.reverse := by
  induction xs with
  | nil => exact .nil
  | cons x xs ih =>
    obtain ⟨hx, hxs⟩ := List.pairwise_cons.1 h
    rw [List.reverse_cons]
    exact (move x hx).trans ((ih hxs).append_right [x])

end Rearranged

namespace InOrder

theorem tail (h : InOrder rank (x :: xs)) : InOrder rank xs :=
  List.Pairwise.of_cons h

theorem le_of_mem (h : InOrder rank (x :: xs)) (hy : y ∈ x :: xs) : rank x ≤ rank y := by
  rcases List.mem_cons.1 hy with rfl | hy
  · exact Nat.le_refl _
  · exact (List.pairwise_cons.1 h).1 y hy

theorem left (h : InOrder rank (xs ++ ys)) : InOrder rank xs :=
  (List.pairwise_append.1 h).1

theorem right (h : InOrder rank (xs ++ ys)) : InOrder rank ys :=
  (List.pairwise_append.1 h).2.1

theorem le_of_append (h : InOrder rank (xs ++ ys)) (hx : x ∈ xs) (hy : y ∈ ys) : rank x ≤ rank y :=
  (List.pairwise_append.1 h).2.2 x hx y hy

theorem le_last (h : InOrder rank (xs ++ [y])) (hx : x ∈ xs ++ [y]) : rank x ≤ rank y := by
  rcases List.mem_append.1 hx with hx | hx
  · exact h.le_of_append hx (List.mem_singleton_self y)
  · exact Nat.le_of_eq (congrArg rank (List.mem_singleton.1 hx))

theorem append (hxs : InOrder rank xs) (hys : InOrder rank ys) (h : ∀ x ∈ xs, ∀ y ∈ ys, rank x ≤ rank y) :
    InOrder rank (xs ++ ys) :=
  List.pairwise_append.2 ⟨hxs, hys, h⟩

end InOrder

namespace SortsTo

theorem refl (h : InOrder rank xs) : SortsTo rank xs xs :=
  ⟨.refl xs, h⟩

theorem mem_iff (h : SortsTo rank xs ys) : x ∈ ys ↔ x ∈ xs :=
  h.rearranged.mem_iff

theorem of_rearranged (h : Rearranged rank xs ys) (h' : SortsTo rank ys zs) : SortsTo rank xs zs :=
  ⟨h.trans h'.rearranged, h'.inOrder⟩

/-- A list in order is sorted to itself only. -/
theorem eq_of_inOrder (h : SortsTo rank xs ys) (hxs : InOrder rank xs) : ys = xs :=
  h.rearranged.eq_of_inOrder hxs

/-- An element that ranks lowest comes first. -/
theorem cons (h : SortsTo rank xs ys) (hx : ∀ y ∈ xs, rank x ≤ rank y) : SortsTo rank (x :: xs) (x :: ys) :=
  ⟨h.rearranged.cons x, List.pairwise_cons.2 ⟨fun y hy => hx y (h.mem_iff.1 hy), h.inOrder⟩⟩

/-- Lists of which the first one ranks lower are sorted one by one. -/
theorem append (h : SortsTo rank xs ys) (h' : SortsTo rank us vs) (hle : ∀ x ∈ xs, ∀ u ∈ us, rank x ≤ rank u) :
    SortsTo rank (xs ++ us) (ys ++ vs) :=
  ⟨h.rearranged.append h'.rearranged, h.inOrder.append h'.inOrder fun x hx u hu =>
    hle x (h.mem_iff.1 hx) u (h'.mem_iff.1 hu)⟩

/-- An element that ranks highest comes last. -/
theorem concat (h : SortsTo rank xs ys) (hy : ∀ x ∈ xs, rank x ≤ rank y) :
    SortsTo rank (xs ++ [y]) (ys ++ [y]) := by
  apply h.append (refl (List.pairwise_singleton _ y))
  intro x hx u hu
  rw [List.mem_singleton.1 hu]
  exact hy x hx

end SortsTo

end Rearrangements

/-! ## Computations with comparisons -/

/-- What is said of computations by their results; a computation put together from two others has what the
second one is said to have after any result of the first. -/
structure Promises (m : Type → Type) [Monad m] (P : ∀ β : Type, m β → (β → Prop) → Prop) : Prop where
  pure {β : Type} {b : β} {Q : β → Prop} (h : Q b) : P _ (pure b : m β) Q
  bind {β γ : Type} {act : m β} {f : β → m γ} {R : β → Prop} {Q : γ → Prop} (h : P _ act R)
    (hf : ∀ b, R b → P _ (f b) Q) : P _ (act >>= f) Q
  mono {β : Type} {act : m β} {R Q : β → Prop} (h : P _ act R) (himp : ∀ b, R b → Q b) : P _ act Q

namespace Comparison

variable {m : Type → Type} [Monad m] {α : Type} {P : ∀ β : Type, m β → (β → Prop) → Prop}
  {among : α → Prop} {rank : α → Nat}

/-- Among certain elements, the answers of a comparison are those of their ranks. -/
structure Ranks (order : Comparison m α) (P : ∀ β : Type, m β → (β → Prop) → Prop) (among : α → Prop)
    (rank : α → Nat) : Prop extends Promises m P where
  less {a b : α} (ha : among a) (hb : among b) : P _ (order.less a b) (· = decide (rank a < rank b))

variable {order : Comparison m α} (h : order.Ranks P among rank)
include h

/-- A comparison decides how to go on. -/
theorem promises_if {β : Type} {a b : α} {yes no : m β} {Q : β → Prop} (ha : among a) (hb : among b)
    (hyes : rank a < rank b → P _ yes Q) (hno : rank b ≤ rank a → P _ no Q) :
    P _ (do if ← order.less a b then yes else no) Q := by
  apply h.bind (h.less ha hb)
  rintro _ rfl
  split
  · rename_i hlt
    exact hyes (of_decide_eq_true hlt)
  · rename_i hge
    exact hno (by simpa using hge)

/-! ## Insertion -/

theorem promises_insertBehind {x : α} {xs : List α} (hx : among x) (hxs : ∀ y ∈ xs, among y)
    (hsorted : InOrder rank xs.reverse) :
    P _ (order.insertBehind x xs) fun ys => SortsTo rank (xs.reverse ++ [x]) ys.reverse := by
  induction xs with
  | nil => exact h.pure (.refl (List.pairwise_singleton _ x))
  | cons last rest ih =>
    obtain ⟨hlast, hrest⟩ := List.forall_mem_cons.1 hxs
    rw [List.reverse_cons] at hsorted ⊢
    apply promises_if h hx hlast
    · intro hlt
      apply h.bind (ih hrest hsorted.left)
      intro ys hys
      apply h.pure
      rw [List.reverse_cons]
      have swapped : Rearranged rank (rest.reverse ++ [last] ++ [x]) (rest.reverse ++ [x] ++ [last]) := by
        rw [List.append_assoc, List.append_assoc]
        exact (Rearranged.swap hlt []).append_left rest.reverse
      apply SortsTo.of_rearranged swapped (hys.concat _)
      intro y hy
      rcases List.mem_append.1 hy with hy | hy
      · exact hsorted.le_of_append hy (List.mem_singleton_self last)
      · rw [List.mem_singleton.1 hy]
        omega
    · intro hle
      apply h.pure
      rw [List.reverse_cons, List.reverse_cons]
      apply SortsTo.concat (.refl hsorted)
      intro y hy
      have := hsorted.le_last hy
      omega

/-- Elements are inserted one after another, each behind those of its rank. -/
theorem promises_insertAll {sorted xs : List α} (hsorted : ∀ y ∈ sorted, among y) (hxs : ∀ y ∈ xs, among y)
    (hinOrder : InOrder rank sorted.reverse) :
    P _ (order.insertAll sorted xs) fun ys => SortsTo rank (sorted.reverse ++ xs) ys.reverse := by
  induction xs generalizing sorted with
  | nil =>
    apply h.pure
    rw [List.append_nil]
    exact .refl hinOrder
  | cons x xs ih =>
    obtain ⟨hx, hrest⟩ := List.forall_mem_cons.1 hxs
    show P _ (order.insertBehind x sorted >>= fun sorted => order.insertAll sorted xs) _
    apply h.bind (promises_insertBehind h hx hsorted hinOrder)
    intro ys hys
    have hamong : ∀ y ∈ ys, among y := by
      intro y hy
      rcases List.mem_append.1 (hys.mem_iff.1 (List.mem_reverse.2 hy)) with hy | hy
      · exact hsorted y (List.mem_reverse.1 hy)
      · rwa [List.mem_singleton.1 hy]
    apply h.mono (ih hamong hrest hys.inOrder)
    intro zs hzs
    apply SortsTo.of_rearranged _ hzs
    have := hys.rearranged.append_right xs
    rwa [List.append_assoc, List.singleton_append] at this

/-! ## Merges -/

theorem promises_mergeUp {done left right : List α} (hleft : ∀ x ∈ left, among x) (hright : ∀ y ∈ right, among y)
    (hsorted : InOrder rank left) (hsorted' : InOrder rank right) :
    P _ (order.mergeUp done left right) fun r =>
      ∃ ys, r = done.reverse ++ ys ∧ SortsTo rank (left ++ right) ys := by
  fun_induction mergeUp order done left right with
  | case1 done right => exact h.pure ⟨right, rfl, .refl hsorted'⟩
  | case2 done left =>
    refine h.pure ⟨left, rfl, ?_⟩
    rw [List.append_nil]
    exact .refl hsorted
  | case3 done x left y right ihRight ihLeft =>
    obtain ⟨hx, hrestLeft⟩ := List.forall_mem_cons.1 hleft
    obtain ⟨hy, hrestRight⟩ := List.forall_mem_cons.1 hright
    apply promises_if h hy hx
    · intro hlt
      apply h.mono (ihRight hleft hrestRight hsorted hsorted'.tail)
      rintro r ⟨ys, rfl, hys⟩
      refine ⟨y :: ys, by simp, ?_⟩
      -- the first of the right list moves in front of the left one
      have moved : Rearranged rank (x :: left ++ y :: right) (y :: (x :: left ++ right)) := by
        have behind : Rearranged rank (x :: left ++ [y]) ([y] ++ x :: left) := by
          apply Rearranged.exchange
          intro z hz u hu
          have := hsorted.le_of_mem hz
          rw [List.mem_singleton.1 hu]
          omega
        simpa using behind.append_right right
      apply SortsTo.of_rearranged moved (hys.cons _)
      intro z hz
      rcases List.mem_append.1 hz with hz | hz
      · have := hsorted.le_of_mem hz
        omega
      · exact hsorted'.le_of_mem (List.mem_cons_of_mem y hz)
    · intro hle
      apply h.mono (ihLeft hrestLeft hright hsorted.tail hsorted')
      rintro r ⟨ys, rfl, hys⟩
      refine ⟨x :: ys, by simp, hys.cons ?_⟩
      intro z hz
      rcases List.mem_append.1 hz with hz | hz
      · exact hsorted.le_of_mem (List.mem_cons_of_mem x hz)
      · have := hsorted'.le_of_mem hz
        omega

theorem promises_mergeDown {done left right : List α} (hleft : ∀ x ∈ left, among x)
    (hright : ∀ y ∈ right, among y) (hsorted : InOrder rank left.reverse)
    (hsorted' : InOrder rank right.reverse) :
    P _ (order.mergeDown done left right) fun r =>
      ∃ ys, r = ys ++ done ∧ SortsTo rank (left.reverse ++ right.reverse) ys := by
  fun_induction mergeDown order done left right with
  | case1 done right => exact h.pure ⟨right.reverse, rfl, .refl hsorted'⟩
  | case2 done left =>
    refine h.pure ⟨left.reverse, rfl, ?_⟩
    rw [List.reverse_nil, List.append_nil]
    exact .refl hsorted
  | case3 done x left y right ihLeft ihRight =>
    obtain ⟨hx, hrestLeft⟩ := List.forall_mem_cons.1 hleft
    obtain ⟨hy, hrestRight⟩ := List.forall_mem_cons.1 hright
    rw [List.reverse_cons] at hsorted hsorted'
    apply promises_if h hy hx
    · intro hlt
      apply h.mono (ihLeft hrestLeft hright hsorted.left (by rwa [List.reverse_cons]))
      rintro r ⟨ys, rfl, hys⟩
      refine ⟨ys ++ [x], by simp, ?_⟩
      rw [List.reverse_cons] at hys
      rw [List.reverse_cons, List.reverse_cons]
      -- the last of the left list moves behind the right one
      have moved : Rearranged rank (left.reverse ++ [x] ++ (right.reverse ++ [y]))
          (left.reverse ++ (right.reverse ++ [y]) ++ [x]) := by
        rw [List.append_assoc, List.append_assoc]
        apply Rearranged.append_left
        apply Rearranged.move
        intro z hz
        have := hsorted'.le_last hz
        omega
      apply SortsTo.of_rearranged moved (hys.concat _)
      intro z hz
      rcases List.mem_append.1 hz with hz | hz
      · exact hsorted.le_last (List.mem_append_left _ hz)
      · have := hsorted'.le_last hz
        omega
    · intro hle
      apply h.mono (ihRight hleft hrestRight (by rwa [List.reverse_cons]) hsorted'.left)
      rintro r ⟨ys, rfl, hys⟩
      refine ⟨ys ++ [y], by simp, ?_⟩
      rw [List.reverse_cons] at hys
      rw [List.reverse_cons, List.reverse_cons, ← List.append_assoc]
      apply hys.concat
      intro z hz
      rcases List.mem_append.1 hz with hz | hz
      · have := hsorted.le_last hz
        omega
      · exact hsorted'.le_last (List.mem_append_left _ hz)

/-- Two sorted lists are merged, and of elements of one rank those of the first list come first. -/
theorem promises_merge {left right : List α} (hleft : ∀ x ∈ left, among x) (hright : ∀ y ∈ right, among y)
    (hsorted : InOrder rank left) (hsorted' : InOrder rank right) :
    P _ (order.merge left right) (SortsTo rank (left ++ right)) := by
  unfold merge
  split
  · apply h.mono (promises_mergeUp h hleft hright hsorted hsorted')
    rintro r ⟨ys, rfl, hys⟩
    exact hys
  · have reversed {zs : List α} (hzs : InOrder rank zs) : InOrder rank zs.reverse.reverse := by
      rwa [List.reverse_reverse]
    apply h.mono (promises_mergeDown h (fun x hx => hleft x (List.mem_reverse.1 hx))
      (fun y hy => hright y (List.mem_reverse.1 hy)) (reversed hsorted) (reversed hsorted'))
    rintro r ⟨ys, rfl, hys⟩
    rwa [List.reverse_reverse, List.reverse_reverse, ← List.append_nil ys] at hys

end Comparison

end Reactor
