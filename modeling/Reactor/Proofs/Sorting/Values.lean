import Reactor.Proofs.Collections.Items
import Reactor.Proofs.Ordering.Agreement
import Reactor.Proofs.Sorting.Stable

/-!
# Sorted values, the least and the greatest one

If every two elements of a list can be compared, and what is not greater than something not greater than a third
one is not greater than that, the elements have ranks by which their comparisons go
(`Value.exists_comparedBy`). So a list or sequence is sorted, its least element is the first one in order, and its
greatest one the earliest that no other is greater than (`Value.sort_min_max`).
-/

namespace Reactor

/-! ## Ranks -/

section Ranks

variable {α : Type} {cmp : α → α → Option Ordering} {items : List α} {a b : α}

/-- Every two of the elements can be compared, the comparison from the other side is reversed, and the elements
are in order if each is not greater than the next one. -/
structure Comparable (cmp : α → α → Option Ordering) (items : List α) : Prop where
  isSome {a b : α} (ha : a ∈ items) (hb : b ∈ items) : (cmp a b).isSome = true
  swap {a b : α} (ha : a ∈ items) (hb : b ∈ items) : cmp b a = (cmp a b).map Ordering.swap
  trans {a b c : α} (ha : a ∈ items) (hb : b ∈ items) (hc : c ∈ items) (hab : cmp a b ≠ some .gt)
    (hbc : cmp b c ≠ some .gt) : cmp a c ≠ some .gt

/-- The number of elements that are less. -/
def rankAmong (cmp : α → α → Option Ordering) (items : List α) (a : α) : Nat :=
  (items.filter fun b => cmp b a = some .lt).length

namespace Comparable

variable (h : Comparable cmp items)
include h

theorem self (ha : a ∈ items) : cmp a a = some .eq := by
  have hswap := h.swap ha ha
  obtain ⟨o, ho⟩ := Option.isSome_iff_exists.1 (h.isSome ha ha)
  rw [ho] at hswap ⊢
  cases o with
  | eq => rfl
  | lt => cases hswap
  | gt => cases hswap

/-- What is less than one element is less than all that this one is not greater than. -/
theorem lt_of_lt_of_le {c : α} (ha : a ∈ items) (hb : b ∈ items) (hc : c ∈ items) (hca : cmp c a = some .lt)
    (hab : cmp a b ≠ some .gt) : cmp c b = some .lt := by
  have hac : cmp a c = some .gt := by
    rw [h.swap hc ha, hca]
    rfl
  obtain ⟨o, ho⟩ := Option.isSome_iff_exists.1 (h.isSome hc hb)
  rw [ho]
  have hle : cmp c b ≠ some .gt := h.trans hc ha hb (by rw [hca]; nofun) hab
  cases o with
  | lt => rfl
  | gt => exact absurd ho hle
  | eq =>
    have hbc : cmp b c = some .eq := by
      rw [h.swap hc hb, ho]
      rfl
    exact absurd hac (h.trans ha hb hc hab (by rw [hbc]; nofun))

theorem rank_lt (ha : a ∈ items) (hb : b ∈ items) (hab : cmp a b = some .lt) :
    rankAmong cmp items a < rankAmong cmp items b := by
  have hle : cmp a b ≠ some .gt := by
    rw [hab]
    nofun
  have hfilter : (items.filter fun c => cmp c a = some .lt) =
      (items.filter fun c => cmp c b = some .lt).filter fun c => cmp c a = some .lt := by
    rw [List.filter_filter]
    apply List.filter_congr
    intro c hc
    by_cases hca : cmp c a = some .lt
    · simp [hca, h.lt_of_lt_of_le ha hb hc hca hle]
    · simp [hca]
  unfold rankAmong
  rw [hfilter, List.length_filter_lt_length_iff_exists]
  refine ⟨a, List.mem_filter.2 ⟨ha, by simp [hab]⟩, ?_⟩
  rw [h.self ha]
  simp

theorem rank_eq (ha : a ∈ items) (hb : b ∈ items) (hab : cmp a b = some .eq) :
    rankAmong cmp items a = rankAmong cmp items b := by
  have hba : cmp b a = some .eq := by
    rw [h.swap ha hb, hab]
    rfl
  unfold rankAmong
  congr 1
  apply List.filter_congr
  intro c hc
  rw [decide_eq_decide]
  constructor
  · intro hca
    exact h.lt_of_lt_of_le ha hb hc hca (by rw [hab]; nofun)
  · intro hcb
    exact h.lt_of_lt_of_le hb ha hc hcb (by rw [hba]; nofun)

/-- The comparisons go by the ranks. -/
theorem eq_compare_rank (ha : a ∈ items) (hb : b ∈ items) :
    cmp a b = some (Ord.compare (rankAmong cmp items a) (rankAmong cmp items b)) := by
  obtain ⟨o, ho⟩ := Option.isSome_iff_exists.1 (h.isSome ha hb)
  rw [ho]
  cases o with
  | lt => rw [Nat.compare_eq_lt.2 (h.rank_lt ha hb ho)]
  | eq => rw [Nat.compare_eq_eq.2 (h.rank_eq ha hb ho)]
  | gt =>
    have hba : cmp b a = some .lt := by
      rw [h.swap ha hb, ho]
      rfl
    rw [Nat.compare_eq_gt.2 (h.rank_lt hb ha hba)]

end Comparable

end Ranks

/-! ## The first of the least elements -/

/-- One after another is kept if it has a lower key than the one kept so far. -/
def leastBy {α : Type} (key : α → Int) (first : α) (rest : List α) : α :=
  rest.foldl (fun best x => if key x < key best then x else best) first

/-- The element that is kept in the end has a lower key than those before it, and no higher one than those behind it. -/
theorem leastBy_spec {α : Type} (key : α → Int) (first : α) (rest : List α) :
    ∃ before after, first :: rest = before ++ leastBy key first rest :: after ∧
      (∀ a ∈ before, key (leastBy key first rest) < key a) ∧
      ∀ a ∈ first :: rest, key (leastBy key first rest) ≤ key a := by
  induction rest generalizing first with
  | nil => exact ⟨[], [], rfl, nofun, by simp [leastBy]⟩
  | cons x rest ih =>
    by_cases hlt : key x < key first
    · have hkept : leastBy key first (x :: rest) = leastBy key x rest := by
        rw [leastBy, List.foldl_cons, if_pos hlt]
        rfl
      obtain ⟨before, after, heq, hbefore, hall⟩ := ih x
      have hx := hall x List.mem_cons_self
      rw [hkept]
      refine ⟨first :: before, after, by rw [heq]; rfl, ?_, ?_⟩
      · exact List.forall_mem_cons.2 ⟨by omega, hbefore⟩
      · exact List.forall_mem_cons.2 ⟨by omega, hall⟩
    · have hkept : leastBy key first (x :: rest) = leastBy key first rest := by
        rw [leastBy, List.foldl_cons, if_neg hlt]
        rfl
      obtain ⟨before, after, heq, hbefore, hall⟩ := ih first
      obtain ⟨hfirst, hrest⟩ := List.forall_mem_cons.1 hall
      rw [hkept]
      have hmembers : ∀ a ∈ first :: x :: rest, key (leastBy key first rest) ≤ key a :=
        List.forall_mem_cons.2 ⟨hfirst, List.forall_mem_cons.2 ⟨by omega, hrest⟩⟩
      cases before with
      | nil =>
        obtain ⟨hsame, rfl⟩ := List.cons.inj heq
        exact ⟨[], x :: rest, by rw [← hsame]; rfl, nofun, hmembers⟩
      | cons b before =>
        obtain ⟨rfl, hrest'⟩ := List.cons.inj heq
        refine ⟨first :: x :: before, after, congrArg (first :: x :: ·) hrest', ?_, hmembers⟩
        obtain ⟨hb, hbefore⟩ := List.forall_mem_cons.1 hbefore
        exact List.forall_mem_cons.2 ⟨hb, List.forall_mem_cons.2 ⟨by omega, hbefore⟩⟩

namespace Value

open Eval

variable {ctx ctx' : Context} {w : World} {a b v : Value} {items xs ys : List Value} {rank : Value → Nat}

/-! ## Comparisons -/

/-- Lists compare in the same way for another thread if their elements do. -/
theorem compareItems_of_context {order : Value → Value → Eval Ordering} {o : Ordering}
    (h : ∀ (i : Nat) (hx : i < xs.length) (hy : i < ys.length) (p : Ordering),
      order xs[i] ys[i] ctx w = .value p w → order xs[i] ys[i] ctx' w = .value p w)
    (quiet : Quiet order ctx w xs ys) (run : compareItems order xs ys ctx w = .value o w) :
    compareItems order xs ys ctx' w = .value o w := by
  induction xs generalizing ys o with
  | nil =>
    rw [compareItems_nil_left] at run ⊢
    exact run
  | cons x xs ih =>
    cases ys with
    | nil =>
      rw [compareItems_nil_right] at run ⊢
      exact run
    | cons y ys =>
      obtain ⟨first, rest, hfirst, rfl, hequal, -⟩ := compareItems_cons quiet run
      have hfirst' := h 0 (Nat.zero_lt_succ _) (Nat.zero_lt_succ _) first hfirst
      rw [compareItems, bind_eq_value_iff]
      refine ⟨first, w, hfirst', ?_⟩
      cases first with
      | lt => rfl
      | gt => rfl
      | eq =>
        exact ih (fun i hx hy => h (i + 1) (Nat.succ_lt_succ hx) (Nat.succ_lt_succ hy)) quiet.tail (hequal rfl)

/-- Values that come to no lambda compare in the same way for every thread. -/
theorem compareAt_of_context {depth : Nat} {o : Ordering} (ha : w.Inert a) (hb : w.Inert b)
    (run : compareAt depth a b ctx w = .value o w) : compareAt depth a b ctx' w = .value o w := by
  induction depth generalizing a b o with
  | zero => cases run
  | succ depth ih =>
    by_cases hi : items? a.data = none ∨ items? b.data = none
    · rw [compareAt_eq_ofExcept (ha.lambda? (.refl a)) (hb.lambda? (.refl b)) hi] at run ⊢
      cases hleaves : compareLeaves a.data b.data with
      | error e =>
        rw [hleaves] at run
        cases run
      | ok p =>
        rw [hleaves] at run
        exact run
    · rw [not_or] at hi
      obtain ⟨xs, hxs⟩ := Option.ne_none_iff_exists'.1 hi.1
      obtain ⟨ys, hys⟩ := Option.ne_none_iff_exists'.1 hi.2
      rw [compareAt_items hxs hys] at run ⊢
      have parts {i : Nat} (hx : i < xs.length) (hy : i < ys.length) : w.Inert xs[i] ∧ w.Inert ys[i] :=
        ⟨ha.part (getElem_mem_parts hxs hx), hb.part (getElem_mem_parts hys hy)⟩
      refine compareItems_of_context (fun i hx hy p run => ih (parts hx hy).1 (parts hx hy).2 run) ?_ run
      exact fun i hx hy p v run => (compareAt_swap (parts hx hy).1 (parts hx hy).2 run).1

/-- The order of two values if they can be compared. -/
def compared (ctx : Context) (w : World) (a b : Value) : Option Ordering :=
  match a.compare b ctx w with
  | .value o _ => some o
  | _ => none

/-- The comparisons of the elements go by their ranks. -/
def ComparedBy (ctx : Context) (w : World) (items : List Value) (rank : Value → Nat) : Prop :=
  ∀ a ∈ items, ∀ b ∈ items, a.compare b ctx w = .value (Ord.compare (rank a) (rank b)) w

theorem compare_of_compared {o : Ordering} (ha : w.Inert a) (hb : w.Inert b) (h : compared ctx w a b = some o) :
    a.compare b ctx w = .value o w := by
  unfold compared at h
  split at h
  · rename_i p u run
    obtain rfl := Option.some.inj h
    have run' : compareAt ctx.budget a b ctx w = .value p u := run
    obtain ⟨rfl, -⟩ := compareAt_swap ha hb run'
    exact run
  · cases h

theorem compared_swap (ha : w.Inert a) (hb : w.Inert b) (h : (compared ctx w a b).isSome = true) :
    compared ctx w b a = (compared ctx w a b).map Ordering.swap := by
  obtain ⟨o, ho⟩ := Option.isSome_iff_exists.1 h
  have run : compareAt ctx.budget a b ctx w = .value o w := compare_of_compared ha hb ho
  obtain ⟨-, back⟩ := compareAt_swap ha hb run
  rw [ho, compared, show b.compare a ctx w = .value o.swap w from back]
  rfl

/-- Elements that can be compared, in agreement with each other, have ranks. -/
theorem exists_comparedBy (hitems : ∀ a ∈ items, w.Inert a)
    (hsome : ∀ a ∈ items, ∀ b ∈ items, (compared ctx w a b).isSome = true)
    (htrans : ∀ a ∈ items, ∀ b ∈ items, ∀ c ∈ items, compared ctx w a b ≠ some .gt →
      compared ctx w b c ≠ some .gt → compared ctx w a c ≠ some .gt) :
    ∃ rank, ComparedBy ctx w items rank := by
  have hcomparable : Comparable (compared ctx w) items :=
    { isSome := fun ha hb => hsome _ ha _ hb
      swap := fun ha hb => compared_swap (hitems _ ha) (hitems _ hb) (hsome _ ha _ hb)
      trans := fun ha hb hc => htrans _ ha _ hb _ hc }
  refine ⟨rankAmong (compared ctx w) items, fun a ha b hb => ?_⟩
  exact compare_of_compared (hitems a ha) (hitems b hb) (hcomparable.eq_compare_rank ha hb)

namespace ComparedBy

variable (h : ComparedBy ctx w items rank)
include h

theorem compared_eq (ha : a ∈ items) (hb : b ∈ items) :
    compared ctx w a b = some (Ord.compare (rank a) (rank b)) := by
  rw [compared, h a ha b hb]

theorem compared_eq_gt_iff (ha : a ∈ items) (hb : b ∈ items) :
    compared ctx w a b = some .gt ↔ rank b < rank a := by
  rw [h.compared_eq ha hb, Option.some_inj, Nat.compare_eq_gt]

theorem compared_eq_eq_iff (ha : a ∈ items) (hb : b ∈ items) :
    compared ctx w a b = some .eq ↔ rank b = rank a := by
  rw [h.compared_eq ha hb, Option.some_inj, Nat.compare_eq_eq]
  exact eq_comm

/-- The ranks are the same for every thread with the budget. -/
theorem of_context (hitems : ∀ a ∈ items, w.Inert a) (hbudget : ctx'.budget = ctx.budget) :
    ComparedBy ctx' w items rank := by
  intro a ha b hb
  show compareAt ctx'.budget a b ctx' w = _
  rw [hbudget]
  exact compareAt_of_context (hitems a ha) (hitems b hb) (h a ha b hb)

/-! ## The sort -/

/-- The comparison of a sort never fails, and goes by the ranks. -/
theorem ranks_order : order.Ranks (fun _ act Q => ∃ b, StateT.run act none ctx w = .value (b, none) w ∧ Q b)
    (· ∈ items) rank where
  pure hQ := ⟨_, rfl, hQ⟩
  bind := by
    rintro β γ act f R Q ⟨b, run, hb⟩ hf
    obtain ⟨c, run', hc⟩ := hf b hb
    refine ⟨c, ?_, hc⟩
    rw [StateT.run_bind, bind_apply, run]
    exact run'
  mono := by
    rintro β act R Q ⟨b, run, hb⟩ himp
    exact ⟨b, run, himp b hb⟩
  less := by
    intro a b ha hb
    refine ⟨_, ?_, rfl⟩
    have hattempt : (a.compare b).attempt ctx w = .value (.ok (Ord.compare (rank a) (rank b))) w := by
      rw [attempt_apply, h a ha b hb]
      rfl
    simp only [order, StateT.run_bind, StateT.run_monadLift, monadLift_self, bind_apply, hattempt,
      Outcome.bind_value, pure_apply, StateT.run_pure, Nat.compare_eq_lt]

theorem sortItems_done (hxs : ∀ x ∈ xs, x ∈ items) :
    ∃ sorted, sortItems xs ctx w = .value sorted w ∧ SortsTo rank xs sorted := by
  obtain ⟨sorted, run, hsorted⟩ := Comparison.promises_sort h.ranks_order hxs
  refine ⟨sorted, ?_, hsorted⟩
  rw [sortItems, bind_apply, run]
  rfl

end ComparedBy

/-! ## The least and the greatest element -/

/-- The element that comes first in order is the first of those with the lowest rank. -/
theorem head?_eq_leastBy {first : Value} {rest sorted : List Value} (h : SortsTo rank (first :: rest) sorted) :
    sorted.head? = some (leastBy (fun a => rank a) first rest) := by
  obtain ⟨before, after, heq, hbefore, hall⟩ := leastBy_spec (fun a => (rank a : Int)) first rest
  generalize leastBy (fun a => (rank a : Int)) first rest = least at heq hbefore hall ⊢
  have hmem : least ∈ sorted := h.mem_iff.2 (by simp [heq])
  cases sorted with
  | nil => cases hmem
  | cons head tail =>
    have hhead := hall head (h.mem_iff.1 List.mem_cons_self)
    have hleast := h.inOrder.le_of_mem hmem
    have hrank : rank head = rank least := by omega
    have hbefore' : before.filter (rank · = rank least) = [] := by
      rw [List.filter_eq_nil_iff]
      intro a ha
      have := hbefore a ha
      rw [decide_eq_true_eq]
      omega
    have hfilter := h.rearranged.filter_eq (rank least)
    rw [heq, List.filter_append, hbefore', List.nil_append, List.filter_cons_of_pos (by simpa using hrank),
      List.filter_cons_of_pos (by simp)] at hfilter
    exact congrArg some (List.cons.inj hfilter).1

/-- A fold that keeps the element of the lower key. -/
theorem foldItems_leastBy {key : Value → Int} {f : Value → Value → Eval Value} {first : Value} {rest : List Value}
    (hf : ∀ ctx' : Context, ctx'.budget = ctx.budget → ∀ a ∈ first :: rest, ∀ b ∈ first :: rest,
      f a b ctx' w = .value (if key b < key a then b else a) w) :
    foldItems f .void (first :: rest) ctx w = .value (leastBy key first rest) w := by
  apply inTurn_eq_foldl (I := (· ∈ first :: rest))
  · intro ctx' hbudget a ha b hb
    exact hf ctx' hbudget a ha b (List.mem_cons_of_mem first hb)
  · intro a ha b hb
    split
    · exact List.mem_cons_of_mem first hb
    · exact ha
  · exact List.mem_cons_self

/-- Of the elements in turn, one is kept if it compares as less than the one kept so far. -/
theorem min_eq_leastBy {first : Value} {rest : List Value} (hinert : ∀ a ∈ first :: rest, w.Inert a)
    (hitems : items? v.data = some (first :: rest)) (h : ComparedBy ctx w (first :: rest) rank) :
    v.min ctx w = .value (leastBy (fun a => rank a) first rest) w := by
  rw [min, bind_apply, toList_of_items? hitems]
  refine foldItems_leastBy fun ctx' hbudget a ha b hb => ?_
  rw [bind_apply, h.of_context hinert hbudget a ha b hb, Outcome.bind_value, pure_apply]
  by_cases hlt : rank b < rank a
  · rw [if_neg (by rw [Nat.compare_eq_gt.2 hlt]; simp), if_pos (by omega)]
  · rw [if_pos (by rwa [ne_eq, Nat.compare_eq_gt]), if_neg (by omega)]

/-- Of the elements in turn, one is kept if it compares as greater than the one kept so far. -/
theorem max_eq_leastBy {first : Value} {rest : List Value} (hinert : ∀ a ∈ first :: rest, w.Inert a)
    (hitems : items? v.data = some (first :: rest)) (h : ComparedBy ctx w (first :: rest) rank) :
    v.max ctx w = .value (leastBy (fun a => -rank a) first rest) w := by
  rw [max, bind_apply, toList_of_items? hitems]
  refine foldItems_leastBy fun ctx' hbudget a ha b hb => ?_
  rw [bind_apply, h.of_context hinert hbudget a ha b hb, Outcome.bind_value, pure_apply]
  by_cases hlt : rank a < rank b
  · rw [if_neg (by rw [Nat.compare_eq_lt.2 hlt]; simp), if_pos (by omega)]
  · rw [if_pos (by rwa [ne_eq, Nat.compare_eq_lt]), if_neg (by omega)]

/-- The least element is the first one in order. -/
theorem min_done {sorted : List Value} (hinert : ∀ a ∈ items, w.Inert a) (hitems : items? v.data = some items)
    (h : ComparedBy ctx w items rank) (hsorted : SortsTo rank items sorted) :
    v.min ctx w = .value (sorted.head?.getD .void) w := by
  cases items with
  | nil =>
    rw [List.eq_nil_of_length_eq_zero hsorted.rearranged.perm.length_eq.symm, min, bind_apply,
      toList_of_items? hitems]
    rfl
  | cons first rest =>
    rw [min_eq_leastBy hinert hitems h, head?_eq_leastBy hsorted]
    rfl

/-- The greatest element is the earliest one than which no other is greater. -/
theorem max_done (hinert : ∀ a ∈ items, w.Inert a) (hitems : items? v.data = some items)
    (h : ComparedBy ctx w items rank) :
    ∃ greatest, v.max ctx w = .value greatest w ∧ if items = [] then greatest = .void else
      ∃ before after, items = before ++ greatest :: after ∧ (∀ a ∈ items, compared ctx w a greatest ≠ some .gt) ∧
        ∀ a ∈ before, compared ctx w greatest a = some .gt := by
  cases items with
  | nil =>
    refine ⟨.void, ?_, rfl⟩
    rw [max, bind_apply, toList_of_items? hitems]
    rfl
  | cons first rest =>
    refine ⟨_, max_eq_leastBy hinert hitems h, ?_⟩
    rw [if_neg (List.cons_ne_nil first rest)]
    obtain ⟨before, after, heq, hbefore, hall⟩ := leastBy_spec (fun a => -(rank a : Int)) first rest
    generalize leastBy (fun a => -(rank a : Int)) first rest = greatest at heq hbefore hall ⊢
    have hgreatest : greatest ∈ first :: rest := by simp [heq]
    refine ⟨before, after, heq, fun a ha => ?_, fun a ha => ?_⟩
    · rw [ne_eq, h.compared_eq_gt_iff ha hgreatest]
      have := hall a ha
      omega
    · rw [h.compared_eq_gt_iff hgreatest (by simp [heq, ha])]
      have := hbefore a ha
      omega

/-- A list or a sequence is sorted, as is every other one of its elements. -/
theorem sort_done (hinert : ∀ a ∈ items, w.Inert a) (h : ComparedBy ctx w items rank)
    (hxs : items? v.data = some xs) (hmem : ∀ x ∈ xs, x ∈ items) :
    ∃ sorted, v.sort ctx w = .value (sameKind v sorted) w ∧ SortsTo rank xs sorted := by
  let ctx' := { ctx with thread := { ctx.thread with held := itemsPlaces xs ++ ctx.thread.held } }
  have h' : ComparedBy ctx' w items rank := h.of_context hinert rfl
  obtain ⟨sorted, run, hsorted⟩ := h'.sortItems_done hmem
  refine ⟨sorted, ?_, hsorted⟩
  have held : holding (itemsPlaces xs) (sortItems xs) ctx w = .value sorted w := run
  rw [sort, onForced_of_items? hxs, bind_apply, onItems, bind_apply, toList_of_items? hxs, Outcome.bind_value, held]
  rfl

/-- **Sorting.** If every two elements of a list or a sequence can be compared, and these comparisons agree with each
other, the sorted collection has the elements in order, those that compare as equal in their old order, and to sort
it again changes nothing. The least element is the first one of it. The greatest element is the earliest one of the
list than which no other is greater. -/
theorem sort_min_max (ctx : Context) (hv : w.Inert v) (hitems : items? v.data = some items)
    (hsome : ∀ a ∈ items, ∀ b ∈ items, (compared ctx w a b).isSome = true)
    (htrans : ∀ a ∈ items, ∀ b ∈ items, ∀ c ∈ items, compared ctx w a b ≠ some .gt →
      compared ctx w b c ≠ some .gt → compared ctx w a c ≠ some .gt) :
    ∃ result sorted, v.sort ctx w = .value result w ∧ result.tag = v.tag ∧ items? result.data = some sorted ∧
      sorted.Perm items ∧ sorted.Pairwise (fun a b => compared ctx w a b ≠ some .gt) ∧
      (∀ a ∈ items, sorted.filter (compared ctx w a · = some .eq) = items.filter (compared ctx w a · = some .eq)) ∧
      result.sort ctx w = .value result w ∧ v.min ctx w = .value (sorted.head?.getD .void) w ∧
      ∃ greatest, v.max ctx w = .value greatest w ∧ if items = [] then greatest = .void else
        ∃ before after, items = before ++ greatest :: after ∧ (∀ a ∈ items, compared ctx w a greatest ≠ some .gt) ∧
          ∀ a ∈ before, compared ctx w greatest a = some .gt := by
  have hinert := inert_of_mem_items hv hitems
  obtain ⟨rank, hrank⟩ := exists_comparedBy hinert hsome htrans
  obtain ⟨sorted, run, hsorted⟩ := sort_done hinert hrank hitems fun _ hx => hx
  have hmem (x : Value) (hx : x ∈ sorted) : x ∈ items := hsorted.mem_iff.1 hx
  refine ⟨_, sorted, run, tag_sameKind hitems, items?_sameKind, hsorted.rearranged.perm.symm, ?_, ?_, ?_, ?_, ?_⟩
  · refine hsorted.inOrder.imp_of_mem fun ha hb hle => ?_
    rw [ne_eq, hrank.compared_eq_gt_iff (hmem _ ha) (hmem _ hb)]
    omega
  · intro a ha
    have hfilter {xs : List Value} (hxs : ∀ x ∈ xs, x ∈ items) :
        xs.filter (compared ctx w a · = some .eq) = xs.filter (rank · = rank a) :=
      List.filter_congr fun x hx => decide_eq_decide.2 (hrank.compared_eq_eq_iff ha (hxs x hx))
    rw [hfilter hmem, hfilter fun _ hx => hx]
    exact hsorted.rearranged.filter_eq (rank a)
  · obtain ⟨again, run', hagain⟩ := sort_done (v := sameKind v sorted) hinert hrank items?_sameKind hmem
    rw [run', sameKind_sameKind, hagain.eq_of_inOrder hsorted.inOrder]
  · exact min_done hinert hitems hrank hsorted
  · exact max_done hinert hitems hrank

/-- Of a text, an integer and a decimal, the integer is the least one, and the text and the decimal tie. -/
theorem sort_numerals :
    let ctx := Context.ofBudget 1 default
    let w : World := {}
    let items := [string "2", integer 1, decimal ⟨0x4000000000000000⟩]
    let sorted := [integer 1, string "2", decimal ⟨0x4000000000000000⟩]
    (w.Inert (sequence items) ∧ (∀ a ∈ items, ∀ b ∈ items, (compared ctx w a b).isSome = true) ∧
      ∀ a ∈ items, ∀ b ∈ items, ∀ c ∈ items, compared ctx w a b ≠ some .gt → compared ctx w b c ≠ some .gt →
        compared ctx w a c ≠ some .gt) ∧
      (sequence items).sort ctx w = .value (sequence sorted) w ∧
      (sequence sorted).sort ctx w = .value (sequence sorted) w ∧
      (sequence items).min ctx w = .value (integer 1) w ∧ (sequence items).max ctx w = .value (string "2") w := by
  intro ctx w items sorted
  have hv : w.Inert (sequence items) := inert_of_leaves rfl (by decide)
  have hsome : ∀ a ∈ items, ∀ b ∈ items, (compared ctx w a b).isSome = true := by decide
  have htrans : ∀ a ∈ items, ∀ b ∈ items, ∀ c ∈ items, compared ctx w a b ≠ some .gt →
      compared ctx w b c ≠ some .gt → compared ctx w a c ≠ some .gt := by decide
  obtain ⟨result, order, run, -, hdata, -, -, -, again, hmin, greatest, hmax, -⟩ := sort_min_max ctx hv rfl hsome htrans
  have hsort : (sequence items).sort ctx w = .value (sequence sorted) w := rfl
  have hlast : (sequence items).max ctx w = .value (string "2") w := rfl
  obtain rfl : result = sequence sorted := by
    rw [run] at hsort
    cases hsort
    rfl
  obtain rfl : order = sorted := (Option.some.inj hdata).symm
  obtain rfl : greatest = string "2" := by
    rw [hmax] at hlast
    cases hlast
    rfl
  exact ⟨⟨hv, hsome, htrans⟩, run, again, hmin, hmax⟩

end Value

end Reactor
