import Mathlib.Algebra.BigOperators.Group.List.Basic
import Mathlib.Data.UInt
import Reactor.Prediction.Tally

/-!
# The order and the sum of a tally

A tally gives its types by falling count, and those with the same count as they are declared
(`Tally.Before`). This is a strict order of the types, so the list that it gives is the only one
(`Tally.pairwise_types`), and the type that is chosen as the most probable one, by comparisons of its own,
is the first of the list (`Tally.probable?_eq`).

The total is counted on its own, too. What is added to a count is added to the total, so a tally whose total
is the sum of its counts stays so (`Tally.Summed.add`).
-/

namespace Reactor

namespace ValueType

theorem nodup_all : all.Nodup := by decide

theorem index_injective {s t : ValueType} (h : s.index = t.index) : s = t :=
  (List.idxOf_inj (mem_all s)).1 h

end ValueType

namespace Counts

variable {counts : Counts} {ty t : ValueType} {n : UInt64}

theorem count_add (counts : Counts) (ty t : ValueType) (n : UInt64) :
    (counts.add ty n).count t = if ty = t then counts.count t + n else counts.count t := by
  unfold add count
  rw [Entries.get?_insert]
  split
  · next h => rw [h]; rfl
  · rfl

theorem count_of_not_contains (h : Entries.contains counts t = false) : counts.count t = 0 := by
  have missing : Entries.get? counts t = none := by simpa [Entries.contains] using h
  rw [count, missing]
  rfl

/-- The counts of types that are seen one after another. -/
def ofSights (sights : List ValueType) : Counts :=
  sights.foldl (fun counts ty => counts.add ty 1) []

variable {sights : List ValueType}

theorem ofSights_concat (sights : List ValueType) (ty : ValueType) :
    ofSights (sights ++ [ty]) = (ofSights sights).add ty 1 := by
  simp [ofSights]

theorem count_ofSights (sights : List ValueType) (t : ValueType) :
    (ofSights sights).count t = UInt64.ofNat (sights.count t) := by
  induction sights using List.reverseRecOn with
  | nil => rfl
  | append_singleton sights ty ih =>
    rw [ofSights_concat, count_add, ih, List.count_append, List.count_singleton]
    split
    · next h => simp [h, UInt64.ofNat_add]
    · next h => simp [h]

theorem contains_ofSights : Entries.contains (ofSights sights) t = true ↔ t ∈ sights := by
  induction sights using List.reverseRecOn with
  | nil => simp [ofSights, Entries.contains, Entries.get?]
  | append_singleton sights ty ih =>
    rw [ofSights_concat, add, Entries.contains_insert, Bool.or_eq_true, decide_eq_true_iff, ih,
      List.mem_append, List.mem_singleton, or_comm, eq_comm]

theorem nodup_keys_ofSights (sights : List ValueType) : (Entries.keys (ofSights sights)).Nodup := by
  induction sights using List.reverseRecOn with
  | nil => exact .nil
  | append_singleton sights ty ih =>
    rw [ofSights_concat]
    exact Entries.nodup_keys_insert ih ty _

end Counts

namespace Tally

variable {tally : Tally} {s t r : ValueType}

/-- One type is given before another: it was seen more often, or as often and is declared first. -/
def Before (tally : Tally) (s t : ValueType) : Prop :=
  tally.count t < tally.count s ∨ tally.count s = tally.count t ∧ s.index < t.index

theorem compareGiven_eq_lt : tally.compareGiven s t = .lt ↔ tally.Before s t := by
  unfold compareGiven Before
  rw [Ordering.then_eq_lt, Std.compare_eq_lt, Std.compare_eq_lt, Std.LawfulEqOrd.compare_eq_iff_eq,
    eq_comm (a := tally.count t)]

instance : Std.TransCmp tally.compareGiven :=
  have : Std.TransCmp fun s t => compareOn tally.count t s := .opposite
  inferInstanceAs (Std.TransCmp (compareLex (fun s t => compareOn tally.count t s)
    (compareOn ValueType.index)))

instance : Std.LawfulEqCmp tally.compareGiven where
  compare_self := Std.ReflCmp.compare_self
  eq_of_compare h := ValueType.index_injective (Std.LawfulEqOrd.eq_of_compare (Ordering.then_eq_eq.1 h).2)

/-- The two comparisons are each other's reverse. -/
theorem compareProbable_eq (s t : ValueType) : tally.compareProbable s t = tally.compareGiven t s :=
  rfl

theorem mem_seen : t ∈ tally.seen ↔ Entries.contains tally.counts t = true := by
  simp [seen, ValueType.mem_all]

theorem perm_types (tally : Tally) : List.Perm tally.types tally.seen :=
  List.mergeSort_perm _ _

theorem mem_types : t ∈ tally.types ↔ Entries.contains tally.counts t = true :=
  tally.perm_types.mem_iff.trans mem_seen

theorem nodup_types (tally : Tally) : tally.types.Nodup :=
  tally.perm_types.nodup_iff.2 (ValueType.nodup_all.filter _)

/-- The types are given in the order of the tally. -/
theorem pairwise_types (tally : Tally) : tally.types.Pairwise tally.Before := by
  have sorted : tally.types.Pairwise fun s t => (tally.compareGiven s t).isLE = true := by
    refine List.pairwise_mergeSort (fun _ _ _ => Std.TransCmp.isLE_trans) (fun s t => ?_) _
    have swap : tally.compareGiven t s = (tally.compareGiven s t).swap := Std.OrientedCmp.eq_swap
    rw [swap]
    cases tally.compareGiven s t <;> rfl
  refine (sorted.and tally.nodup_types).imp fun {s t} h => ?_
  rw [← compareGiven_eq_lt]
  cases hc : tally.compareGiven s t with
  | lt => rfl
  | eq => exact absurd (Std.LawfulEqCmp.eq_of_compare hc) h.2
  | gt => simp [hc] at h

/-- Of two types the one is chosen that is given before the other. -/
theorem moreProbable_first (s t : ValueType) :
    (tally.moreProbable s t = s ∨ tally.moreProbable s t = t) ∧
      (tally.compareGiven (tally.moreProbable s t) s).isLE = true ∧
      (tally.compareGiven (tally.moreProbable s t) t).isLE = true := by
  have self (r : ValueType) : (tally.compareGiven r r).isLE = true := by simp [Std.ReflCmp.compare_self]
  unfold moreProbable
  rw [compareProbable_eq]
  split
  · next h =>
    have before : tally.compareGiven s t = .lt := Std.OrientedCmp.gt_iff_lt.1 h
    exact ⟨.inl rfl, self s, by simp [before]⟩
  · next h => exact ⟨.inr rfl, Ordering.isLE_iff_ne_gt.2 h, self t⟩

/-- The chosen type is one of those that are compared, and none of them is given before it. -/
theorem foldl_moreProbable (l : List ValueType) (first : ValueType) :
    l.foldl tally.moreProbable first ∈ first :: l ∧
      ∀ t ∈ first :: l, (tally.compareGiven (l.foldl tally.moreProbable first) t).isLE = true := by
  induction l generalizing first with
  | nil => simp [Std.ReflCmp.compare_self]
  | cons next rest ih =>
    obtain ⟨mem, least⟩ := ih (tally.moreProbable first next)
    obtain ⟨chosen, ofFirst, ofNext⟩ := tally.moreProbable_first first next
    have below := least _ List.mem_cons_self
    rw [List.foldl_cons]
    refine ⟨?_, fun t ht => ?_⟩
    · rcases List.mem_cons.1 mem with h | h
      · rw [h]
        exact chosen.elim (fun c => by simp [c]) fun c => by simp [c]
      · exact List.mem_cons_of_mem _ (List.mem_cons_of_mem _ h)
    · rcases List.mem_cons.1 ht with rfl | ht
      · exact Std.TransCmp.isLE_trans below ofFirst
      rcases List.mem_cons.1 ht with rfl | ht
      · exact Std.TransCmp.isLE_trans below ofNext
      · exact least t (List.mem_cons_of_mem _ ht)

/-- The most probable type is the first of those that are given. -/
theorem probable?_eq (tally : Tally) : tally.probable? = tally.types.head? := by
  have same (t : ValueType) : t ∈ tally.types ↔ t ∈ tally.seen := tally.perm_types.mem_iff
  unfold probable?
  cases hseen : tally.seen with
  | nil =>
    have none : tally.types = [] := List.eq_nil_iff_forall_not_mem.2 fun t ht => by
      simpa [hseen] using (same t).1 ht
    rw [none]
    rfl
  | cons first rest =>
    obtain ⟨mem, least⟩ := tally.foldl_moreProbable rest first
    rw [← hseen] at mem least
    cases htypes : tally.types with
    | nil => exact absurd ((same _).2 mem) (by simp [htypes])
    | cons head tail =>
      rw [List.head?_cons, Option.some.injEq]
      have sorted := htypes ▸ tally.pairwise_types
      have ofHead := least head ((same head).1 (by simp [htypes]))
      rcases List.mem_cons.1 (htypes ▸ (same _).2 mem) with h | h
      · exact h
      · have before := compareGiven_eq_lt.2 (List.rel_of_pairwise_cons sorted h)
        rw [Std.OrientedCmp.gt_iff_lt.2 before] at ofHead
        cases ofHead

/-! ## Totals -/

/-- The total is the sum of the counts. -/
def Summed (tally : Tally) : Prop :=
  tally.total = (ValueType.all.map tally.count).sum

theorem count_empty (t : ValueType) : ({} : Tally).count t = 0 :=
  rfl

theorem summed_empty : ({} : Tally).Summed := by
  unfold Summed
  simp [funext count_empty]

theorem count_add (tally : Tally) (ty t : ValueType) (n : UInt64) :
    (tally.add ty n).count t = if ty = t then tally.count t + n else tally.count t :=
  tally.counts.count_add ty t n

/-- The counts of a table are added to those of the tally. -/
theorem count_addAll {counts : Counts} (h : (Entries.keys counts).Nodup) (tally : Tally) (t : ValueType) :
    (tally.addAll counts).count t = tally.count t + counts.count t := by
  induction counts generalizing tally with
  | nil => exact (add_zero _).symm
  | cons entry rest ih =>
    obtain ⟨ty, n⟩ := entry
    obtain ⟨fresh, hrest⟩ := List.nodup_cons.1 h
    have first : Counts.count ((ty, n) :: rest) t = if ty = t then n else Counts.count rest t := by
      unfold Counts.count
      rw [Entries.get?]
      split <;> rfl
    have step : (tally.addAll ((ty, n) :: rest)).count t = (tally.add ty n).count t + Counts.count rest t :=
      ih hrest _
    rw [step, count_add, first]
    split
    · next same =>
      have none : Counts.count rest t = 0 := Counts.count_of_not_contains <| by
        rw [← same, Bool.eq_false_iff]
        exact fun found => fresh (Entries.mem_keys_iff.2 found)
      rw [none, add_zero]
    · rfl

theorem contains_addAll (tally : Tally) (counts : Counts) (t : ValueType) :
    Entries.contains (tally.addAll counts).counts t =
      (Entries.contains tally.counts t || Entries.contains counts t) := by
  induction counts generalizing tally with
  | nil => exact (Bool.or_false _).symm
  | cons entry rest ih =>
    obtain ⟨ty, n⟩ := entry
    have step : Entries.contains (tally.addAll ((ty, n) :: rest)).counts t =
        (Entries.contains (tally.counts.add ty n) t || Entries.contains rest t) := ih _
    have first : Entries.contains ((ty, n) :: rest) t = (decide (ty = t) || Entries.contains rest t) := by
      unfold Entries.contains
      rw [Entries.get?]
      split <;> simp [*]
    rw [step, first, Counts.add, Entries.contains_insert, Bool.or_assoc, Bool.or_left_comm]

theorem Summed.add (h : tally.Summed) (ty : ValueType) (n : UInt64) : (tally.add ty n).Summed := by
  have once : (ValueType.all.map fun t => if ty = t then n else 0).sum = n := by
    cases ty <;> simp [ValueType.all]
  have counted : (tally.add ty n).count = fun t => tally.count t + if ty = t then n else 0 := by
    funext t
    rw [count_add]
    split <;> simp
  unfold Summed
  rw [counted, List.sum_map_add, once, ← h]
  rfl

theorem Summed.addAll (h : tally.Summed) (counts : Counts) : (tally.addAll counts).Summed := by
  induction counts generalizing tally with
  | nil => exact h
  | cons entry rest ih => exact ih (h.add entry.1 entry.2)

/-- Types that were not seen add nothing. -/
theorem Summed.total_eq (h : tally.Summed) : tally.total = (tally.types.map tally.count).sum := by
  have same : tally.count = fun t => if Entries.contains tally.counts t then tally.count t else 0 := by
    funext t
    split
    · rfl
    · next hn => exact Counts.count_of_not_contains (by simpa using hn)
  rw [h, (tally.perm_types.map tally.count).sum_eq, seen]
  conv_lhs => rw [same]
  rw [List.sum_map_ite]
  simp

end Tally

end Reactor
