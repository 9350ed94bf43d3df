import Reactor.Proofs.Sorting.Small
import Reactor.Sorting.Runs
import Reactor.Sorting.Stable

/-!
# The sort is stable

A run stands for some neighbouring elements of the list (`Run.Holds`): it is rearranged from them, and in order
if it is marked as sorted. The runs that wait to be joined stand for the elements that have been read, and
joining two neighbours makes one run that stands for the elements of both (`Waiting`). Every further run stands for
at least one element, so that all are read in the end, and the last run stands for the whole list.

If the comparison goes by ranks, the division at a pivot keeps the order of the elements on either side. The
left ones all rank lower than the right ones, so that both sides are sorted on their own. The place of a pivot is
always one of the list. So the sort by pivots is stable, and with it the whole sort.

* `Comparison.promises_sortedStart`, `Comparison.promises_nextRun` : how runs are found.
* `Comparison.promises_join`, `Comparison.promises_joinDeeper` : how they are joined.
* `Comparison.promises_mergeRuns` : the sort by merging runs.
* `Comparison.promises_divide`, `Comparison.promises_sortByPivots` : the sort by pivots.
* `Comparison.promises_sort` : the whole sort.
-/

namespace Reactor

section Runs

variable {α : Type}

/-- The run is rearranged from the elements, and in order if it is sorted. An eager sort has no others. -/
structure Run.Holds (rank : α → Nat) (eager : Bool) (xs : List α) (run : Run α) : Prop where
  rearranged : Rearranged rank xs run.items
  inOrder (h : run.sorted = true) : InOrder rank run.items
  sorted (h : eager = true) : run.sorted = true

/-- The runs that wait to be joined, the last one first, stand for the elements. The first run of all is empty. -/
inductive Waiting (rank : α → Nat) (eager : Bool) : List α → List (Run α × Nat) → Prop
  | none : Waiting rank eager [] []
  | first (entry : Run α × Nat) : Waiting rank eager [] [entry]
  | more {xs ys : List α} {below : Run α × Nat} {runs : List (Run α × Nat)} {run : Run α} (depth : Nat)
    (h : Waiting rank eager xs (below :: runs)) (hrun : run.Holds rank eager ys) :
    Waiting rank eager (xs ++ ys) ((run, depth) :: below :: runs)

theorem Waiting.eq_nil {rank : α → Nat} {eager : Bool} {xs : List α} {runs : List (Run α × Nat)}
    (h : Waiting rank eager xs runs) (hruns : runs.length ≤ 1) : xs = [] := by
  cases h with
  | none => rfl
  | first => rfl
  | more => simp at hruns

/-- A run that has its last element first, in which each element relates to all later ones. -/
structure Chain (among : α → Prop) (R : α → α → Prop) (taken run : List α) : Prop where
  eq : run = taken.reverse
  among : ∀ x ∈ taken, among x
  pairwise : taken.Pairwise R

theorem Chain.extend {among : α → Prop} {R : α → α → Prop} {taken rest : List α} {x last : α}
    (h : Chain among R taken (last :: rest)) (hR : ∀ {a b c : α}, R a b → R b c → R a c) (hx : among x)
    (hlast : R last x) : Chain among R (taken ++ [x]) (x :: last :: rest) where
  eq := by rw [h.eq, List.reverse_append, List.reverse_singleton, List.singleton_append]
  among := List.forall_mem_append.2 ⟨h.among, List.forall_mem_singleton.2 hx⟩
  pairwise := by
    obtain rfl : taken = rest.reverse ++ [last] := List.reverse_eq_cons_iff.1 h.eq.symm
    obtain ⟨-, -, hrest⟩ := List.pairwise_append.1 h.pairwise
    refine List.pairwise_append.2 ⟨h.pairwise, List.pairwise_singleton R x, fun y hy z hz => ?_⟩
    rw [List.mem_singleton.1 hz]
    rcases List.mem_append.1 hy with hy | hy
    · exact hR (hrest y hy last (List.mem_singleton_self last)) hlast
    · rwa [List.mem_singleton.1 hy]

namespace Comparison

variable {m : Type → Type} [Monad m] {P : ∀ β : Type, m β → (β → Prop) → Prop} {among : α → Prop}
  {rank : α → Nat} {order : Comparison m α} (h : order.Ranks P among rank) {xs ys : List α} {eager : Bool}
include h

/-! ## Finding runs -/

omit h in
/-- Elements are folded one after another as long as they are taken. -/
theorem promises_foldWhile {σ : Type} (h : Promises m P) {step : σ → α → m (σ × Bool)} {I : List α → σ → Prop}
    (hxs : ∀ x ∈ xs, among x)
    (hstep : ∀ taken s x, among x → I taken s →
      P _ (step s x) fun r => if r.2 then I (taken ++ [x]) r.1 else I taken r.1)
    {taken : List α} {s : σ} (hs : I taken s) :
    P _ (foldWhile step s xs) fun r => ∃ more, xs = more ++ r.2 ∧ I (taken ++ more) r.1 := by
  induction xs generalizing taken s with
  | nil =>
    refine h.pure ⟨[], rfl, ?_⟩
    rwa [List.append_nil]
  | cons x xs ih =>
    obtain ⟨hx, hrest⟩ := List.forall_mem_cons.1 hxs
    apply h.bind (hstep taken s x hx hs)
    rintro ⟨s, going⟩ hs
    cases going with
    | true =>
      apply h.mono (ih hrest hs)
      rintro r ⟨more, rfl, hr⟩
      refine ⟨x :: more, rfl, ?_⟩
      rwa [List.append_assoc, List.singleton_append] at hr
    | false =>
      refine h.pure ⟨[], rfl, ?_⟩
      rwa [List.append_nil]

theorem promises_extendFalling {taken run : List α} {x : α} (hx : among x)
    (hrun : Chain among (fun a b => rank b < rank a) taken run) (hne : taken ≠ []) :
    P _ (order.extendFalling run x) fun r =>
      if r.2 then Chain among (fun a b => rank b < rank a) (taken ++ [x]) r.1 else r.1 = run := by
  cases run with
  | nil => exact absurd (List.reverse_eq_nil_iff.1 hrun.eq.symm) hne
  | cons last rest =>
    obtain rfl : taken = rest.reverse ++ [last] := List.reverse_eq_cons_iff.1 hrun.eq.symm
    apply promises_if h hx (hrun.among last (by simp))
    · intro hlt
      exact h.pure (hrun.extend (fun hab hbc => Nat.lt_trans hbc hab) hx hlt)
    · intro _
      exact h.pure rfl

theorem promises_extendRising {taken run : List α} {x : α} (hx : among x)
    (hrun : Chain among (fun a b => rank a ≤ rank b) taken run) (hne : taken ≠ []) :
    P _ (order.extendRising run x) fun r =>
      if r.2 then Chain among (fun a b => rank a ≤ rank b) (taken ++ [x]) r.1 else r.1 = run := by
  cases run with
  | nil => exact absurd (List.reverse_eq_nil_iff.1 hrun.eq.symm) hne
  | cons last rest =>
    obtain rfl : taken = rest.reverse ++ [last] := List.reverse_eq_cons_iff.1 hrun.eq.symm
    apply promises_if h hx (hrun.among last (by simp))
    · intro _
      exact h.pure rfl
    · intro hle
      exact h.pure (hrun.extend (fun hab hbc => Nat.le_trans hab hbc) hx hle)

/-- A run that starts with two elements is extended as far as each element relates to all later ones. -/
theorem promises_extend {R : α → α → Prop} {step : List α → α → m (List α × Bool)}
    (hstep : ∀ {taken run : List α} {x : α}, among x → Chain among R taken run → taken ≠ [] →
      P _ (step run x) fun r => if r.2 then Chain among R (taken ++ [x]) r.1 else r.1 = run)
    {x y : α} (hx : among x) (hy : among y) (hxs : ∀ x ∈ xs, among x) (hR : R x y) :
    P _ (foldWhile step [y, x] xs) fun r =>
      ∃ taken, x :: y :: xs = taken ++ r.2 ∧ Chain among R taken r.1 := by
  have hstart : Chain among R [x, y] [y, x] ∧ [x, y] ≠ [] :=
    ⟨⟨rfl, List.forall_mem_cons.2 ⟨hx, List.forall_mem_singleton.2 hy⟩,
      List.pairwise_pair.2 hR⟩, List.cons_ne_nil x [y]⟩
  apply h.mono (promises_foldWhile h.toPromises (I := fun taken run => Chain among R taken run ∧ taken ≠ [])
    hxs _ hstart)
  · rintro r ⟨more, rfl, hr, -⟩
    exact ⟨_, rfl, hr⟩
  · intro taken run x hx hrun
    apply h.mono (hstep hx hrun.1 hrun.2)
    rintro ⟨run', going⟩ hr
    cases going with
    | true => exact ⟨hr, by simp⟩
    | false =>
      obtain rfl : run' = run := hr
      exact hrun

/-- The longest start of a list that rises or falls is sorted. -/
theorem promises_sortedStart (hxs : ∀ x ∈ xs, among x) :
    P _ (order.sortedStart xs) fun r => ∃ taken, xs = taken ++ r.2 ∧ SortsTo rank taken r.1 := by
  unfold sortedStart
  split
  · rename_i x y rest
    obtain ⟨hx, hxs⟩ := List.forall_mem_cons.1 hxs
    obtain ⟨hy, hrest⟩ := List.forall_mem_cons.1 hxs
    apply promises_if h hy hx
    · intro hlt
      apply h.mono (promises_extend h (fun hx hrun hne => promises_extendFalling h hx hrun hne) hx hy hrest hlt)
      rintro ⟨run, left⟩ ⟨taken, htaken, hrun⟩
      refine ⟨taken, htaken, ?_⟩
      obtain rfl := hrun.eq
      refine ⟨.reverse hrun.pairwise, List.pairwise_reverse.2 (hrun.pairwise.imp fun hab => Nat.le_of_lt hab)⟩
    · intro hle
      apply h.bind (promises_extend h (fun hx hrun hne => promises_extendRising h hx hrun hne) hx hy hrest hle)
      rintro ⟨run, left⟩ ⟨taken, htaken, hrun⟩
      refine h.pure ⟨taken, htaken, ?_⟩
      obtain rfl := hrun.eq
      dsimp only
      rw [List.reverse_reverse]
      exact .refl hrun.pairwise
  · rename_i hshort
    refine h.pure ⟨xs, (List.append_nil xs).symm, .refl ?_⟩
    match xs, hshort with
    | [], _ => exact .nil
    | [x], _ => exact List.pairwise_singleton _ x
    | x :: y :: rest, hshort => exact absurd rfl (hshort x y rest)

/-- The next run stands for at least one element. -/
theorem promises_nextRun {goodLength : Nat} (hgood : 0 < goodLength) (hxs : ∀ x ∈ xs, among x) (hne : xs ≠ []) :
    P _ (order.nextRun goodLength eager xs) fun r =>
      ∃ taken, taken ≠ [] ∧ xs = taken ++ r.2 ∧ r.1.Holds rank eager taken := by
  have hpos := List.length_pos_iff.2 hne
  -- a start that is long enough is the run, else some elements are taken as they are or sorted at once
  have next {enough : Bool} {found : List α × List α}
      (hfound : enough = true → ∃ taken, xs = taken ++ found.2 ∧ SortsTo rank taken found.1) :
      P _ (do
        if enough && goodLength ≤ found.1.length then
          return ({ items := found.1, sorted := true : Run α }, found.2)
        else if eager then
          return ({ items := ← order.sortSmall (xs.take smallLimit), sorted := true },
            xs.drop smallLimit)
        else return ({ items := xs.take goodLength, sorted := false }, xs.drop goodLength)) fun r =>
          ∃ taken, taken ≠ [] ∧ xs = taken ++ r.2 ∧ r.1.Holds rank eager taken := by
    split
    · rename_i hlong
      simp only [Bool.and_eq_true, decide_eq_true_eq] at hlong
      obtain ⟨taken, htaken, hsorted⟩ := hfound hlong.1
      refine h.pure ⟨taken, ?_, htaken, hsorted.rearranged, fun _ => hsorted.inOrder, fun _ => rfl⟩
      have := hsorted.rearranged.perm.length_eq
      apply List.ne_nil_of_length_pos
      omega
    · split
      · apply h.bind (promises_sortSmall h fun x hx => hxs x (List.mem_of_mem_take hx))
        intro ys hys
        refine h.pure ⟨xs.take smallLimit, ?_, (List.take_append_drop smallLimit xs).symm, hys.rearranged,
          fun _ => hys.inOrder, fun _ => rfl⟩
        apply List.ne_nil_of_length_pos
        rw [List.length_take, smallLimit]
        omega
      · rename_i hlazy
        refine h.pure ⟨xs.take goodLength, ?_, (List.take_append_drop goodLength xs).symm, .refl _, nofun,
          fun heager => absurd heager hlazy⟩
        apply List.ne_nil_of_length_pos
        rw [List.length_take]
        omega
  unfold nextRun
  dsimp only
  split
  · apply h.bind (promises_sortedStart h hxs)
    intro found hfound
    exact next fun _ => hfound
  · rename_i hshort
    apply h.bind (R := fun found => found = ([], xs)) (h.pure rfl)
    rintro _ rfl
    exact next fun henough => absurd (of_decide_eq_true henough) hshort

omit h in
theorem goodLength_pos {length : Nat} (hlength : 0 < length) : 0 < goodLength length := by
  unfold goodLength
  split
  · omega
  · unfold approximateSqrt
    dsimp only
    have hor : length ≤ length ||| 1 := Nat.left_le_or
    have hlog : 1 ≤ (length ||| 1).log2 := by
      rw [Nat.le_log2 (by omega)]
      omega
    obtain ⟨k, hk⟩ : ∃ k, (1 + (length ||| 1).log2) / 2 = k + 1 := ⟨(1 + (length ||| 1).log2) / 2 - 1, by omega⟩
    rw [hk, twoTo_succ]
    have := twoTo_pos k
    apply Nat.div_pos _ Nat.two_pos
    exact Nat.le_add_right_of_le (by omega)

/-! ## Joining runs -/

variable {sort : List α → m (List α)}
  (hsort : ∀ xs, eager = false → (∀ x ∈ xs, among x) → P _ (sort xs) (SortsTo rank xs))
include hsort

/-- A run that is not sorted is sorted when it is needed. -/
theorem promises_sortRun {run : Run α} {β : Type} {f : List α → m β} {Q : β → Prop}
    (hrun : run.Holds rank eager xs) (hxs : ∀ x ∈ xs, among x) (hf : ∀ us, SortsTo rank xs us → P _ (f us) Q) :
    P _ (if run.sorted then pure run.items >>= f else sort run.items >>= f) Q := by
  split
  · rename_i hsorted
    apply h.bind (R := SortsTo rank xs) _ hf
    exact h.pure ⟨hrun.rearranged, hrun.inOrder hsorted⟩
  · rename_i hsorted
    have hlazy : eager = false := eq_false_of_ne_true fun heager => hsorted (hrun.sorted heager)
    apply h.bind (hsort run.items hlazy fun x hx => hxs x (hrun.rearranged.mem_iff.1 hx))
    intro us hus
    exact hf us (.of_rearranged hrun.rearranged hus)

/-- Two neighbours make one run that stands for the elements of both. -/
theorem promises_join {left right : Run α} (hleft : left.Holds rank eager xs) (hright : right.Holds rank eager ys)
    (hxs : ∀ x ∈ xs, among x) (hys : ∀ y ∈ ys, among y) :
    P _ (order.join sort left right) (Run.Holds rank eager (xs ++ ys)) := by
  unfold join
  split
  · apply promises_sortRun h hsort hleft hxs
    intro us hus
    apply promises_sortRun h hsort hright hys
    intro vs hvs
    apply h.bind (promises_merge h (fun x hx => hxs x (hus.mem_iff.1 hx)) (fun y hy => hys y (hvs.mem_iff.1 hy))
      hus.inOrder hvs.inOrder)
    intro zs hzs
    have joined : SortsTo rank (xs ++ ys) zs := .of_rearranged (hus.rearranged.append hvs.rearranged) hzs
    exact h.pure ⟨joined.rearranged, fun _ => joined.inOrder, fun _ => rfl⟩
  · rename_i hunsorted
    refine h.pure ⟨hleft.rearranged.append hright.rearranged, nofun, fun heager => ?_⟩
    rw [hleft.sorted heager] at hunsorted
    exact absurd rfl hunsorted

/-- The last run is joined with those before it. All of them are joined, but for the first one, if the depth is
zero. -/
theorem promises_joinDeeper {depth : Nat} {runs : List (Run α × Nat)} {run : Run α}
    (hruns : Waiting rank eager xs runs) (hrun : run.Holds rank eager ys) (hxs : ∀ x ∈ xs, among x)
    (hys : ∀ y ∈ ys, among y) :
    P _ (order.joinDeeper sort depth runs run) fun r => ∃ us vs, xs ++ ys = us ++ vs ∧
      Waiting rank eager us r.1 ∧ r.2.Holds rank eager vs ∧ (r.1 = [] ↔ runs = []) ∧ (depth = 0 → us = []) := by
  induction hruns generalizing run ys with
  | none => exact h.pure ⟨[], ys, rfl, .none, hrun, Iff.rfl, fun _ => rfl⟩
  | first entry => exact h.pure ⟨[], ys, rfl, .first entry, hrun, Iff.rfl, fun _ => rfl⟩
  | @more us vs below runs left leftDepth hruns hleft ih =>
    unfold joinDeeper
    split
    · obtain ⟨hus, hvs⟩ := List.forall_mem_append.1 hxs
      apply h.bind (promises_join h hsort hleft hrun hvs hys)
      intro run' hrun'
      apply h.mono (ih hrun' hus (List.forall_mem_append.2 ⟨hvs, hys⟩))
      rintro r ⟨us', vs', heq, hwaiting, hlast, hnil, hall⟩
      refine ⟨us', vs', ?_, hwaiting, hlast, ?_, hall⟩
      · rw [List.append_assoc, heq]
      · simpa using hnil
    · refine h.pure ⟨us ++ vs, ys, rfl, .more leftDepth hruns hleft, hrun, Iff.rfl, fun hzero => ?_⟩
      omega

/-- The runs of a list are found and joined until one is left. -/
theorem promises_joinRuns {length steps stop : Nat} {runs : List (Run α × Nat)} {run : Run α} {zs : List α}
    (hlength : 0 < length) (hsteps : zs.length ≤ steps) (hruns : Waiting rank eager xs runs)
    (hrun : run.Holds rank eager ys) (hfirst : runs = [] → ys = []) (hxs : ∀ x ∈ xs, among x)
    (hys : ∀ y ∈ ys, among y) (hzs : ∀ z ∈ zs, among z) :
    P _ (order.joinRuns sort eager length steps runs run stop zs) (Run.Holds rank eager (xs ++ ys ++ zs)) := by
  have last {steps stop : Nat} {runs : List (Run α × Nat)} {run : Run α} {xs ys : List α}
      (hruns : Waiting rank eager xs runs) (hrun : run.Holds rank eager ys) (hxs : ∀ x ∈ xs, among x)
      (hys : ∀ y ∈ ys, among y) :
      P _ (order.joinRuns sort eager length steps runs run stop []) (Run.Holds rank eager (xs ++ ys ++ [])) := by
    have hend : order.joinRuns sort eager length steps runs run stop [] =
        (do return (← order.joinDeeper sort 0 runs run).2) := by
      cases steps <;> rfl
    rw [hend, List.append_nil]
    apply h.bind (promises_joinDeeper h hsort hruns hrun hxs hys)
    rintro r ⟨us, vs, heq, -, hlast, -, hall⟩
    obtain rfl := hall rfl
    rw [heq]
    exact h.pure hlast
  induction steps generalizing xs ys zs runs run stop with
  | zero =>
    obtain rfl := List.eq_nil_of_length_eq_zero (Nat.le_zero.1 hsteps)
    exact last hruns hrun hxs hys
  | succ steps ih =>
    cases zs with
    | nil => exact last hruns hrun hxs hys
    | cons z zs =>
      apply h.bind (promises_nextRun h (goodLength_pos hlength) hzs (List.cons_ne_nil z zs))
      rintro ⟨next, rest⟩ ⟨taken, htaken, heq, hnext⟩
      apply h.bind (promises_joinDeeper h hsort hruns hrun hxs hys)
      rintro ⟨runs', run'⟩ ⟨us, vs, heq', hwaiting, hlast, hnil, -⟩
      dsimp only at heq hwaiting hlast hnil
      rw [heq] at hzs hsteps ⊢
      obtain ⟨hmore, hrest⟩ := List.forall_mem_append.1 hzs
      have hall : ∀ x ∈ us ++ vs, among x := heq' ▸ List.forall_mem_append.2 ⟨hxs, hys⟩
      have hpos := List.length_pos_iff.2 htaken
      rw [List.length_append] at hsteps
      have hpushed (depth : Nat) : Waiting rank eager (us ++ vs) ((run', depth) :: runs') := by
        cases runs' with
        | nil =>
          -- only the first run of all, which is empty, has none before it
          have hruns' : runs = [] := hnil.1 rfl
          have hxs' : xs = [] := hruns.eq_nil (by simp [hruns'])
          rw [← heq', hxs', hfirst hruns']
          exact .first _
        | cons below runs' => exact .more depth hwaiting hlast
      rw [← List.append_assoc, heq']
      exact ih (by omega) (hpushed _) hnext nofun hall hmore hrest

/-- The stable sort by merging runs, if the sort of the runs that need it is stable. -/
theorem promises_mergeRuns (hxs : ∀ x ∈ xs, among x) :
    P _ (order.mergeRuns sort eager xs) (SortsTo rank xs) := by
  unfold mergeRuns
  split
  · rename_i hlength
    apply h.pure
    apply SortsTo.refl
    match xs, hlength with
    | [], _ => exact .nil
    | [x], _ => exact List.pairwise_singleton _ x
  · rename_i hlength
    have hempty : Run.Holds rank eager [] ({ items := [], sorted := true } : Run α) :=
      ⟨.nil, fun _ => .nil, fun _ => rfl⟩
    apply h.bind (promises_joinRuns h hsort (by omega) (Nat.le_refl _) .none hempty (fun _ => rfl)
      (List.forall_mem_nil _) (List.forall_mem_nil _) hxs)
    intro run hrun
    rw [List.append_nil, List.nil_append] at hrun
    split
    · rename_i hsorted
      exact h.pure ⟨hrun.rearranged, hrun.inOrder hsorted⟩
    · rename_i hsorted
      have hlazy : eager = false := eq_false_of_ne_true fun heager => hsorted (hrun.sorted heager)
      apply h.mono (hsort run.items hlazy fun x hx => hxs x (hrun.rearranged.mem_iff.1 hx))
      intro ys hys
      exact .of_rearranged hrun.rearranged hys

end Comparison

end Runs

namespace Comparison

variable {m : Type → Type} [Monad m] {α : Type} {P : ∀ β : Type, m β → (β → Prop) → Prop}
  {among : α → Prop} {rank : α → Nat} {order : Comparison m α} {xs ys : List α}

/-! ## Division -/

/-- Elements that pass a test and rank lower than all others move in front of these. -/
theorem rearranged_divided {test : α → Bool}
    (htest : ∀ x ∈ xs, ∀ y ∈ xs, test x = false → test y = true → rank y < rank x) :
    Rearranged rank xs (xs.filter test ++ xs.filter fun x => !test x) := by
  induction xs with
  | nil => exact .nil
  | cons x xs ih =>
    have hrest := ih fun a ha b hb => htest a (List.mem_cons_of_mem x ha) b (List.mem_cons_of_mem x hb)
    cases hx : test x with
    | true =>
      simp only [List.filter_cons, hx, if_true, Bool.not_true, Bool.false_eq_true, if_false, List.cons_append]
      exact hrest.cons x
    | false =>
      simp only [List.filter_cons, hx, if_true, Bool.not_false, Bool.false_eq_true, if_false]
      have moved : Rearranged rank (x :: xs.filter test) (xs.filter test ++ [x]) := by
        apply Rearranged.move
        intro y hy
        obtain ⟨hmem, hy⟩ := List.mem_filter.1 hy
        exact htest x List.mem_cons_self y (List.mem_cons_of_mem x hmem) hx hy
      have := moved.append_right (xs.filter fun x => !test x)
      rw [List.append_assoc] at this
      exact (hrest.cons x).trans this

/-- Both sides of a division are sorted on their own. -/
theorem sortsTo_divided {test : α → Bool} {left right : List α}
    (htest : ∀ x ∈ xs, ∀ y ∈ xs, test x = false → test y = true → rank y < rank x)
    (hleft : SortsTo rank (xs.filter test) left) (hright : SortsTo rank (xs.filter fun x => !test x) right) :
    SortsTo rank xs (left ++ right) := by
  apply SortsTo.of_rearranged (rearranged_divided htest) (hleft.append hright _)
  intro y hy x hx
  obtain ⟨hy, hyes⟩ := List.mem_filter.1 hy
  obtain ⟨hx, hno⟩ := List.mem_filter.1 hx
  exact Nat.le_of_lt (htest x hx y hy (by simpa using hno) hyes)

theorem promises_sift (h : Promises m P) {test : α → m Bool} {t : α → Bool}
    (htest : ∀ x ∈ xs, P _ (test x) (· = t x)) (sifted : List α × List α) :
    P _ (xs.foldlM (sift test) sifted)
      (· = ((xs.filter t).reverse ++ sifted.1, (xs.filter fun x => !t x).reverse ++ sifted.2)) := by
  induction xs generalizing sifted with
  | nil => exact h.pure rfl
  | cons x xs ih =>
    obtain ⟨hx, hrest⟩ := List.forall_mem_cons.1 htest
    rw [List.foldlM_cons]
    have hstep : P _ (sift test sifted x)
        (· = if t x then (x :: sifted.1, sifted.2) else (sifted.1, x :: sifted.2)) := by
      apply h.bind hx
      rintro _ rfl
      cases t x <;> exact h.pure rfl
    apply h.bind hstep
    rintro _ rfl
    apply h.mono (ih hrest _)
    rintro _ rfl
    cases hx : t x <;> simp [hx]

/-- A list is divided into the elements that pass the test and the others. -/
theorem promises_divide (h : Promises m P) {test : α → m Bool} {t : α → Bool} {place : Nat} {passes : Bool}
    (htest : ∀ x ∈ xs, P _ (test x) (· = t x)) (hplace : place < xs.length) (hpasses : t xs[place] = passes) :
    P _ (divide test xs place passes) (· = (xs.filter t, xs.filter fun x => !t x)) := by
  have hone : (xs.drop place).take 1 = [xs[place]] := by
    rw [← List.getElem_cons_drop hplace]
    rfl
  have hparts (u : α → Bool) :
      xs.filter u = (xs.take place).filter u ++ (xs[place] :: xs.drop (place + 1)).filter u := by
    rw [← List.filter_append, List.getElem_cons_drop, List.take_append_drop]
  generalize xs[place] = pivot at hone hparts hpasses
  apply h.bind (promises_sift h (fun x hx => htest x (List.mem_of_mem_take hx)) ([], []))
  rintro _ rfl
  dsimp only
  rw [hone]
  apply h.bind (promises_sift h (fun x hx => htest x (List.mem_of_mem_drop hx)) _)
  rintro _ rfl
  apply h.pure
  rw [hparts t, hparts fun x => !t x]
  cases passes <;> simp [hpasses]

/-! ## The pivot -/

variable (h : order.Ranks P among rank)
include h

/-- Of three places of a list, one is chosen. -/
theorem promises_middleOfThree {items : Array α} {i j k : Nat} (hitems : ∀ x ∈ items, among x)
    (hi : i < items.size) (hj : j < items.size) (hk : k < items.size) :
    P _ (order.middleOfThree items i j k) (· < items.size) := by
  have hamong {i : Nat} (hi : i < items.size) : among items[i] := hitems _ (Array.getElem_mem hi)
  unfold middleOfThree
  rw [Array.getElem?_eq_getElem hi, Array.getElem?_eq_getElem hj, Array.getElem?_eq_getElem hk]
  apply h.bind (h.less (hamong hi) (hamong hj))
  intro x _
  apply h.bind (h.less (hamong hi) (hamong hk))
  intro y _
  split
  · apply h.bind (h.less (hamong hj) (hamong hk))
    intro z _
    apply h.pure
    split
    · exact hj
    · exact hk
  · exact h.pure hi

/-- The parts that begin at the places are parts of the list. -/
theorem promises_middleOfParts {items : Array α} {steps length i j k : Nat} (hitems : ∀ x ∈ items, among x)
    (hlength : 0 < length) (hi : i + length ≤ items.size) (hj : j + length ≤ items.size)
    (hk : k + length ≤ items.size) :
    P _ (order.middleOfParts items steps length i j k) (· < items.size) := by
  induction steps generalizing length i j k with
  | zero => exact promises_middleOfThree h hitems (by omega) (by omega) (by omega)
  | succ steps ih =>
    unfold middleOfParts
    split
    · exact promises_middleOfThree h hitems (by omega) (by omega) (by omega)
    · have middle {i : Nat} (hi : i + length ≤ items.size) :
          P _ (order.middleOfParts items steps (length / 8) i (i + 4 * (length / 8)) (i + 7 * (length / 8)))
            (· < items.size) :=
        ih (by omega) (by omega) (by omega) (by omega)
      apply h.bind (middle hi)
      intro i hi
      apply h.bind (middle hj)
      intro j hj
      apply h.bind (middle hk)
      intro k hk
      exact promises_middleOfThree h hitems hi hj hk

theorem promises_choosePivot {items : Array α} (hitems : ∀ x ∈ items, among x) (hsize : 8 ≤ items.size) :
    P _ (order.choosePivot items) (· < items.size) := by
  unfold choosePivot
  dsimp only
  split
  · exact promises_middleOfThree h hitems (by omega) (by omega) (by omega)
  · exact promises_middleOfParts h hitems (by omega) (by omega) (by omega) (by omega)

/-! ## The sort -/

/-- The pivot is known to rank lowest if it does not rank higher than an element that does. -/
theorem promises_isLeast {least : Option α} {pivot : α} (hpivot : among pivot)
    (hleast : ∀ l, least = some l → among l ∧ ∀ x ∈ xs, rank l ≤ rank x) :
    P _ (match least with
      | none => pure false
      | some least => do return !(← order.less least pivot)) fun isLeast =>
        isLeast = true → ∀ x ∈ xs, rank pivot ≤ rank x := by
  cases least with
  | none => exact h.pure nofun
  | some l =>
    obtain ⟨hl, hle⟩ := hleast l rfl
    apply h.bind (h.less hl hpivot)
    rintro _ rfl
    apply h.pure
    intro hge x hx
    have := hle x hx
    simp only [Bool.not_eq_true', decide_eq_false_iff_not] at hge
    omega

/-- The elements are divided into those that rank lower than the pivot and the others. It is not done if none does. -/
theorem promises_divideLower {isLeast : Bool} {place : Nat} (hxs : ∀ x ∈ xs, among x) (hplace : place < xs.length)
    (hleast : isLeast = true → ∀ x ∈ xs, rank xs[place] ≤ rank x) :
    P _ (if isLeast then pure ([], xs) else divide (fun x => order.less x xs[place]) xs place false)
      (· = (xs.filter fun x => decide (rank x < rank xs[place]),
        xs.filter fun x => !decide (rank x < rank xs[place]))) := by
  split
  · rename_i hyes
    have hle := hleast hyes
    apply h.pure
    rw [List.filter_eq_nil_iff.2 (by simpa using hle), List.filter_eq_self.2 (by simpa using hle)]
  · exact promises_divide h.toPromises (fun x hx => h.less (hxs x hx) (hxs _ (List.getElem_mem hplace))) hplace
      (by simp)

/-- The elements are divided into those that do not rank higher than the pivot and the others. -/
theorem promises_divideUpper {place : Nat} (hxs : ∀ x ∈ xs, among x) (hplace : place < xs.length) :
    P _ (divide (fun x => do return !(← order.less xs[place] x)) xs place true)
      (· = (xs.filter fun x => !decide (rank xs[place] < rank x),
        xs.filter fun x => !!decide (rank xs[place] < rank x))) := by
  refine promises_divide h.toPromises (fun x hx => ?_) hplace (by simp)
  apply h.bind (h.less (hxs _ (List.getElem_mem hplace)) (hxs x hx))
  rintro _ rfl
  exact h.pure rfl

omit h in
/-- If nothing ranks lower than the pivot, what does not rank higher has its rank, and stays as it is. -/
theorem sortsTo_dividedUpper {pivot : α} {right : List α} (hle : ∀ x ∈ xs, rank pivot ≤ rank x)
    (hright : SortsTo rank (xs.filter fun x => !!decide (rank pivot < rank x)) right) :
    SortsTo rank xs ((xs.filter fun x => !decide (rank pivot < rank x)) ++ right) := by
  have hsame : InOrder rank (xs.filter fun x => !decide (rank pivot < rank x)) := by
    apply List.pairwise_of_forall_mem_list
    intro x hx y hy
    have hx' := (List.mem_filter.1 hx).2
    have hy' := hle y (List.mem_filter.1 hy).1
    simp only [Bool.not_eq_true', decide_eq_false_iff_not] at hx'
    omega
  apply sortsTo_divided _ (.refl hsame) hright
  intro x _ y _ hx hy
  simp only [Bool.not_eq_true', Bool.not_eq_false', decide_eq_true_eq, decide_eq_false_iff_not] at hx hy
  omega

/-- The stable sort by dividing at pivots. -/
theorem promises_sortByPivots {divisions : Nat} {least : Option α} (hxs : ∀ x ∈ xs, among x)
    (hleast : ∀ l, least = some l → among l ∧ ∀ x ∈ xs, rank l ≤ rank x) :
    P _ (order.sortByPivots divisions least xs) (SortsTo rank xs) := by
  induction divisions generalizing least xs with
  | zero =>
    unfold sortByPivots
    split
    · exact promises_sortSmall h hxs
    · exact promises_mergeRuns h nofun hxs
  | succ divisions ih =>
    unfold sortByPivots
    split
    · exact promises_sortSmall h hxs
    rename_i hlength
    rw [smallLimit] at hlength
    have hsize : 8 ≤ xs.toArray.size := by
      rw [List.size_toArray]
      omega
    apply h.bind (promises_choosePivot h (by simpa using hxs) hsize)
    intro place hplace
    have hlt : place < xs.length := by simpa using hplace
    rw [List.getElem?_eq_getElem hlt]
    have hamong : among xs[place] := hxs _ (List.getElem_mem hlt)
    have part {test : α → Bool} (x : α) (hx : x ∈ xs.filter test) : among x := hxs x (List.mem_filter.1 hx).1
    apply h.bind (promises_isLeast h hamong hleast)
    intro isLeast hisLeast
    apply h.bind (promises_divideLower h hxs hlt hisLeast)
    rintro _ rfl
    dsimp only
    split
    · rename_i hnone
      apply h.bind (promises_divideUpper h hxs hlt)
      rintro _ rfl
      apply h.bind (@ih _ none part nofun)
      intro right hright
      exact h.pure (sortsTo_dividedUpper (by simpa using hnone) hright)
    · apply h.bind (ih part _)
      · intro right hright
        apply h.bind (ih part _)
        · intro left hleft
          apply h.pure
          apply sortsTo_divided _ hleft hright
          intro x _ y _ hx hy
          simp only [decide_eq_true_eq, decide_eq_false_iff_not] at hx hy
          omega
        · intro l hl
          obtain ⟨hl, hle⟩ := hleast l hl
          exact ⟨hl, fun x hx => hle x (List.mem_filter.1 hx).1⟩
      · rintro l ⟨⟩
        exact ⟨hamong, fun x hx => by simpa using (List.mem_filter.1 hx).2⟩

/-- The stable sort, if the comparison goes by ranks. -/
theorem promises_sort (hxs : ∀ x ∈ xs, among x) : P _ (order.sort xs) (SortsTo rank xs) := by
  unfold sort
  split
  · exact promises_sortByInsertion h hxs
  · apply promises_mergeRuns h _ hxs
    intro xs _ hxs
    exact promises_sortByPivots h hxs nofun

end Comparison

end Reactor
