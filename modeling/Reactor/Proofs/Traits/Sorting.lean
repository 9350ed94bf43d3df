import Reactor.Proofs.Traits.Values

/-!
# A sort does nothing but compare

`Comparison.Only`: a property of computations that holds of every result at hand and passes from two
computations to their composition. If it holds of the comparisons of a sort it holds of the sort
(`Comparison.only_sort`). So sorting values has every trait that comparing them has
(`Trait.has_sortItems`).
-/

namespace Reactor

/-- A property that computations put together from others inherit from them. -/
structure Inherited (m : Type → Type) [Monad m] (S : ∀ β : Type, m β → Prop) : Prop where
  pure {β : Type} (b : β) : S _ (pure b : m β)
  bind {β γ : Type} {act : m β} {f : β → m γ} (h : S _ act) (hf : ∀ b, S _ (f b)) : S _ (act >>= f)

namespace Inherited

variable {m : Type → Type} [Monad m] {S : ∀ β : Type, m β → Prop} (hS : Inherited m S)
include hS

omit hS in
theorem ite (_ : Inherited m S) {β : Type} {c : Prop} [Decidable c] {act other : m β}
    (h : S _ act) (h' : S _ other) : S _ (if c then act else other) := by
  split
  · exact h
  · exact h'

theorem foldlM {β γ : Type} {f : β → γ → m β} (h : ∀ b c, S _ (f b c)) (first : β) (cs : List γ) :
    S _ (cs.foldlM f first) := by
  induction cs generalizing first with
  | nil => exact hS.pure first
  | cons c cs ih =>
    rw [List.foldlM_cons]
    exact hS.bind (h first c) ih

end Inherited

namespace Comparison

variable {m : Type → Type} [Monad m] {α : Type} {S : ∀ β : Type, m β → Prop}

/-- The property is inherited and holds of the comparisons. -/
structure Only (order : Comparison m α) (S : ∀ β : Type, m β → Prop) : Prop
    extends Inherited m S where
  less (a b : α) : S _ (order.less a b)
  contradiction : S _ order.contradiction

variable {order : Comparison m α} (h : order.Only S)
include h

/-- A comparison decides how to go on. -/
theorem only_if {β : Type} (a b : α) {yes no : m β} (hy : S _ yes) (hn : S _ no) :
    S _ (do if ← order.less a b then yes else no) :=
  h.bind (h.less a b) fun _ => h.ite hy hn

/-! ## Insertion and merges -/

theorem only_insertBehind (x : α) (xs : List α) : S _ (order.insertBehind x xs) := by
  induction xs with
  | nil => exact h.pure _
  | cons last rest ih => exact only_if h _ _ (h.bind ih fun _ => h.pure _) (h.pure _)

theorem only_insertAll (sorted xs : List α) : S _ (order.insertAll sorted xs) :=
  h.foldlM (fun sorted x => only_insertBehind h x sorted) sorted xs

theorem only_mergeUp (done left right : List α) : S _ (order.mergeUp done left right) := by
  fun_induction mergeUp order done left right with
  | case1 => exact h.pure _
  | case2 => exact h.pure _
  | case3 done x left y right ih₁ ih₂ => exact only_if h _ _ ih₁ ih₂

theorem only_mergeDown (done left right : List α) : S _ (order.mergeDown done left right) := by
  fun_induction mergeDown order done left right with
  | case1 => exact h.pure _
  | case2 => exact h.pure _
  | case3 done x left y right ih₁ ih₂ => exact only_if h _ _ ih₁ ih₂

theorem only_merge (left right : List α) : S _ (order.merge left right) :=
  h.ite (only_mergeUp h _ _ _) (only_mergeDown h _ _ _)

theorem only_takeFront (s : EndsMerge α) : S _ (order.takeFront s) := by
  unfold takeFront
  split
  · exact only_if h _ _ (h.pure _) (h.pure _)
  · exact h.pure _

theorem only_takeBack (s : EndsMerge α) : S _ (order.takeBack s) := by
  unfold takeBack
  split
  · exact only_if h _ _ (h.pure _) (h.pure _)
  · exact h.pure _

theorem only_takeFromEnds (n : Nat) (s : EndsMerge α) : S _ (order.takeFromEnds n s) := by
  induction n generalizing s with
  | zero => exact h.pure s
  | succ n ih => exact h.bind (only_takeFront h s) fun s => h.bind (only_takeBack h s) ih

theorem only_mergeFromEnds (left right : List α) : S _ (order.mergeFromEnds left right) :=
  h.bind (only_takeFromEnds h _ _) fun _ =>
    h.ite (h.bind h.contradiction fun _ => h.pure _) (h.pure _)

/-! ## A few elements -/

theorem only_sortByInsertion (xs : List α) : S _ (order.sortByInsertion xs) :=
  h.bind (only_insertAll h _ _) fun _ => h.pure _

theorem only_sortTwo (x y : α) : S _ (order.sortTwo x y) :=
  only_if h _ _ (h.pure _) (h.pure _)

theorem only_sortFour (x y z w : α) : S _ (order.sortFour x y z w) :=
  h.bind (only_sortTwo h _ _) fun _ => h.bind (only_sortTwo h _ _) fun _ =>
    h.bind (h.less _ _) fun _ => h.bind (h.less _ _) fun _ =>
      h.bind (only_sortTwo h _ _) fun _ => h.pure _

theorem only_sortFirstFour (xs : List α) : S _ (order.sortFirstFour xs) := by
  unfold sortFirstFour
  split
  · exact only_sortFour h _ _ _ _
  · exact h.pure _

theorem only_sortEight (xs : List α) : S _ (order.sortEight xs) :=
  h.bind (only_sortFirstFour h _) fun _ => h.bind (only_sortFirstFour h _) fun _ =>
    only_mergeFromEnds h _ _

theorem only_sortStart (count : Nat) (xs : List α) : S _ (order.sortStart count xs) := by
  unfold sortStart
  split
  · exact only_sortEight h xs
  · exact only_sortFirstFour h xs
  · exact h.pure _

theorem only_sortSmall (xs : List α) : S _ (order.sortSmall xs) :=
  h.ite (h.pure _) (h.bind (only_sortStart h _ _) fun _ => h.bind (only_sortStart h _ _) fun _ =>
    h.bind (only_insertAll h _ _) fun _ => h.bind (only_insertAll h _ _) fun _ =>
      only_mergeFromEnds h _ _)

/-! ## Runs -/

theorem only_foldWhile {σ : Type} {step : σ → α → m (σ × Bool)} (hstep : ∀ s x, S _ (step s x))
    (s : σ) (xs : List α) : S _ (foldWhile step s xs) := by
  induction xs generalizing s with
  | nil => exact h.pure _
  | cons x xs ih => exact h.bind (hstep s x) fun _ => h.ite (ih _) (h.pure _)

theorem only_extendFalling (run : List α) (x : α) : S _ (order.extendFalling run x) := by
  cases run with
  | nil => exact h.pure _
  | cons last _ => exact only_if h _ _ (h.pure _) (h.pure _)

theorem only_extendRising (run : List α) (x : α) : S _ (order.extendRising run x) := by
  cases run with
  | nil => exact h.pure _
  | cons last _ => exact only_if h _ _ (h.pure _) (h.pure _)

theorem only_sortedStart (xs : List α) : S _ (order.sortedStart xs) := by
  unfold sortedStart
  split
  · exact only_if h _ _ (only_foldWhile h (only_extendFalling h) _ _)
      (h.bind (only_foldWhile h (only_extendRising h) _ _) fun _ => h.pure _)
  · exact h.pure _

theorem only_nextRun (goodLength : Nat) (eager : Bool) (xs : List α) :
    S _ (order.nextRun goodLength eager xs) := by
  have next (found : List α × List α) (enough : Bool) :
      S _ (do
        if enough && goodLength ≤ found.1.length then
          return ({ items := found.1, sorted := true : Run α }, found.2)
        else if eager then
          return ({ items := ← order.sortSmall (xs.take smallLimit), sorted := true },
            xs.drop smallLimit)
        else return ({ items := xs.take goodLength, sorted := false }, xs.drop goodLength)) :=
    h.ite (h.pure _) (h.ite (h.bind (only_sortSmall h _) fun _ => h.pure _) (h.pure _))
  unfold nextRun
  exact h.ite (h.bind (only_sortedStart h xs) fun found => next found _)
    (h.bind (h.pure _) fun found => next found _)

variable {sort : List α → m (List α)} (hsort : ∀ xs, S _ (sort xs))
include hsort

theorem only_join (left right : Run α) : S _ (order.join sort left right) := by
  have merged (xs ys : List α) :
      S _ (do return { items := ← order.merge xs ys, sorted := true : Run α }) :=
    h.bind (only_merge h xs ys) fun _ => h.pure _
  unfold join
  refine h.ite (h.ite (h.bind (h.pure _) fun xs => ?_) (h.bind (hsort _) fun xs => ?_)) (h.pure _)
  · exact h.ite (h.bind (h.pure _) (merged xs)) (h.bind (hsort _) (merged xs))
  · exact h.ite (h.bind (h.pure _) (merged xs)) (h.bind (hsort _) (merged xs))

theorem only_joinDeeper (depth : Nat) (runs : List (Run α × Nat)) (run : Run α) :
    S _ (order.joinDeeper sort depth runs run) := by
  fun_induction joinDeeper order sort depth runs run with
  | case1 run left leftDepth below runs _ ih => exact h.bind (only_join h hsort _ _) ih
  | case2 => exact h.pure _
  | case3 => exact h.pure _

theorem only_joinRuns (eager : Bool) (length steps : Nat) (runs : List (Run α × Nat)) (run : Run α)
    (stop : Nat) (xs : List α) :
    S _ (order.joinRuns sort eager length steps runs run stop xs) := by
  have last (runs : List (Run α × Nat)) (run : Run α) :
      S _ (do return (← order.joinDeeper sort 0 runs run).2) :=
    h.bind (only_joinDeeper h hsort _ _ _) fun _ => h.pure _
  induction steps generalizing runs run stop xs with
  | zero => exact last runs run
  | succ steps ih =>
    cases xs with
    | nil => exact last runs run
    | cons x xs =>
      exact h.bind (only_nextRun h _ _ _) fun _ => h.bind (only_joinDeeper h hsort _ _ _) fun _ =>
        ih _ _ _ _

theorem only_mergeRuns (eager : Bool) (xs : List α) : S _ (order.mergeRuns sort eager xs) :=
  h.ite (h.pure _) (h.bind (only_joinRuns h hsort _ _ _ _ _ _ _) fun _ =>
    h.ite (h.pure _) (hsort _))

omit hsort

/-! ## The sort -/

theorem only_middleOfThree (xs : Array α) (i j k : Nat) : S _ (order.middleOfThree xs i j k) := by
  unfold middleOfThree
  split
  · exact h.bind (h.less _ _) fun _ => h.bind (h.less _ _) fun _ =>
      h.ite (h.bind (h.less _ _) fun _ => h.pure _) (h.pure _)
  · exact h.pure _

theorem only_middleOfParts (xs : Array α) (steps length i j k : Nat) :
    S _ (order.middleOfParts xs steps length i j k) := by
  induction steps generalizing length i j k with
  | zero => exact only_middleOfThree h xs i j k
  | succ steps ih =>
    exact h.ite (only_middleOfThree h xs i j k) (h.bind (ih _ _ _ _) fun _ =>
      h.bind (ih _ _ _ _) fun _ => h.bind (ih _ _ _ _) fun _ => only_middleOfThree h xs _ _ _)

theorem only_choosePivot (xs : Array α) : S _ (order.choosePivot xs) :=
  h.ite (only_middleOfThree h xs _ _ _) (only_middleOfParts h xs _ _ _ _ _)

omit h in
theorem only_divide (h : Inherited m S) {test : α → m Bool} (htest : ∀ x, S _ (test x)) (xs : List α)
    (place : Nat) (passes : Bool) : S _ (divide test xs place passes) := by
  have sifts (sifted : List α × List α) (xs : List α) : S _ (xs.foldlM (sift test) sifted) :=
    h.foldlM (fun _ x => h.bind (htest x) fun _ => h.ite (h.pure _) (h.pure _)) sifted xs
  exact h.bind (sifts _ _) fun _ => h.bind (sifts _ _) fun _ => h.pure _

theorem only_sortByPivots (divisions : Nat) (least : Option α) (xs : List α) :
    S _ (order.sortByPivots divisions least xs) := by
  induction divisions generalizing least xs with
  | zero =>
    exact h.ite (only_sortSmall h xs) (only_mergeRuns h (fun xs => h.pure xs) true xs)
  | succ divisions ih =>
    unfold sortByPivots
    refine h.ite (only_sortSmall h xs) (h.bind (only_choosePivot h _) fun place => ?_)
    split
    · exact h.pure _
    · rename_i pivot _
      refine h.bind ?_ fun isLeast => h.bind ?_ fun parts => ?_
      · cases least with
        | none => exact h.pure _
        | some least => exact h.bind (h.less _ _) fun _ => h.pure _
      · exact h.ite (h.pure _) (only_divide h.toInherited (fun x => h.less x pivot) _ _ _)
      · refine h.ite (h.bind ?_ fun _ => h.bind (ih _ _) fun _ => h.pure _)
          (h.bind (ih _ _) fun _ => h.bind (ih _ _) fun _ => h.pure _)
        exact only_divide h.toInherited (fun x => h.bind (h.less pivot x) fun _ => h.pure _) _ _ _

/-- What the comparisons of a sort have in common, the sort has. -/
theorem only_sort (xs : List α) : S _ (order.sort xs) :=
  h.ite (only_sortByInsertion h xs)
    (only_mergeRuns h (fun xs => only_sortByPivots h _ _ xs) _ xs)

end Comparison

namespace Trait

variable {T : Trait}

/-- With whatever failure a comparison starts, it has the trait. -/
theorem only_order : Value.order.Only fun _ act => ∀ e, T.Has (StateT.run act e) where
  pure _ _ := T.has_pure _
  bind h hf e := (h e).bind fun (b, e) => hf b e
  less a b e := by
    refine Has.bind ?_ fun (result, e) => ?_
    · exact (has_compare a b).attempt.bind fun _ => T.has_pure _
    · cases result <;> exact T.has_pure _
  contradiction e := by
    change T.Has ((Eval.panic _ : Eval Unit) >>= fun a => pure (a, e))
    exact Has.bind (T.has_panic _) fun _ => T.has_pure _

theorem has_sortItems (items : List Value) : T.Has (Value.sortItems items) := by
  refine (Comparison.only_sort only_order items none).bind fun (sorted, failure) => ?_
  cases failure with
  | none => exact T.has_pure _
  | some e => exact T.has_fail e

end Trait

end Reactor
