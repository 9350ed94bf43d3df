import Reactor.Proofs.Collections.Items
import Mathlib.Data.List.FinRange
import Reactor.Proofs.Operators.Errors

/-!
# Elements that equal others

Equality of values is not transitive, so that it matters with which elements each one is compared. Of a list or a
sequence, one of each is kept: an element that equals none of those that have been kept before it
(`Value.unique_keeps_first`).

An item is removed by subtraction. So it is removed wherever an element equals it, unless the item is void, null or an
error, which an operator treats before it looks at the collection (`Value.remove_filters`): to subtract void
changes nothing, and null or an error takes the place of the result (`Value.remove_gap`).
-/

namespace Reactor

section Lists

variable {α : Type} {eq : α → α → Bool} {xs : List α}

/-- An element is kept behind the others if none of them equals it. -/
def keepNew (eq : α → α → Bool) (kept : List α) (x : α) : List α :=
  if kept.any (eq · x) then kept else kept ++ [x]

theorem sublist_keepNew (kept : List α) (x : α) : kept.Sublist (keepNew eq kept x) := by
  unfold keepNew
  split
  · exact .refl kept
  · exact List.sublist_append_left kept [x]

theorem keepNew_sublist (kept : List α) (x : α) : (keepNew eq kept x).Sublist (kept ++ [x]) := by
  unfold keepNew
  split
  · exact List.sublist_append_left kept [x]
  · exact .refl (kept ++ [x])

/-- The elements that are kept are in their old order. -/
theorem foldl_keepNew_sublist (xs : List α) : (xs.foldl (keepNew eq) []).Sublist xs := by
  induction xs using List.reverseRecOn with
  | nil => exact .refl []
  | append_singleton xs x ih =>
    rw [List.foldl_append]
    exact (keepNew_sublist _ x).trans (ih.append_right [x])

/-- None of the elements that are kept equals a later one. -/
theorem pairwise_foldl_keepNew (xs : List α) : (xs.foldl (keepNew eq) []).Pairwise fun x y => eq x y = false := by
  induction xs using List.reverseRecOn with
  | nil => exact .nil
  | append_singleton xs x ih =>
    rw [List.foldl_append, List.foldl_cons, List.foldl_nil]
    unfold keepNew
    split
    · exact ih
    · rename_i hnone
      refine List.pairwise_append.2 ⟨ih, List.pairwise_singleton _ x, fun y hy z hz => ?_⟩
      rw [List.mem_singleton.1 hz]
      exact Bool.eq_false_iff.2 fun heq => hnone (List.any_eq_true.2 ⟨y, hy, heq⟩)

/-- Each element that is not kept equals one that was kept before its turn. -/
theorem exists_kept_of_dropped {R : α → α → Prop} (hR : xs.Pairwise R) {x : α} (hx : x ∈ xs)
    (hdropped : x ∉ xs.foldl (keepNew eq) []) : ∃ y ∈ xs.foldl (keepNew eq) [], R y x ∧ eq y x = true := by
  induction xs using List.reverseRecOn with
  | nil => cases hx
  | append_singleton xs z ih =>
    obtain ⟨hxs, -, hlast⟩ := List.pairwise_append.1 hR
    rw [List.foldl_append, List.foldl_cons, List.foldl_nil] at hdropped ⊢
    have hkept : (xs.foldl (keepNew eq) []).Sublist (keepNew eq (xs.foldl (keepNew eq) []) z) :=
      sublist_keepNew _ z
    rcases List.mem_append.1 hx with hx | hx
    · obtain ⟨y, hy, hyx⟩ := ih hxs hx fun h => hdropped (hkept.subset h)
      exact ⟨y, hkept.subset hy, hyx⟩
    · obtain rfl := List.mem_singleton.1 hx
      have hsome : (xs.foldl (keepNew eq) []).any (eq · x) = true := by
        by_contra hnone
        exact hdropped (by simp [keepNew, hnone])
      obtain ⟨y, hy, heq⟩ := List.any_eq_true.1 hsome
      exact ⟨y, hkept.subset hy, hlast y ((foldl_keepNew_sublist xs).subset hy) x hx, heq⟩

/-- Elements of which none equals a later one are all kept. -/
theorem foldl_keepNew_of_pairwise {kept : List α} (h : (kept ++ xs).Pairwise fun x y => eq x y = false) :
    xs.foldl (keepNew eq) kept = kept ++ xs := by
  induction xs generalizing kept with
  | nil => rw [List.append_nil]; rfl
  | cons x xs ih =>
    have hnone : kept.any (eq · x) = false := by
      rw [List.any_eq_false]
      intro y hy
      rw [(List.pairwise_append.1 h).2.2 y hy x List.mem_cons_self]
      exact Bool.false_ne_true
    have hsplit : kept ++ x :: xs = keepNew eq kept x ++ xs := by
      rw [keepNew, hnone]
      simp
    rw [hsplit] at h ⊢
    exact ih h

theorem foldl_keepNew_map {β : Type} (f : β → α) (ys kept : List β) :
    (ys.map f).foldl (keepNew eq) (kept.map f) = (ys.foldl (keepNew fun x y => eq (f x) (f y)) kept).map f := by
  induction ys generalizing kept with
  | nil => rfl
  | cons y ys ih =>
    have hstep : keepNew eq (kept.map f) (f y) = (keepNew (fun x y => eq (f x) (f y)) kept y).map f := by
      unfold keepNew
      rw [List.any_map]
      split
      · rename_i h
        rw [if_pos (by simpa using h)]
      · rename_i h
        rw [if_neg (by simpa using h), List.map_append, List.map_singleton]
    rw [List.map_cons, List.foldl_cons, List.foldl_cons, hstep, ih]

end Lists

namespace Value

/-! ## One of each -/

open Eval

variable {ctx : Context} {w : World} {v : Value} {items : List Value} {eq : Value → Value → Bool}

/-- Each element in its turn is compared with those that are kept so far. -/
theorem distinct_eq_foldl (h : EqualBy ctx w items items eq) {xs : List Value} (hxs : ∀ x ∈ xs, x ∈ items) :
    distinct xs ctx w = .value (xs.foldl (keepNew eq) []) w := by
  apply inTurn_eq_foldl (I := fun kept => ∀ a ∈ kept, a ∈ items)
  · intro ctx' hbudget kept hkept x hx
    rw [bind_apply, (h.of_budget_eq hbudget).anyEquals_eq hkept (hxs x hx), Outcome.bind_value, keepNew]
    split <;> rfl
  · intro kept hkept x hx a ha
    rcases List.mem_append.1 ((keepNew_sublist kept x).subset ha) with ha | ha
    · exact hkept a ha
    · rw [List.mem_singleton.1 ha]
      exact hxs x hx
  · exact nofun

theorem unique_eq_foldl (h : EqualBy ctx w items items eq) {xs : List Value} (hv : items? v.data = some xs)
    (hxs : ∀ x ∈ xs, x ∈ items) :
    v.unique ctx w = .value (sameKind v (xs.foldl (keepNew eq) [])) w := by
  rw [unique, onForced_of_items? hv, bind_apply, toList_of_items? hv, Outcome.bind_value, bind_apply,
    distinct_eq_foldl h hxs]
  rfl

/-- **One of each.** Of a list or a sequence, elements at certain places are kept in their order, among them the first
one. None of them equals a later one, and each of the others equals one that is kept before it. To do so again
changes nothing. -/
theorem unique_keeps_first (ctx : Context) (hv : w.Inert v) (hitems : items? v.data = some items)
    (hflat : ∀ x ∈ items, w.Flat ctx.budget x) :
    ∃ (result : Value) (places : List (Fin items.length)),
      v.unique ctx w = .value result w ∧ result.tag = v.tag ∧
      items? result.data = some (places.map items.get) ∧ places.Pairwise (· < ·) ∧
      (places.map items.get).Pairwise (fun a b => a.equals b ctx w = .value false w) ∧
      (∀ i, i ∉ places → ∃ j ∈ places, j < i ∧ (items.get j).equals (items.get i) ctx w = .value true w) ∧
      (∀ h : 0 < items.length, ⟨0, h⟩ ∈ places) ∧ result.unique ctx w = .value result w := by
  have hinert := inert_of_mem_items hv hitems
  obtain ⟨eq, h⟩ := exists_equalBy hinert hinert hflat
  let places := (List.finRange items.length).foldl (keepNew fun i j => eq (items.get i) (items.get j)) []
  have hkept : items.foldl (keepNew eq) [] = places.map items.get := by
    rw [← foldl_keepNew_map, List.map_nil, List.map_get_finRange]
  have hplaces : places.Pairwise (· < ·) := (List.pairwise_lt_finRange _).sublist (foldl_keepNew_sublist _)
  have hpairwise : (places.map items.get).Pairwise fun a b => eq a b = false := by
    rw [← hkept]
    exact pairwise_foldl_keepNew items
  have hmem (a : Value) (ha : a ∈ places.map items.get) : a ∈ items := by
    obtain ⟨i, -, rfl⟩ := List.mem_map.1 ha
    exact List.get_mem items i
  have hdropped (i : Fin items.length) (hi : i ∉ places) :
      ∃ j ∈ places, j < i ∧ eq (items.get j) (items.get i) = true :=
    exists_kept_of_dropped (List.pairwise_lt_finRange _) (List.mem_finRange i) hi
  refine ⟨sameKind v (places.map items.get), places, ?_, tag_sameKind hitems, items?_sameKind, hplaces, ?_, ?_, ?_, ?_⟩
  · rw [unique_eq_foldl h hitems fun _ hx => hx, hkept]
  · refine hpairwise.imp_of_mem fun ha hb hne => ?_
    exact (h.equals_eq_false_iff (hmem _ ha) (hmem _ hb)).2 hne
  · intro i hi
    obtain ⟨j, hj, hlt, heq⟩ := hdropped i hi
    exact ⟨j, hj, hlt, (h.equals_eq_true_iff (List.get_mem items j) (List.get_mem items i)).2 heq⟩
  · intro hpos
    by_contra hfirst
    obtain ⟨j, -, hlt, -⟩ := hdropped _ hfirst
    exact absurd hlt (Nat.not_lt_zero _)
  · rw [unique_eq_foldl h items?_sameKind hmem, foldl_keepNew_of_pairwise hpairwise, sameKind_sameKind]
    rfl

/-- Of a text, a decimal and an integer that equals both, the text and the decimal are kept. -/
theorem unique_numerals :
    let ctx := Context.ofBudget 1 default
    let w : World := {}
    let items := [string "1", decimal ⟨0x3FF0000000000000⟩, integer 1]
    let kept := [string "1", decimal ⟨0x3FF0000000000000⟩]
    (w.Inert (list items) ∧ ∀ x ∈ items, w.Flat ctx.budget x) ∧
      (list items).unique ctx w = .value (list kept) w ∧
      kept.Pairwise (fun a b => a.equals b ctx w = .value false w) ∧
      (list kept).unique ctx w = .value (list kept) w := by
  intro ctx w items kept
  have hleaves : ∀ x ∈ items, isLeaf x.data = true := by decide
  have hv : w.Inert (list items) := inert_of_leaves rfl hleaves
  have hflat : ∀ x ∈ items, w.Flat ctx.budget x := fun x hx => flat_of_isLeaf (hleaves x hx)
  obtain ⟨result, places, run, -, hdata, -, hpairwise, -, -, again⟩ := unique_keeps_first ctx hv rfl hflat
  have hunique : (list items).unique ctx w = .value (list kept) w := rfl
  obtain rfl : result = list kept := by
    rw [run] at hunique
    cases hunique
    rfl
  obtain hkept : kept = places.map items.get := Option.some.inj hdata
  exact ⟨⟨hv, hflat⟩, run, hkept ▸ hpairwise, again⟩

/-! ## Removing an item -/

variable {x : Value} {xs : List Value}

theorem remove_of_items? (hv : items? v.data = some xs) : v.remove x = v.minus x := by
  rw [remove, onForced_of_items? hv]
  obtain ⟨data, notes⟩ := v
  cases data with
  | list items => rfl
  | sequence items => rfl
  | _ => cases hv

theorem containsValue_of_items? (hv : items? v.data = some xs) : v.containsValue x = anyEquals xs x := by
  rw [containsValue, onForced_of_items? hv]
  obtain ⟨data, notes⟩ := v
  cases data with
  | list items => cases hv; rfl
  | sequence items => cases hv; rfl
  | _ => cases hv

theorem minusConcrete_of_items? (minus : Value → Value → Eval Value) (hv : items? v.data = some xs) :
    minusConcrete minus v x = do return sameKind v (← xs.filterM fun item => do return !(← item.equals x)) := by
  obtain ⟨data, notes⟩ := v
  cases data with
  | list items => cases hv; rfl
  | sequence items => cases hv; rfl
  | _ => cases hv

theorem absorbing?_eq_none (hv : items? v.data = some xs) (hx : ¬(x.tag = .null ∨ x.tag = .error)) :
    absorbing? v x = none := by
  obtain ⟨data, notes⟩ := v
  obtain ⟨data', notes'⟩ := x
  cases data' with
  | null ty => exact absurd (.inl rfl) hx
  | error e => exact absurd (.inr rfl) hx
  | _ =>
    cases data with
    | list items => rfl
    | sequence items => rfl
    | _ => cases hv

theorem carry_congr_errors {a b r : Value} (h : a.errors = b.errors) : carry r a x = carry r b x := by
  unfold carry
  rw [h]

theorem not_gap_of_items? (hv : items? v.data = some xs) : ¬(v.tag = .null ∨ v.tag = .error) := by
  obtain ⟨data, notes⟩ := v
  rintro (htag | htag)
  · cases data <;> cases hv <;> cases htag
  · cases data <;> cases hv <;> cases htag

theorem ne_void_of_items? (hv : items? v.data = some xs) : v.data ≠ .void := by
  intro hvoid
  rw [hvoid] at hv
  cases hv

/-- With any budget, subtraction looks at the operands. -/
theorem exists_minusAt (hbudget : 0 < ctx.budget) (a b : Value) :
    ∃ depth, a.minus b ctx w = minusAt (depth + 1) a b ctx w := by
  obtain ⟨depth, hdepth⟩ : ∃ n, ctx.budget = n + 1 := ⟨ctx.budget - 1, by omega⟩
  exact ⟨depth, by rw [← hdepth]; rfl⟩

/-- The elements that equal the item are left out, unless it is void, null or an error. -/
theorem remove_eq_filter (h : EqualBy ctx w items [x] eq) (hbudget : 0 < ctx.budget) (hx : x.lambda? = none)
    (hvoid : x.data ≠ .void) (hgap : ¬(x.tag = .null ∨ x.tag = .error)) (hv : items? v.data = some xs)
    (hxs : ∀ a ∈ xs, a ∈ items) :
    v.remove x ctx w = .value (carry (sameKind v (xs.filter fun a => !eq a x)) v x) w := by
  obtain ⟨depth, hminus⟩ := exists_minusAt (w := w) hbudget v x
  have hconcrete : minusConcrete (minusAt depth) v x ctx w = .value (sameKind v (xs.filter fun a => !eq a x)) w := by
    rw [minusConcrete_of_items? _ hv, bind_apply, h.filterM_eq hxs (List.mem_singleton_self x)]
    rfl
  rw [remove_of_items? hv, hminus,
    Operator.minusAt_concrete (lambda?_of_items? hv) hx depth (ne_void_of_items? hv) hvoid,
    absorbing?_eq_none hv hgap, bind_apply]
  dsimp only
  rw [hconcrete]
  rfl

/-- Void leaves the collection as it is, and null or an error takes its place. -/
theorem remove_gap (hbudget : 0 < ctx.budget) (hx : x.lambda? = none) (hv : items? v.data = some xs) :
    (x.data = .void → v.remove x ctx w = .value (carry v v x) w) ∧
    (x.tag = .null ∨ x.tag = .error → v.remove x ctx w = .value (carry x v x) w) := by
  have hlambda := lambda?_of_items? hv
  obtain ⟨depth, hminus⟩ := exists_minusAt (w := w) hbudget v x
  rw [remove_of_items? hv, hminus]
  constructor
  · intro hvoid
    rw [Operator.minusAt_void_right hlambda hx depth hvoid]
    rfl
  · intro hgap
    rw [Operator.minusAt_concrete hlambda hx depth (ne_void_of_items? hv) (Operator.data_ne_void hgap),
      Operator.absorbing?_right ?_ hgap]
    · rfl
    · exact not_gap_of_items? hv

/-- **Removing an item.** From a list or a sequence, the elements that equal the item are left out and the others keep
their order. So none that is left equals it, and to remove it again leaves the same elements. To remove void leaves
all elements, and to remove null or an error gives that instead of a collection. -/
theorem remove_filters (ctx : Context) (hbudget : 0 < ctx.budget) (hv : w.Inert v) (hx : w.Inert x)
    (hitems : items? v.data = some items) (hflat : ∀ a ∈ items, w.Flat ctx.budget a) :
    (x.data = .void → ∃ r, v.remove x ctx w = .value r w ∧ r.data = v.data) ∧
    (x.tag = .null ∨ x.tag = .error → ∃ r, v.remove x ctx w = .value r w ∧ r.data = x.data) ∧
    (x.data ≠ .void → ¬(x.tag = .null ∨ x.tag = .error) →
      ∃ (equal : Value → Bool) (result : Value), (∀ a ∈ items, a.equals x ctx w = .value (equal a) w) ∧
        v.remove x ctx w = .value result w ∧ result.tag = v.tag ∧
        items? result.data = some (items.filter fun a => !equal a) ∧
        result.containsValue x ctx w = .value false w ∧
        ∃ again, result.remove x ctx w = .value again w ∧ again.data = result.data ∧
          (x.errors = [] → again = result)) := by
  have hlambda := hx.lambda? (.refl x)
  obtain ⟨hvoid, hgap⟩ := remove_gap (w := w) hbudget hlambda hitems
  refine ⟨fun h => ⟨_, hvoid h, data_carry _ _ _⟩, fun h => ⟨_, hgap h, data_carry _ _ _⟩, fun hvoid hgap => ?_⟩
  obtain ⟨eq, h⟩ : ∃ eq, EqualBy ctx w items [x] eq :=
    exists_equalBy (inert_of_mem_items hv hitems) (List.forall_mem_singleton.2 hx) hflat
  have hself := List.mem_singleton_self x
  have hrun := remove_eq_filter h hbudget hlambda hvoid hgap hitems fun _ ha => ha
  generalize hkept : items.filter (fun a => !eq a x) = kept at hrun
  have hmem (a : Value) (ha : a ∈ kept) : a ∈ items ∧ eq a x = false := by
    rw [← hkept] at ha
    simpa using ha
  have hresult : items? (carry (sameKind v kept) v x).data = some kept := by rw [data_carry, items?_sameKind]
  have hnone : kept.any (eq · x) = false := by
    rw [List.any_eq_false]
    intro a ha
    rw [(hmem a ha).2]
    exact Bool.false_ne_true
  have hsame : kept.filter (fun a => !eq a x) = kept := by
    rw [List.filter_eq_self]
    intro a ha
    rw [(hmem a ha).2]
    rfl
  have hagain := remove_eq_filter h hbudget hlambda hvoid hgap hresult fun a ha => (hmem a ha).1
  rw [hsame, sameKind_congr_data (data_carry _ _ _), sameKind_sameKind] at hagain
  refine ⟨(eq · x), _, fun a ha => h ctx rfl a ha x hself, hrun, ?_, ?_, ?_, _, hagain, ?_, ?_⟩
  · rw [tag, data_carry]
    exact tag_sameKind hitems
  · rw [hresult, hkept]
  · rw [containsValue_of_items? hresult, h.anyEquals_eq (fun a ha => (hmem a ha).1) hself, hnone]
  · rw [data_carry, data_carry]
  · intro hnone
    apply carry_congr_errors
    exact (carried_carry (.inl errors_sameKind)).errors_eq hnone

/-- The elements that equal an integer are the integer, its text and a decimal. -/
theorem remove_one :
    let ctx := Context.ofBudget 1 default
    let w : World := {}
    let items := [integer 1, string "1", integer 2, decimal ⟨0x3FF0000000000000⟩]
    (0 < ctx.budget ∧ w.Inert (sequence items) ∧ w.Inert (integer 1) ∧ (∀ a ∈ items, w.Flat ctx.budget a) ∧
      (integer 1).data ≠ .void ∧ ¬((integer 1).tag = .null ∨ (integer 1).tag = .error)) ∧
      (sequence items).remove (integer 1) ctx w = .value (sequence [integer 2]) w ∧
      (sequence [integer 2]).containsValue (integer 1) ctx w = .value false w ∧
      (sequence [integer 2]).remove (integer 1) ctx w = .value (sequence [integer 2]) w := by
  intro ctx w items
  have hleaves : ∀ x ∈ items, isLeaf x.data = true := by decide
  have hv : w.Inert (sequence items) := inert_of_leaves rfl hleaves
  have hx : w.Inert (integer 1) := inert_of_isLeaf rfl
  have hflat : ∀ a ∈ items, w.Flat ctx.budget a := fun a ha => flat_of_isLeaf (hleaves a ha)
  have hvoid : (integer 1).data ≠ .void := nofun
  have hgap : ¬((integer 1).tag = .null ∨ (integer 1).tag = .error) := by decide
  obtain ⟨-, -, hother⟩ := remove_filters ctx Nat.one_pos hv hx rfl hflat
  obtain ⟨equal, result, -, run, -, -, hnone, again, hagain, -, hsame⟩ := hother hvoid hgap
  have hremove : (sequence items).remove (integer 1) ctx w = .value (sequence [integer 2]) w := rfl
  obtain rfl : result = sequence [integer 2] := by
    rw [run] at hremove
    cases hremove
    rfl
  rw [hsame rfl] at hagain
  exact ⟨⟨Nat.one_pos, hv, hx, hflat, hvoid, hgap⟩, run, hnone, hagain⟩

/-- Each list holds an element that equals the item. To remove null gives null, which is no list, and to remove void
leaves it in the list. -/
theorem gaps_are_not_removed :
    let ctx := Context.ofBudget 1 default
    let w : World := {}
    let nulls := list [integer 1, null, integer 2]
    let voids := list [integer 1, void]
    (w.Inert nulls ∧ w.Inert voids ∧ w.Inert null ∧ w.Inert void) ∧
      (null.equals null ctx w = .value true w ∧
        nulls.remove null ctx w = .value null w ∧ null.tag ≠ nulls.tag) ∧
      void.equals void ctx w = .value true w ∧ voids.remove void ctx w = .value voids w ∧
        voids.containsValue void ctx w = .value true w := by
  intro ctx w nulls voids
  have inert : w.Inert nulls ∧ w.Inert voids := ⟨inert_of_leaves rfl (by decide), inert_of_leaves rfl (by decide)⟩
  exact ⟨⟨inert.1, inert.2, inert_of_isLeaf rfl, inert_of_isLeaf rfl⟩, ⟨rfl, rfl, nofun⟩, rfl, rfl, rfl⟩

end Value

end Reactor
