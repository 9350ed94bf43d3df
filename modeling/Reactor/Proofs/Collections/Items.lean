import Reactor.Value.Collection
import Reactor.Proofs.Ordering.Agreement

/-!
# Elements of collections

The elements of a list or a sequence are at hand (`Value.items?`), and another collection of its kind has the
elements that it is made of (`Value.sameKind`). If the work on each element leaves the state alone, the work on all
of them is a function of the list (`Eval.inTurn_eq_foldl`, `Eval.anyM_eq`, `Eval.filterM_eq`).

Among values that come to no lambda, equality is a test that gives the same answer to every thread and leaves the
state alone (`Value.EqualBy`). So the computations that go through a list with it do what the functions on lists do
with the test.
-/

namespace Reactor

namespace Eval

variable {α β : Type} {ctx : Context} {w : World}

/-- The work on an element may depend on the budget, not on what the thread holds. -/
theorem inTurn_eq_foldl {named : α → List Place} {places : β → List Place} {work : α → β → Eval α}
    {step : α → β → α} {I : α → Prop} {first : α} {items : List β}
    (hwork : ∀ ctx' : Context, ctx'.budget = ctx.budget → ∀ a, I a → ∀ x ∈ items, work a x ctx' w = .value (step a x) w)
    (hstep : ∀ a, I a → ∀ x ∈ items, I (step a x)) (hfirst : I first) :
    inTurn named places work first items ctx w = .value (items.foldl step first) w := by
  induction items generalizing first with
  | nil => rfl
  | cons x xs ih =>
    have hturn (held : List Place) : holding held (work first x) ctx w = .value (step first x) w :=
      hwork { ctx with thread := { ctx.thread with held := held ++ ctx.thread.held } } rfl first hfirst x
        List.mem_cons_self
    rw [inTurn_cons, bind_apply, hturn]
    exact ih (fun ctx' hbudget a ha y hy => hwork ctx' hbudget a ha y (List.mem_cons_of_mem x hy))
      (fun a ha y hy => hstep a ha y (List.mem_cons_of_mem x hy)) (hstep first hfirst x List.mem_cons_self)

variable {test : α → Eval Bool} {t : α → Bool} {xs : List α}

theorem anyM_eq (h : ∀ x ∈ xs, test x ctx w = .value (t x) w) : xs.anyM test ctx w = .value (xs.any t) w := by
  induction xs with
  | nil => rfl
  | cons x xs ih =>
    obtain ⟨hx, hrest⟩ := List.forall_mem_cons.1 h
    rw [List.anyM_cons, bind_apply, hx, Outcome.bind_value, List.any_cons]
    cases t x with
    | true => rfl
    | false => exact ih hrest

theorem filterM_eq (h : ∀ x ∈ xs, test x ctx w = .value (t x) w) :
    (xs.filterM test : Eval (List α)) ctx w = .value (xs.filter t) w := by
  have hfrom (kept : List α) :
      (List.filterAuxM test xs kept : Eval (List α)) ctx w = .value ((xs.filter t).reverse ++ kept) w := by
    induction xs generalizing kept with
    | nil => rfl
    | cons x xs ih =>
      obtain ⟨hx, hrest⟩ := List.forall_mem_cons.1 h
      rw [List.filterAuxM, bind_apply, hx, Outcome.bind_value, ih hrest]
      cases htest : t x <;> simp [htest]
  rw [List.filterM, bind_apply, hfrom]
  simp

end Eval

namespace Value

variable {v : Value} {items xs ys : List Value}

theorem toList_of_items? {ctx : Context} {w : World} (h : items? v.data = some items) :
    v.toList ctx w = .value items w := by
  obtain ⟨data, notes⟩ := v
  cases data with
  | list xs => cases h; rfl
  | sequence xs => cases h; rfl
  | _ => cases h

/-- Work on a list or a sequence starts at once. -/
theorem onForced_of_items? {α : Type} (h : items? v.data = some items) (work : Value → Eval α) :
    v.onForced work = work v := by
  obtain ⟨data, notes⟩ := v
  cases data with
  | list xs => rfl
  | sequence xs => rfl
  | _ => cases h

@[simp] theorem items?_sameKind : items? (sameKind v xs).data = some xs := by
  unfold sameKind
  split <;> rfl

theorem tag_sameKind (h : items? v.data = some items) : (sameKind v xs).tag = v.tag := by
  obtain ⟨data, notes⟩ := v
  cases data with
  | list xs => rfl
  | sequence xs => rfl
  | _ => cases h

theorem errors_sameKind : (sameKind v xs).errors = [] := by
  unfold sameKind
  split <;> rfl

theorem sameKind_congr_data {u : Value} (h : u.data = v.data) : sameKind u xs = sameKind v xs := by
  unfold sameKind
  rw [h]

@[simp] theorem sameKind_sameKind : sameKind (sameKind v xs) ys = sameKind v ys := by
  obtain ⟨data, notes⟩ := v
  cases data <;> rfl

/-! ## Elements that equal an item -/

open Eval

variable {ctx ctx' : Context} {w : World} {others : List Value} {item : Value} {eq : Value → Value → Bool}

/-- The test tells whether elements of the one list equal those of the other, on every thread with the budget. -/
def EqualBy (ctx : Context) (w : World) (items others : List Value) (eq : Value → Value → Bool) : Prop :=
  ∀ ctx' : Context, ctx'.budget = ctx.budget → ∀ a ∈ items, ∀ b ∈ others, a.equals b ctx' w = .value (eq a b) w

/-- Equality of values that come to no lambda is such a test, if the budget allows their levels. -/
theorem exists_equalBy (hitems : ∀ a ∈ items, w.Inert a) (hothers : ∀ b ∈ others, w.Inert b)
    (hflat : ∀ a ∈ items, w.Flat ctx.budget a) : ∃ eq, EqualBy ctx w items others eq := by
  classical
  refine ⟨fun a b => decide (w.Equal a b), fun ctx' hbudget a ha b hb => ?_⟩
  obtain ⟨r, run⟩ := exists_equals ctx' (hitems a ha) (hothers b hb) (hbudget ▸ hflat a ha)
  obtain ⟨-, hiff⟩ := equal_of_equals (hitems a ha) (hothers b hb) run
  rw [run, Bool.eq_iff_iff.2 (hiff.trans decide_eq_true_iff.symm)]

namespace EqualBy

variable (h : EqualBy ctx w items others eq)
include h

theorem of_budget_eq (hbudget : ctx'.budget = ctx.budget) : EqualBy ctx' w items others eq :=
  fun ctx'' hbudget' => h ctx'' (hbudget'.trans hbudget)

theorem equals_eq_true_iff {a b : Value} (ha : a ∈ items) (hb : b ∈ others) :
    a.equals b ctx w = .value true w ↔ eq a b = true := by
  rw [h ctx rfl a ha b hb, Outcome.value.injEq, and_iff_left rfl]

theorem equals_eq_false_iff {a b : Value} (ha : a ∈ items) (hb : b ∈ others) :
    a.equals b ctx w = .value false w ↔ eq a b = false := by
  rw [h ctx rfl a ha b hb, Outcome.value.injEq, and_iff_left rfl]

theorem anyEquals_eq (hxs : ∀ x ∈ xs, x ∈ items) (hitem : item ∈ others) :
    anyEquals xs item ctx w = .value (xs.any (eq · item)) w :=
  anyM_eq fun x hx => h ctx rfl x (hxs x hx) item hitem

/-- The elements that equal the item are filtered out. -/
theorem filterM_eq (hxs : ∀ x ∈ xs, x ∈ items) (hitem : item ∈ others) :
    (xs.filterM (fun x => do return !(← x.equals item)) : Eval (List Value)) ctx w =
      .value (xs.filter fun x => !eq x item) w := by
  refine Eval.filterM_eq fun x hx => ?_
  rw [bind_apply, h ctx rfl x (hxs x hx) item hitem]
  rfl

end EqualBy

end Value

end Reactor
