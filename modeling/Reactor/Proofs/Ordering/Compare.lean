import Reactor.Engine.Machine
import Reactor.Proofs.Ordering.Keys

/-!
# The comparison of values as an order

Two values are alike (`Value.Alike`) if each comparison of a part of one with a part of the other goes by
the rule of one kind. The comparisons of three values that are alike in pairs agree as in an order
(`Value.compare_chained`). Numeric texts are compared as numbers with each other and as texts with
other texts, so that values which are not alike can follow each other in a circle
(`Value.compare_circle`).
-/

namespace Reactor

/-- A sequence of computations ends with a value if both do. -/
theorem Eval.bind_eq_value_iff {α β : Type} {act : Eval α} {f : α → Eval β} {ctx : Context}
    {w u : World} {b : β} :
    (act >>= f) ctx w = .value b u ↔ ∃ a v, act ctx w = .value a v ∧ f a ctx v = .value b u := by
  rw [bind_apply]
  cases act ctx w with
  | value a v =>
    constructor
    · exact fun h => ⟨a, v, rfl, h⟩
    · rintro ⟨a', v', h, h'⟩
      cases h
      exact h'
  | _ =>
    constructor
    · exact fun h => by cases h
    · rintro ⟨a, v, h, -⟩
      cases h

namespace Value

open Eval

/-- Each comparison of a part of one value with a part of the other goes by the rule of one kind. -/
inductive Alike : Value → Value → Prop
  | items {a b : Value} {xs ys : List Value} (ha : items? a.data = some xs)
    (hb : items? b.data = some ys)
    (h : ∀ (i : Nat) (hx : i < xs.length) (hy : i < ys.length), Alike xs[i] ys[i]) : Alike a b
  | leaves {a b : Value} (ha : a.lambda? = none) (hb : b.lambda? = none)
    (hi : items? a.data = none ∨ items? b.data = none) (h : a.data.sortKey.Alike b.data.sortKey) :
    Alike a b

variable {a b c : Value} {xs ys zs : List Value} {ctx : Context} {w w₁ w₂ w₃ : World}
  {o o₁ o₂ o₃ : Ordering} {depth : Nat}

theorem lambda?_of_items? (h : items? a.data = some xs) : a.lambda? = none := by
  obtain ⟨data, notes⟩ := a
  cases data with
  | lambda id => cases h
  | _ => rfl

theorem sortKey_of_items? (h : items? a.data = some xs) : a.data.sortKey = .other := by
  obtain ⟨data, notes⟩ := a
  cases data with
  | list items => rfl
  | sequence items => rfl
  | _ => cases h

theorem compareAt_items (ha : items? a.data = some xs) (hb : items? b.data = some ys) :
    compareAt (depth + 1) a b = compareItems (compareAt depth) xs ys := by
  rw [compareAt, onForcedBoth_of_lambda?_eq_none (lambda?_of_items? ha) (lambda?_of_items? hb), ha, hb]

theorem compareAt_eq_ofExcept (ha : a.lambda? = none) (hb : b.lambda? = none)
    (hi : items? a.data = none ∨ items? b.data = none) :
    compareAt (depth + 1) a b = ofExcept (compareLeaves a.data b.data) := by
  rw [compareAt, onForcedBoth_of_lambda?_eq_none ha hb]
  rcases hi with hi | hi
  · rw [hi]
  · rw [hi]
    cases items? a.data <;> rfl

theorem compareAt_leaves (ha : a.lambda? = none) (hb : b.lambda? = none)
    (hi : items? a.data = none ∨ items? b.data = none) (h : a.data.sortKey.Alike b.data.sortKey) :
    compareAt (depth + 1) a b = pure (a.data.sortKey.compare b.data.sortKey) := by
  rw [compareAt_eq_ofExcept ha hb hi, compareLeaves_eq h]
  rfl

/-! ## Lists -/

section Items

variable {order : Value → Value → Eval Ordering}

theorem compareItems_nil_left (order : Value → Value → Eval Ordering) (ys : List Value) :
    compareItems order [] ys = pure (Ord.compare 0 ys.length) := by
  cases ys <;> rfl

theorem compareItems_nil_right (order : Value → Value → Eval Ordering) (xs : List Value) :
    compareItems order xs [] = pure (Ord.compare xs.length 0) := by
  cases xs <;> rfl

/-- The comparisons of elements at one place leave the state alone. -/
def Quiet (order : Value → Value → Eval Ordering) (ctx : Context) (w : World)
    (xs ys : List Value) : Prop :=
  ∀ (i : Nat) (hx : i < xs.length) (hy : i < ys.length) (o : Ordering) (u : World),
    order xs[i] ys[i] ctx w = .value o u → u = w

theorem Quiet.tail {x y : Value} (h : Quiet order ctx w (x :: xs) (y :: ys)) :
    Quiet order ctx w xs ys :=
  fun i hx hy => h (i + 1) (Nat.succ_lt_succ hx) (Nat.succ_lt_succ hy)

/-- Lists are compared by their first elements and, if these are equal, by the others. -/
theorem compareItems_cons {x y : Value} (hq : Quiet order ctx w (x :: xs) (y :: ys))
    (h : compareItems order (x :: xs) (y :: ys) ctx w = .value o w₁) :
    ∃ first rest, order x y ctx w = .value first w ∧ o = first.then rest ∧
      (first = .eq → compareItems order xs ys ctx w = .value rest w₁) ∧ (first ≠ .eq → w₁ = w) := by
  rw [compareItems, bind_eq_value_iff] at h
  obtain ⟨first, u, run, h⟩ := h
  obtain rfl : u = w := hq 0 (Nat.zero_lt_succ _) (Nat.zero_lt_succ _) first u run
  cases first with
  | eq => exact ⟨.eq, o, run, rfl, fun _ => h, fun h => absurd rfl h⟩
  | lt =>
    cases h
    exact ⟨.lt, .eq, run, rfl, nofun, fun _ => rfl⟩
  | gt =>
    cases h
    exact ⟨.gt, .eq, run, rfl, nofun, fun _ => rfl⟩

theorem world_of_compareItems (hq : Quiet order ctx w xs ys)
    (run : compareItems order xs ys ctx w = .value o w₁) : w₁ = w := by
  induction xs generalizing ys o with
  | nil =>
    rw [compareItems_nil_left] at run
    cases run
    rfl
  | cons x xs ih =>
    cases ys with
    | nil =>
      rw [compareItems_nil_right] at run
      cases run
      rfl
    | cons y ys =>
      obtain ⟨first, rest, -, -, equal, differ⟩ := compareItems_cons hq run
      by_cases hfirst : first = .eq
      · exact ih hq.tail (equal hfirst)
      · exact differ hfirst

/-- The comparisons of lists agree as in an order if those of their elements do. -/
theorem compareItems_chained (hxy : Quiet order ctx w xs ys) (hyz : Quiet order ctx w ys zs)
    (hxz : Quiet order ctx w xs zs)
    (hitems : ∀ (i : Nat) (hx : i < xs.length) (hy : i < ys.length) (hz : i < zs.length)
      (p₁ p₂ p₃ : Ordering), order xs[i] ys[i] ctx w = .value p₁ w →
        order ys[i] zs[i] ctx w = .value p₂ w → order xs[i] zs[i] ctx w = .value p₃ w →
        Chained p₁ p₂ p₃)
    (h₁ : compareItems order xs ys ctx w = .value o₁ w₁)
    (h₂ : compareItems order ys zs ctx w = .value o₂ w₂)
    (h₃ : compareItems order xs zs ctx w = .value o₃ w₃) : Chained o₁ o₂ o₃ := by
  induction ys generalizing xs zs o₁ o₂ o₃ with
  | nil =>
    cases xs with
    | nil =>
      rw [compareItems_nil_left] at h₁ h₂ h₃
      cases h₁
      cases h₂
      cases h₃
      exact fun _ _ => rfl
    | cons x xs =>
      rw [compareItems_nil_right] at h₁
      cases h₁
      exact .of_gt_left rfl
  | cons y ys ih =>
    cases zs with
    | nil =>
      rw [compareItems_nil_right] at h₂
      cases h₂
      exact .of_gt_right rfl
    | cons z zs =>
      cases xs with
      | nil =>
        rw [compareItems_nil_left] at h₁ h₃
        cases h₁
        cases h₃
        exact .of_lt rfl rfl
      | cons x xs =>
        obtain ⟨f₁, r₁, x₁, rfl, e₁, -⟩ := compareItems_cons hxy h₁
        obtain ⟨f₂, r₂, x₂, rfl, e₂, -⟩ := compareItems_cons hyz h₂
        obtain ⟨f₃, r₃, x₃, rfl, e₃, -⟩ := compareItems_cons hxz h₃
        have first : Chained f₁ f₂ f₃ :=
          hitems 0 (Nat.zero_lt_succ _) (Nat.zero_lt_succ _) (Nat.zero_lt_succ _) f₁ f₂ f₃ x₁ x₂ x₃
        refine first.lex fun heq₁ heq₂ heq₃ => ?_
        refine ih hxy.tail hyz.tail hxz.tail ?_ (e₁ heq₁) (e₂ heq₂) (e₃ heq₃)
        exact fun i hx hy hz => hitems (i + 1) (Nat.succ_lt_succ hx) (Nat.succ_lt_succ hy)
          (Nat.succ_lt_succ hz)

end Items

/-! ## Values -/

/-- A comparison of values that are alike changes nothing. -/
theorem world_of_compareAt (h : a.Alike b) (run : compareAt depth a b ctx w = .value o w₁) :
    w₁ = w := by
  induction depth generalizing a b o w₁ with
  | zero => cases run
  | succ depth ih =>
    cases h with
    | leaves ha hb hi h =>
      rw [compareAt_leaves ha hb hi h] at run
      cases run
      rfl
    | items ha hb h =>
      rw [compareAt_items ha hb] at run
      exact world_of_compareItems (fun i hx hy o u run => ih (h i hx hy) run) run

/-- To a given depth, the comparisons of values that are alike in pairs agree as in an order. -/
theorem compareAt_chained (hab : a.Alike b) (hbc : b.Alike c) (hac : a.Alike c)
    (h₁ : compareAt depth a b ctx w = .value o₁ w₁) (h₂ : compareAt depth b c ctx w = .value o₂ w₂)
    (h₃ : compareAt depth a c ctx w = .value o₃ w₃) : Chained o₁ o₂ o₃ := by
  induction depth generalizing a b c o₁ o₂ o₃ w₁ w₂ w₃ with
  | zero => cases h₁
  | succ depth ih =>
    cases hab with
    | items ha hb hab =>
      cases hbc with
      | items hb' hc hbc =>
        obtain rfl := Option.some.inj (hb.symm.trans hb')
        cases hac with
        | items ha' hc' hac =>
          obtain rfl := Option.some.inj (ha.symm.trans ha')
          obtain rfl := Option.some.inj (hc.symm.trans hc')
          rw [compareAt_items ha hb] at h₁
          rw [compareAt_items hb hc] at h₂
          rw [compareAt_items ha hc] at h₃
          refine compareItems_chained ?_ ?_ ?_ ?_ h₁ h₂ h₃
          · exact fun i hx hy _ _ run => world_of_compareAt (hab i hx hy) run
          · exact fun i hx hy _ _ run => world_of_compareAt (hbc i hx hy) run
          · exact fun i hx hy _ _ run => world_of_compareAt (hac i hx hy) run
          · exact fun i hx hy hz _ _ _ => ih (hab i hx hy) (hbc i hy hz) (hac i hx hz)
        | leaves _ _ hi _ =>
          rw [ha, hc] at hi
          rcases hi with hi | hi <;> cases hi
      | leaves lb lc hi hk =>
        rw [compareAt_leaves lb lc hi hk] at h₂
        cases h₂
        rw [sortKey_of_items? hb] at hk ⊢
        exact .of_gt_right (SortKey.compare_other_left hk)
    | leaves la lb hi hk =>
      rw [compareAt_leaves la lb hi hk] at h₁
      cases h₁
      cases ha : items? a.data with
      | some xs =>
        rw [sortKey_of_items? ha] at hk ⊢
        exact .of_gt_left (SortKey.compare_other_left hk)
      | none =>
        cases hac with
        | items ha' =>
          rw [ha] at ha'
          cases ha'
        | leaves _ lc hi' hk' =>
          rw [compareAt_leaves la lc hi' hk'] at h₃
          cases h₃
          cases hbc with
          | items hb hc _ =>
            rw [sortKey_of_items? hb] at hk ⊢
            rw [sortKey_of_items? hc] at hk' ⊢
            exact .of_lt (SortKey.compare_other_right hk) (SortKey.compare_other_right hk)
          | leaves _ _ hi'' hk'' =>
            rw [compareAt_leaves lb lc hi'' hk''] at h₂
            cases h₂
            exact SortKey.chained_compare hk hk'' hk'

/-- The comparisons of values that are alike in pairs agree as in an order. -/
theorem compare_chained (hab : a.Alike b) (hbc : b.Alike c) (hac : a.Alike c)
    (h₁ : a.compare b ctx w = .value o₁ w₁) (h₂ : b.compare c ctx w = .value o₂ w₂)
    (h₃ : a.compare c ctx w = .value o₃ w₃) : Chained o₁ o₂ o₃ :=
  compareAt_chained hab hbc hac h₁ h₂ h₃

/-- Numbers and numeric texts follow each other by size, also inside of lists. -/
theorem compare_numerals_chained :
    let ctx := Context.ofBudget 2 default
    let a := list [integer 9]
    let b := sequence [string "10", void]
    let c := list [string " 11 "]
    (a.compare b ctx {} = .value .lt {} ∧ b.compare c ctx {} = .value .lt {} ∧
      a.compare c ctx {} = .value .lt {}) ∧ Chained .lt .lt .lt := by
  have hab : (list [integer 9]).Alike (sequence [string "10", void]) :=
    .items rfl rfl fun i hx _ => by
      obtain rfl := Nat.lt_one_iff.1 hx
      exact .leaves rfl rfl (.inl rfl) trivial
  have hbc : (sequence [string "10", void]).Alike (list [string " 11 "]) :=
    .items rfl rfl fun i _ hy => by
      obtain rfl := Nat.lt_one_iff.1 hy
      exact .leaves rfl rfl (.inl rfl) trivial
  have hac : (list [integer 9]).Alike (list [string " 11 "]) :=
    .items rfl rfl fun i hx _ => by
      obtain rfl := Nat.lt_one_iff.1 hx
      exact .leaves rfl rfl (.inl rfl) trivial
  refine ⟨⟨rfl, rfl, rfl⟩, ?_⟩
  have ab : (list [integer 9]).compare (sequence [string "10", void]) (Context.ofBudget 2 default) {} =
    .value .lt {} := rfl
  exact compare_chained hab hbc hac ab rfl rfl

/-- Texts can follow each other in a circle: two of them are compared as numbers, the other pairs as
texts. -/
theorem compare_circle :
    let ctx := Context.ofBudget 1 default
    (string "9").compare (string "10") ctx {} = .value .lt {} ∧
      (string "10").compare (string "1a") ctx {} = .value .lt {} ∧
      (string "9").compare (string "1a") ctx {} = .value .gt {} := by
  refine ⟨rfl, rfl, rfl⟩

end Value

end Reactor
