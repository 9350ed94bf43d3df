import Reactor.Proofs.Ordering.Compare
import Reactor.Proofs.Ordering.Equality

/-!
# Equality and order agree

Of two values that come to no lambda, either one may stand on the left: equality is the same and the order is
reversed (`Value.compareAt_swap`). Equal values that can be compared are equal in the order as well, unless
they have the zeros with different signs at one place (`Value.OppositeZeros`, `Value.compareAt_eq_iff`).
-/

namespace Reactor

/-- Parts of the two values that bear one mark are copies of one value. -/
def World.TellsCopies (w : World) (a b : Value) : Prop :=
  ∀ ⦃x y : Value⦄, w.Unfolds a x → w.Unfolds b y → Value.sameCopy x y = true → x.data = y.data

theorem World.TellsCopies.part {w : World} {a b x y : Value} (h : w.TellsCopies a b) (hx : x ∈ w.parts a)
    (hy : y ∈ w.parts b) : w.TellsCopies x y :=
  fun _ _ hto hto' => h (.part hx hto) (.part hy hto')

namespace Value

open Eval

variable {a b : Value} {xs ys : List Value} {ctx : Context} {u w : World} {o : Ordering} {depth : Nat}
  {order : Value → Value → Eval Ordering}

theorem getElem_mem_parts (hxs : items? a.data = some xs) {i : Nat} (hi : i < xs.length) :
    xs[i] ∈ w.parts a := by
  obtain ⟨data, notes⟩ := a
  dsimp only [data_mk] at hxs
  rw [parts_of_items? hxs]
  exact List.getElem_mem hi

/-- The payload has no parts and is no lambda. -/
def isLeaf : Data → Bool
  | .list _ | .sequence _ | .map _ | .range .. | .queue _ | .lambda _ => false
  | _ => true

theorem parts_of_isLeaf (ha : isLeaf a.data = true) :
    w.parts a = [] ∧ a.lambda? = none ∧ ∀ entries, a.data ≠ .map entries := by
  obtain ⟨data, notes⟩ := a
  cases data <;> first | exact ⟨rfl, rfl, nofun⟩ | cases ha

theorem inert_of_isLeaf (ha : isLeaf a.data = true) : w.Inert a := by
  obtain ⟨hparts, hself⟩ := parts_of_isLeaf (w := w) ha
  apply World.inert_of_parts _ hself
  · rw [hparts]
    nofun
  · rw [hparts]
    nofun

theorem flat_of_isLeaf (ha : isLeaf a.data = true) : w.Flat 1 a := by
  intro x hx
  rw [(parts_of_isLeaf ha).1] at hx
  cases hx

theorem inert_of_leaves (hxs : items? a.data = some xs) (hleaves : ∀ x ∈ xs, isLeaf x.data = true) : w.Inert a := by
  have hparts : w.parts a = xs := by
    obtain ⟨data, notes⟩ := a
    exact parts_of_items? hxs notes
  apply World.inert_of_parts
  · rw [hparts]
    exact fun y hy => (parts_of_isLeaf (hleaves y hy)).1
  · refine ⟨lambda?_of_items? hxs, fun entries hmap => ?_⟩
    rw [hmap] at hxs
    cases hxs
  · rw [hparts]
    exact fun y hy => (parts_of_isLeaf (w := w) (hleaves y hy)).2

theorem inert_of_mem_items (ha : w.Inert a) (hxs : items? a.data = some xs) (x : Value) (hx : x ∈ xs) : w.Inert x := by
  obtain ⟨i, hi, rfl⟩ := List.getElem_of_mem hx
  exact ha.part (getElem_mem_parts hxs hi)

/-! ## The other side -/

/-- Lists from the other side are in reversed order if their elements are. -/
theorem compareItems_swap
    (h : ∀ (i : Nat) (hx : i < xs.length) (hy : i < ys.length) (p : Ordering) (v : World),
      order xs[i] ys[i] ctx w = .value p v → v = w ∧ order ys[i] xs[i] ctx w = .value p.swap w)
    (run : compareItems order xs ys ctx w = .value o u) :
    u = w ∧ compareItems order ys xs ctx w = .value o.swap w := by
  have quiet : Quiet order ctx w xs ys := fun i hx hy p v run => (h i hx hy p v run).1
  have hworld : u = w := world_of_compareItems quiet run
  refine ⟨hworld, ?_⟩
  induction xs generalizing ys o with
  | nil =>
    rw [compareItems_nil_left] at run
    cases run
    rw [compareItems_nil_right, Nat.compare_swap]
    rfl
  | cons x xs ih =>
    cases ys with
    | nil =>
      rw [compareItems_nil_right] at run
      cases run
      rw [compareItems_nil_left, Nat.compare_swap]
      rfl
    | cons y ys =>
      obtain ⟨first, rest, hfirst, rfl, hequal, -⟩ := compareItems_cons quiet run
      have back := (h 0 (Nat.zero_lt_succ _) (Nat.zero_lt_succ _) first w hfirst).2
      rw [compareItems, bind_apply]
      show ((order y x ctx w).bind _) = _
      rw [show order y x ctx w = .value first.swap w from back]
      cases first with
      | lt => rfl
      | gt => rfl
      | eq =>
        exact ih (fun i hx hy => h (i + 1) (Nat.succ_lt_succ hx) (Nat.succ_lt_succ hy)) (hequal rfl) quiet.tail

/-- To a given depth, the order from the other side is reversed, and the state stays as it is. -/
theorem compareAt_swap (ha : w.Inert a) (hb : w.Inert b) (run : compareAt depth a b ctx w = .value o u) :
    u = w ∧ compareAt depth b a ctx w = .value o.swap w := by
  induction depth generalizing a b o u with
  | zero => cases run
  | succ depth ih =>
    have la := ha.lambda? (.refl a)
    have lb := hb.lambda? (.refl b)
    by_cases hi : items? a.data = none ∨ items? b.data = none
    · rw [compareAt_eq_ofExcept la lb hi] at run
      rw [compareAt_eq_ofExcept lb la hi.symm]
      cases hleaves : compareLeaves a.data b.data with
      | error e =>
        rw [hleaves] at run
        cases run
      | ok p =>
        rw [hleaves] at run
        cases run
        rw [compareLeaves_swap hleaves]
        exact ⟨rfl, rfl⟩
    · rw [not_or] at hi
      obtain ⟨xs, hxs⟩ := Option.ne_none_iff_exists'.1 hi.1
      obtain ⟨ys, hys⟩ := Option.ne_none_iff_exists'.1 hi.2
      rw [compareAt_items hxs hys] at run
      rw [compareAt_items hys hxs]
      have parts {i : Nat} (hx : i < xs.length) (hy : i < ys.length) : w.Inert xs[i] ∧ w.Inert ys[i] :=
        ⟨ha.part (getElem_mem_parts hxs hx), hb.part (getElem_mem_parts hys hy)⟩
      exact compareItems_swap (fun i hx hy p v run => ih (parts hx hy).1 (parts hx hy).2 run) run

/-! ## Equal values -/

/-- At one place the values have the zeros with different signs. -/
inductive OppositeZeros : Value → Value → Prop
  | here {a b : Value} {m n : Number} (ha : Number.of? a.data = some m) (hb : Number.of? b.data = some n)
    (h : m.OppositeZeros n) : OppositeZeros a b
  | inside {a b : Value} {xs ys : List Value} (ha : items? a.data = some xs) (hb : items? b.data = some ys)
    {i : Nat} (hx : i < xs.length) (hy : i < ys.length) (h : OppositeZeros xs[i] ys[i]) : OppositeZeros a b

theorem OppositeZeros.data_ne (h : OppositeZeros a b) : a.data ≠ b.data := by
  induction h with
  | here ha hb h =>
    intro hdata
    rw [hdata, hb] at ha
    obtain rfl := Option.some.inj ha
    exact Number.not_oppositeZeros_self _ h
  | inside ha hb hx hy _ ih =>
    intro hdata
    rw [hdata, hb] at ha
    obtain rfl := Option.some.inj ha
    exact ih rfl

theorem number_eq_none_of_items? {data : Data} (h : items? data = some xs) : Number.of? data = none := by
  cases data with
  | list items => rfl
  | sequence items => rfl
  | _ => cases h

theorem oppositeZeros_iff_of_numbers (hi : items? a.data = none ∨ items? b.data = none) :
    OppositeZeros a b ↔
      ∃ m n, Number.of? a.data = some m ∧ Number.of? b.data = some n ∧ m.OppositeZeros n := by
  constructor
  · intro h
    cases h with
    | here ha hb h => exact ⟨_, _, ha, hb, h⟩
    | inside ha hb =>
      rw [ha, hb] at hi
      rcases hi with hi | hi <;> cases hi
  · rintro ⟨m, n, ha, hb, h⟩
    exact .here ha hb h

theorem oppositeZeros_iff_of_items (hxs : items? a.data = some xs) (hys : items? b.data = some ys) :
    OppositeZeros a b ↔ ∃ (i : Nat) (hx : i < xs.length) (hy : i < ys.length), OppositeZeros xs[i] ys[i] := by
  constructor
  · intro h
    cases h with
    | here ha =>
      rw [number_eq_none_of_items? hxs] at ha
      cases ha
    | inside ha hb hx hy h =>
      obtain rfl := Option.some.inj (ha.symm.trans hxs)
      obtain rfl := Option.some.inj (hb.symm.trans hys)
      exact ⟨_, hx, hy, h⟩
  · rintro ⟨i, hx, hy, h⟩
    exact .inside hxs hys hx hy h

/-- Lists are equal in the order if all of their elements are. -/
theorem compareItems_eq_iff {differ : Value → Value → Prop} (hlength : xs.length = ys.length)
    (h : ∀ (i : Nat) (hx : i < xs.length) (hy : i < ys.length) (p : Ordering) (v : World),
      order xs[i] ys[i] ctx w = .value p v → v = w ∧ (p = .eq ↔ ¬differ xs[i] ys[i]))
    (run : compareItems order xs ys ctx w = .value o u) :
    o = .eq ↔ ∀ (i : Nat) (hx : i < xs.length) (hy : i < ys.length), ¬differ xs[i] ys[i] := by
  have quiet : Quiet order ctx w xs ys := fun i hx hy p v run => (h i hx hy p v run).1
  induction xs generalizing ys o with
  | nil =>
    cases ys with
    | nil =>
      rw [compareItems_nil_left] at run
      cases run
      exact iff_of_true (Nat.compare_eq_eq.2 rfl) nofun
    | cons y ys => cases hlength
  | cons x xs ih =>
    cases ys with
    | nil => cases hlength
    | cons y ys =>
      obtain ⟨first, rest, hfirst, rfl, hequal, -⟩ := compareItems_cons quiet run
      have hiff := (h 0 (Nat.zero_lt_succ _) (Nat.zero_lt_succ _) first w hfirst).2
      by_cases heq : first = .eq
      · have hrest := ih (Nat.succ.inj hlength)
          (fun i hx hy => h (i + 1) (Nat.succ_lt_succ hx) (Nat.succ_lt_succ hy)) (hequal heq) quiet.tail
        rw [heq]
        refine hrest.trans ⟨fun hall i hx hy => ?_, fun hall i hx hy => hall (i + 1) (Nat.succ_lt_succ hx)
          (Nat.succ_lt_succ hy)⟩
        cases i with
        | zero => exact hiff.1 heq
        | succ i => exact hall i (Nat.lt_of_succ_lt_succ hx) (Nat.lt_of_succ_lt_succ hy)
      · refine iff_of_false ?_ fun hall => heq (hiff.2 (hall 0 (Nat.zero_lt_succ _) (Nat.zero_lt_succ _)))
        cases first with
        | eq => exact absurd rfl heq
        | lt => exact nofun
        | gt => exact nofun

/-- Values with one payload are equal in the order. -/
theorem compareAt_of_data_eq (ha : w.Inert a) (hb : w.Inert b) (h : a.data = b.data)
    (run : compareAt depth a b ctx w = .value o u) : o = .eq := by
  have back := (compareAt_swap ha hb run).2
  have same : compareAt depth b a ctx w = compareAt depth a b ctx w := by
    cases depth with
    | zero => rfl
    | succ depth =>
      have la := ha.lambda? (.refl a)
      have lb := hb.lambda? (.refl b)
      rw [compareAt, compareAt, onForcedBoth_of_lambda?_eq_none la lb, onForcedBoth_of_lambda?_eq_none lb la, h]
  rw [same, run] at back
  cases o with
  | eq => rfl
  | lt => cases back
  | gt => cases back

/-- Payloads whose parts are compared for equality, except for lists, have no order. -/
theorem equalLeaves_of_pairs? {a b : Data} {pairs : List (Value × Value)} (hpairs : w.pairs? a b = some pairs)
    (hi : items? a = none ∨ items? b = none) (h : compareLeaves a b = .ok o) : equalLeaves a b = true := by
  unfold World.pairs? at hpairs
  split at hpairs
  · cases h
  · cases h
  · cases h
  · unfold World.listed? at hpairs
    split at hpairs
    · rename_i hxs hys
      rw [hxs, hys] at hi
      rcases hi with hi | hi <;> cases hi
    · split at hpairs
      · assumption
      · cases hpairs

/-- To a given depth, equal values that can be compared are equal in the order, unless they have the zeros
with different signs at one place. -/
theorem compareAt_eq_iff (ha : w.Inert a) (hb : w.Inert b) (hcopies : w.TellsCopies a b) (hequal : w.Equal a b)
    (run : compareAt depth a b ctx w = .value o u) : o = .eq ↔ ¬OppositeZeros a b := by
  induction depth generalizing a b o u with
  | zero => cases run
  | succ depth ih =>
    by_cases hdata : a.data = b.data
    · exact iff_of_true (compareAt_of_data_eq ha hb hdata run) fun h => h.data_ne hdata
    have hcopy : sameCopy a b = false := eq_false_of_ne_true fun h => hdata (hcopies (.refl a) (.refl b) h)
    obtain ⟨pairs, hpairs, hparts⟩ := (World.equal_iff hcopy).1 hequal
    by_cases hi : items? a.data = none ∨ items? b.data = none
    · rw [compareAt_eq_ofExcept (ha.lambda? (.refl a)) (hb.lambda? (.refl b)) hi] at run
      cases hleaves : compareLeaves a.data b.data with
      | error e =>
        rw [hleaves] at run
        cases run
      | ok p =>
        rw [hleaves] at run
        cases run
        rw [compareLeaves_eq_iff (equalLeaves_of_pairs? hpairs hi hleaves) hleaves,
          oppositeZeros_iff_of_numbers hi]
        constructor
        · rintro hall ⟨m, n, hm, hn, h⟩
          exact hall m n hm hn h
        · exact fun hnone m n hm hn h => hnone ⟨m, n, hm, hn, h⟩
    · rw [not_or] at hi
      obtain ⟨xs, hxs⟩ := Option.ne_none_iff_exists'.1 hi.1
      obtain ⟨ys, hys⟩ := Option.ne_none_iff_exists'.1 hi.2
      rw [compareAt_items hxs hys] at run
      rw [World.pairs?_of_items? hxs hys] at hpairs
      obtain ⟨hlength, rfl⟩ := World.zipped?_eq_some_iff.1 hpairs
      have hitems (i : Nat) (hx : i < xs.length) (hy : i < ys.length) (p : Ordering) (v : World)
          (run : compareAt depth xs[i] ys[i] ctx w = .value p v) :
          v = w ∧ (p = .eq ↔ ¬OppositeZeros xs[i] ys[i]) := by
        have hx' := getElem_mem_parts (w := w) hxs hx
        have hy' := getElem_mem_parts (w := w) hys hy
        have hzip : (xs[i], ys[i]) ∈ xs.zip ys :=
          List.mem_iff_getElem.2 ⟨i, by simpa using ⟨hx, hy⟩, List.getElem_zip⟩
        exact ⟨(compareAt_swap (ha.part hx') (hb.part hy') run).1,
          ih (ha.part hx') (hb.part hy') (hcopies.part hx' hy') (hparts _ hzip) run⟩
      rw [oppositeZeros_iff_of_items hxs hys, compareItems_eq_iff hlength hitems run]
      simp only [not_exists]

/-! ## Agreement -/

/-- What the computation of equality gives is whether the values are equal. -/
theorem equal_of_equals {r : Bool} (ha : w.Inert a) (hb : w.Inert b) (run : a.equals b ctx w = .value r u) :
    u = w ∧ (r = true ↔ w.Equal a b) := by
  have hdecides := (decides_equalsAt ctx ctx.budget ha hb).here rfl
  have hrun : equalsAt ctx.budget a b ctx w = .value r u := run
  rw [hrun] at hdecides
  obtain ⟨hworld, t, ht, hiff⟩ := hdecides.leaves.of_done (r := .ok r)
  cases ht
  exact ⟨hworld, hiff⟩

/-- Equality of values is computed within the budget if it allows their levels. -/
theorem exists_equals (ctx : Context) (ha : w.Inert a) (hb : w.Inert b) (hflat : w.Flat ctx.budget a) :
    ∃ r, a.equals b ctx w = .value r w := by
  have hdecides := (decides_equalsAt ctx ctx.budget ha hb).here rfl
  obtain ⟨r, v, hrun, hworld, t, rfl, -⟩ := Outcome.yields_iff.1 (hdecides.yields hflat)
  subst hworld
  exact ⟨t, hrun⟩

/-- Equality is the symmetric relation, the order is reversed from the other side, and equal values that can be compared
are equal in the order, unless they have the zeros with different signs at one place. -/
theorem equality_and_order_agree (ctx : Context) (ha : w.Inert a) (hb : w.Inert b)
    (hcopies : w.TellsCopies a b) :
    (∀ r r' v v', a.equals b ctx w = .value r v → b.equals a ctx w = .value r' v' → r = r') ∧
    (w.Flat ctx.budget a → w.Flat ctx.budget b →
      ∃ r, (r = true ↔ w.Equal a b) ∧ a.equals b ctx w = .value r w ∧ b.equals a ctx w = .value r w) ∧
    (∀ o v, a.compare b ctx w = .value o v ↔ b.compare a ctx w = .value o.swap v) ∧
    ∀ o v v', a.equals b ctx w = .value true v → a.compare b ctx w = .value o v' →
      (o = .eq ↔ ¬OppositeZeros a b) := by
  have hsymm (r r' : Bool) (v v' : World) (run : a.equals b ctx w = .value r v)
      (run' : b.equals a ctx w = .value r' v') : r = r' := by
    rw [Bool.eq_iff_iff, (equal_of_equals ha hb run).2, (equal_of_equals hb ha run').2]
    exact World.equal_comm ha hb
  refine ⟨hsymm, fun hflat hflat' => ?_, fun o v => ⟨fun run => ?_, fun run => ?_⟩, fun o v v' hequal run => ?_⟩
  · obtain ⟨r, run⟩ := exists_equals ctx ha hb hflat
    obtain ⟨r', run'⟩ := exists_equals ctx hb ha hflat'
    obtain rfl := hsymm r r' w w run run'
    exact ⟨r, (equal_of_equals ha hb run).2, run, run'⟩
  · obtain ⟨rfl, back⟩ := compareAt_swap ha hb run
    exact back
  · obtain ⟨rfl, back⟩ := compareAt_swap hb ha run
    rw [Ordering.swap_swap] at back
    exact back
  · exact compareAt_eq_iff ha hb hcopies ((equal_of_equals ha hb hequal).2.1 rfl) run

/-- A list and a sequence of an integer, decimals and a text. -/
theorem mixed_lists_tie :
    let ctx := Context.ofBudget 2 default
    let w : World := {}
    let a := list [integer 0, decimal ⟨0x4004000000000000⟩]
    let b := sequence [decimal Decimal.zero, string "2.5"]
    (w.Inert a ∧ w.Inert b ∧ w.TellsCopies a b) ∧
      (w.Equal a b ∧ a.equals b ctx w = .value true w ∧ b.equals a ctx w = .value true w) ∧
      (a.compare b ctx w = .value .eq w ∧ b.compare a ctx w = .value .eq w) ∧ ¬OppositeZeros a b := by
  intro ctx w a b
  have leaves : (∀ y ∈ w.parts a, w.parts y = []) ∧ ∀ y ∈ w.parts b, w.parts y = [] := by
    constructor
    · exact List.forall_mem_cons.2 ⟨rfl, List.forall_mem_singleton.2 rfl⟩
    · exact List.forall_mem_cons.2 ⟨rfl, List.forall_mem_singleton.2 rfl⟩
  have ha : w.Inert a := World.inert_of_parts leaves.1 ⟨rfl, nofun⟩
    (List.forall_mem_cons.2 ⟨⟨rfl, nofun⟩, List.forall_mem_singleton.2 ⟨rfl, nofun⟩⟩)
  have hb : w.Inert b := World.inert_of_parts leaves.2 ⟨rfl, nofun⟩
    (List.forall_mem_cons.2 ⟨⟨rfl, nofun⟩, List.forall_mem_singleton.2 ⟨rfl, nofun⟩⟩)
  have hcopies : w.TellsCopies a b := by
    intro x y hx _ hcopy
    have hmarks : ∀ y ∈ w.parts a, y.notes.mark = 0 :=
      List.forall_mem_cons.2 ⟨rfl, List.forall_mem_singleton.2 rfl⟩
    have hmark : x.notes.mark = 0 := by
      rcases hx.eq_or_mem_parts leaves.1 with rfl | hx
      · rfl
      · exact hmarks x hx
    rw [sameCopy, hmark] at hcopy
    cases hcopy
  have hflat {v : Value} (h : ∀ y ∈ w.parts v, w.parts y = []) : w.Flat 2 v := by
    intro x hx y hy
    rw [h x hx] at hy
    cases hy
  obtain ⟨-, hequal, hcompare, htie⟩ := equality_and_order_agree ctx ha hb hcopies
  obtain ⟨r, hiff, run, run'⟩ := hequal (hflat leaves.1) (hflat leaves.2)
  have hrun : a.equals b ctx w = .value true w := rfl
  have horder : a.compare b ctx w = .value .eq w := rfl
  obtain rfl : r = true := by
    rw [run] at hrun
    cases hrun
    rfl
  exact ⟨⟨ha, hb, hcopies⟩, ⟨hiff.1 rfl, hrun, run'⟩, ⟨horder, (hcompare .eq w).1 horder⟩,
    (htie .eq w w hrun horder).1 rfl⟩

/-- The zeros with different signs are equal, and still one of them comes first. -/
theorem zeros_are_apart :
    ¬∀ (a b : Value) (ctx : Context) (w : World), w.Inert a → w.Inert b → w.TellsCopies a b →
      ∀ o v v', a.equals b ctx w = .value true v → a.compare b ctx w = .value o v' → o = .eq := by
  intro h
  let w : World := {}
  have inert (x : Decimal) : w.Inert (decimal x) := World.inert_of_parts nofun ⟨rfl, nofun⟩ nofun
  have hcopies : w.TellsCopies (decimal Decimal.zero) (decimal Decimal.zero.neg) := by
    intro x y hx _ hcopy
    rcases hx.eq_or_mem_parts nofun with rfl | hx
    · cases hcopy
    · cases hx
  cases h (decimal Decimal.zero) (decimal Decimal.zero.neg) (Context.ofBudget 1 default) w (inert _) (inert _)
    hcopies .gt w w rfl rfl

end Value

end Reactor
