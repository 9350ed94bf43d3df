import Reactor.Proofs.Operators.Integers
import Reactor.Proofs.Ranges.Characters

/-!
# Shifting ranges

A number is added to a range by adding it to each of the ends. Integers are moved that way. A text with a number
added is the text followed by the digits, so the ends of a range of characters are not moved.

* `Value.Moves` : what sum and difference have in common, by which a range of integers is moved (`Moves.spans`).
* `Value.IsMoved` : a range has the elements of another one, each of them moved by a number.
* `Value.ranges_shift` : what is added to ranges of integers and of characters does to them.
* `Value.letters_do_not_shift` : the range from a to c has no successor.
-/

namespace Reactor.Value

open Eval

variable {v x y p a b start stop : Value} {i j k : Int64} {m n : Int} {c d : Char} {s : String} {depth : Nat}
  {ctx : Context} {w : World}

/-! ## Both ends -/

/-- An operation, and the same to a given depth, that applies a function to the ends of a range and to integers,
if a word holds the result. -/
structure Moves (op : Value → Value → Eval Value) (opAt : Nat → Value → Value → Eval Value) (f : Int → Int → Int) :
    Prop where
  budget (p x : Value) (ctx : Context) (w : World) : op p x ctx w = opAt ctx.budget p x ctx w
  integers {p x : Value} {i k : Int64} (hp : p.data = .integer i) (hx : x.data = .integer k) (depth : Nat) :
    ∃ d, opAt (depth + 1) p x = pure (carry (plain (Number.fit (f i.toInt k.toInt) d).toData) p x)
  range {v a b x : Value} {k : Int64} (hv : v.data = .range a b) (hx : x.data = .integer k) (depth : Nat) :
    opAt (depth + 1) v x = (do
      let start ← opAt depth a x
      let stop ← Eval.holding start.places (opAt depth b x)
      return carry (.range start stop) v x)

theorem moves_plus : Moves plus plusAt (· + ·) where
  budget _ _ _ _ := rfl
  integers {p x i k} hp hx depth := by
    obtain ⟨data, notes⟩ := p
    obtain ⟨data', notes'⟩ := x
    obtain rfl : data = .integer i := hp
    obtain rfl : data' = .integer k := hx
    exact ⟨_, by rw [← Number.add_int]; rfl⟩
  range {v a b x k} hv hx depth := by
    obtain ⟨data, notes⟩ := v
    obtain ⟨data', notes'⟩ := x
    obtain rfl : data = .range a b := hv
    obtain rfl : data' = .integer k := hx
    rw [Operator.plusAt_concrete (a := .mk (.range a b) notes) (b := .mk (.integer k) notes') rfl rfl depth
      (by rintro ⟨⟩) (by rintro ⟨⟩)]
    show (plusAt depth a _ >>= fun start => Eval.holding start.places (plusAt depth b _) >>= fun stop =>
      pure (.range start stop)) >>= (fun r => pure (carry r _ _)) = _
    simp only [bind_assoc, pure_bind]

theorem moves_minus : Moves minus minusAt (· - ·) where
  budget _ _ _ _ := rfl
  integers {p x i k} hp hx depth := by
    obtain ⟨data, notes⟩ := p
    obtain ⟨data', notes'⟩ := x
    obtain rfl : data = .integer i := hp
    obtain rfl : data' = .integer k := hx
    exact ⟨_, by rw [← Number.sub_int]; rfl⟩
  range {v a b x k} hv hx depth := by
    obtain ⟨data, notes⟩ := v
    obtain ⟨data', notes'⟩ := x
    obtain rfl : data = .range a b := hv
    obtain rfl : data' = .integer k := hx
    rw [Operator.minusAt_concrete (a := .mk (.range a b) notes) (b := .mk (.integer k) notes') rfl rfl depth
      (by rintro ⟨⟩) (by rintro ⟨⟩)]
    show (minusAt depth a _ >>= fun start => Eval.holding start.places (minusAt depth b _) >>= fun stop =>
      pure (.range start stop)) >>= (fun r => pure (carry r _ _)) = _
    simp only [bind_assoc, pure_bind]

/-! ## Integers -/

/-- Every integer of a range can be moved by a number. -/
def Steps (m n k : Int) : Prop :=
  ∀ j, Between m n j → -int64Bound ≤ j + k ∧ j + k < int64Bound

theorem Steps.ends {k : Int} (h : Steps m n k) :
    (-int64Bound ≤ m + k ∧ m + k < int64Bound) ∧ -int64Bound ≤ n + k ∧ n + k < int64Bound :=
  ⟨h m (by unfold Between; omega), h n (by unfold Between; omega)⟩

theorem isPoint_fit {k : Int} (h : -int64Bound ≤ k ∧ k < int64Bound) (x : Decimal) :
    (Number.fit k x).toData.IsPoint .integers k := by
  unfold Number.fit int64?
  rw [if_pos h]
  exact isPoint_rangeItem (by decide) h

namespace Moves

variable {op : Value → Value → Eval Value} {opAt : Nat → Value → Value → Eval Value} {f : Int → Int → Int}
  (hop : Moves op opAt f)
include hop

/-- An integer is moved to one if a word holds the result. -/
theorem isPoint (hp : p.data.IsPoint .integers m) (hx : x.data = .integer k)
    (hfit : -int64Bound ≤ f m k.toInt ∧ f m k.toInt < int64Bound) (depth : Nat) :
    ∃ q, opAt (depth + 1) p x = pure q ∧ q.data.IsPoint .integers (f m k.toInt) := by
  obtain ⟨data, notes⟩ := p
  cases hp with
  | integer i =>
    obtain ⟨d, hrun⟩ := hop.integers (p := .mk (.integer i) notes) rfl hx depth
    refine ⟨_, hrun, ?_⟩
    rw [data_carry]
    exact isPoint_fit hfit d

/-- A range of integers is moved to one if words hold the results for its ends. -/
theorem spans (h : v.Spans .integers m n) (hx : x.data = .integer k) (hbudget : 1 < ctx.budget)
    (hm : -int64Bound ≤ f m k.toInt ∧ f m k.toInt < int64Bound)
    (hn : -int64Bound ≤ f n k.toInt ∧ f n k.toInt < int64Bound) (w : World) :
    ∃ r, op v x ctx w = .value r w ∧ r.Spans .integers (f m k.toInt) (f n k.toInt) := by
  obtain ⟨depth, hdepth⟩ : ∃ depth, ctx.budget = depth + 1 + 1 := ⟨ctx.budget - 2, by omega⟩
  obtain ⟨hv, ha, hb⟩ := h
  obtain ⟨start, hstart, hm⟩ := hop.isPoint ha hx hm depth
  obtain ⟨stop, hstop, hn⟩ := hop.isPoint hb hx hn depth
  refine ⟨carry (.range start stop) v x, ?_, .intro (data_carry ..) hm hn⟩
  rw [hop.budget, hdepth, hop.range hv hx, hstart, hstop]
  rfl

end Moves

/-- A range has the elements of another one, each of them moved by a number. -/
structure IsMoved (v : Value) (k : Int) (ctx : Context) (w : World) (r : Value) : Prop where
  size : r.size ctx w = v.size ctx w
  contains : ∀ (x y : Value) (i j : Int64), x.data = .integer i → y.data = .integer j → j.toInt = i.toInt + k →
    r.containsValue y ctx w = v.containsValue x ctx w
  items : ∀ items, v.toList ctx w = .value items w → ∃ moved, r.toList ctx w = .value moved w ∧
    List.Forall₂ (fun x y => ∃ i j : Int64, x = .integer i ∧ y = .integer j ∧ j.toInt = i.toInt + k) items moved

theorem stretch_add (m n k : Int) : stretch (m + k) (n + k) = (stretch m n).map (· + k) := by
  unfold stretch
  rw [show n + k - (m + k) = n - m by omega, List.map_map]
  exact List.map_congr_left fun i _ => by simp only [Function.comp_apply]; omega

theorem Spans.isMoved {r : Value} {k : Int} (h : v.Spans .integers m n) (hr : r.Spans .integers (m + k) (n + k))
    (hbudget : 0 < ctx.budget) (w : World) : IsMoved v k ctx w r := by
  have hlength : lengthOfEnds (.integers, m + k, n + k) = lengthOfEnds (.integers, m, n) := by
    rw [lengthOfEnds, lengthOfEnds, show n + k - (m + k) = n - m by omega]
  refine ⟨?_, fun x y i j hx hy hij => ?_, fun items hrun => ?_⟩
  · rw [h.size_apply, hr.size_apply, hlength]
  · have hpoint {z : Value} {l : Int64} (hz : z.data = .integer l) : z.data.IsPoint .integers l.toInt :=
      hz ▸ .integer l
    rw [h.containsValue_apply (hpoint hx) hbudget, hr.containsValue_apply (hpoint hy) hbudget]
    refine congrArg (Outcome.value · w) (decide_eq_decide.2 ?_)
    unfold Between
    omega
  · have hsmall : lengthOfEnds (.integers, m, n) ≤ maxRange := by
      by_contra hlarge
      rw [h.toList_of_lt (by omega)] at hrun
      cases hrun
    rw [h.toList_of_le hsmall, itemsOfEnds_eq_map (by decide) hsmall] at hrun
    rw [hr.toList_of_le (by omega), itemsOfEnds_eq_map (by decide) (by omega), stretch_add, List.map_map]
    cases hrun
    refine ⟨_, rfl, ?_⟩
    rw [List.forall₂_map_left_iff, List.forall₂_map_right_iff, List.forall₂_same]
    intro j hj
    obtain ⟨hm, hn⟩ := h.bounds
    obtain ⟨hm', hn'⟩ := hr.bounds
    rw [mem_stretch] at hj
    unfold Between at hj
    refine ⟨Int64.ofInt j, Int64.ofInt (j + k), rfl, rfl, ?_⟩
    rw [Int64.toInt_ofInt_of_le (by omega) (by omega), Int64.toInt_ofInt_of_le (by omega) (by omega)]

theorem equalsAt_points (ha : a.data.IsPoint .integers m) (hb : b.data.IsPoint .integers m) (depth : Nat)
    (ctx : Context) (w : World) : equalsAt (depth + 1) a b ctx w = .value true w := by
  obtain ⟨data, notes⟩ := a
  obtain ⟨data', notes'⟩ := b
  have hsame : data = data' := hb.data_eq ha
  obtain rfl := hsame
  cases ha with
  | integer i =>
    cases hcopy : sameCopy (.mk (.integer i) notes) (.mk (.integer i) notes') with
    | true => simp [equalsAt, hcopy]
    | false => simp [equalsAt, hcopy, onAttempt, lambda?, items?, equalLeaves, Number.of?, Number.equals]

/-- Ranges of integers with the same ends are equal. -/
theorem Spans.equals_apply {r : Value} (h : v.Spans .integers m n) (hr : r.Spans .integers m n)
    (hbudget : 1 < ctx.budget) (w : World) : r.equals v ctx w = .value true w := by
  obtain ⟨depth, hdepth⟩ : ∃ depth, ctx.budget = depth + 1 + 1 := ⟨ctx.budget - 2, by omega⟩
  obtain ⟨hv, ha, hb⟩ := h
  obtain ⟨hr, ha', hb'⟩ := hr
  have hstart := equalsAt_points ha' ha depth ctx w
  have hstop := equalsAt_points hb' hb depth ctx w
  obtain ⟨data, notes⟩ := v
  obtain ⟨data', notes'⟩ := r
  cases hv
  cases hr
  rw [equals, Eval.bind_apply, budget_apply, hdepth, Outcome.bind_value]
  cases hcopy : sameCopy (.mk (.range _ _) notes') (.mk (.range _ _) notes) with
  | true =>
    rw [equalsAt, if_pos hcopy]
    rfl
  | false =>
    rw [equalsAt, if_neg (by simp [hcopy])]
    show (equalsAt (depth + 1) _ _ >>= fun equal =>
      if equal then equalsAt (depth + 1) _ _ else pure false) ctx w = _
    rw [Eval.bind_apply, hstart]
    exact hstop

/-! ## Characters -/

theorem toString_ne_empty (k : Int64) : toString k.toInt ≠ "" := by
  intro h
  have hnone : Number.parse? "" = none := by decide
  have hsome := Number.parse?_toString k
  rw [h, hnone] at hsome
  cases hsome

/-- A character with something behind it is more than one character. -/
theorem singleChar?_append (c : Char) (hs : s ≠ "") : singleChar? (String.singleton c ++ s) = none := by
  refine Option.eq_none_iff_forall_ne_some.2 fun e he => hs ?_
  have hlength := congrArg String.length (singleChar?_eq_some_iff.1 he)
  rw [String.length_append, String.length_singleton, String.length_singleton] at hlength
  exact String.length_eq_zero_iff.1 (by omega)

/-- The digits of an integer are put behind a text. -/
theorem plusAt_string (hp : p.data = .string s) (hx : x.data = .integer k) (hbudget : 0 < ctx.budget) :
    plusAt (depth + 1) p x ctx w = .value (carry (.string (s ++ toString k.toInt)) p x) w := by
  obtain ⟨level, hlevel⟩ : ∃ level, ctx.budget = level + 1 := ⟨ctx.budget - 1, by omega⟩
  obtain ⟨data, notes⟩ := p
  obtain ⟨data', notes'⟩ := x
  obtain rfl : data = .string s := hp
  obtain rfl : data' = .integer k := hx
  have hhuman : (Value.mk (.integer k) notes').human ctx w = .value (toString k.toInt) w := by
    rw [human, Eval.bind_apply, budget_apply, hlevel]
    rfl
  rw [Operator.plusAt_concrete (a := .mk (.string s) notes) (b := .mk (.integer k) notes') rfl rfl depth
      (by rintro ⟨⟩) (by rintro ⟨⟩), Eval.bind_apply]
  show ((do return .string (s ++ (← (Value.mk (.integer k) notes').human)) : Eval Value) ctx w).bind _ = _
  rw [Eval.bind_apply, hhuman]
  rfl

/-- A range whose start is a text of several characters is neither measured nor expanded. -/
theorem not_expanded {s t : String} (hv : v.data = .range a b) (ha : a.data = .string s) (hb : b.data = .string t)
    (hs : singleChar? s = none) (ctx : Context) (w : World) :
    v.size ctx w = .error (.invalidOperands "range" .string .string) w ∧
      v.toList ctx w = .error (.invalidOperands "range" .string .string) w := by
  have hends : rangeEnds a.data b.data = .error (.invalidOperands "range" .string .string) := by
    rw [ha, hb]
    simp only [rangeEnds, hs]
  have hlambda {x : Value} {r : String} (hx : x.data = .string r) : x.lambda? = none := by
    rw [lambda?, hx]
  obtain ⟨data, notes⟩ := v
  cases hv
  constructor
  · refine (rangeLength_of_lambda?_eq_none (hlambda ha) (hlambda hb) ctx w).trans ?_
    rw [hends]
    rfl
  · refine (rangeItems_of_lambda?_eq_none (hlambda ha) (hlambda hb) ctx w).trans ?_
    rw [hends]
    rfl

/-- The ends of a range of characters get the digits of what is added, so they are no characters any more. -/
theorem plus_texts (hv : v.data = .range a b) (ha : a.data = .string (String.singleton c))
    (hb : b.data = .string (String.singleton d)) (hx : x.data = .integer k) (hbudget : 1 < ctx.budget) (w : World) :
    ∃ r start stop e, v.plus x ctx w = .value r w ∧ r.data = .range start stop ∧
      start.data = .string (String.singleton c ++ toString k.toInt) ∧
      stop.data = .string (String.singleton d ++ toString k.toInt) ∧
      r.size ctx w = .error e w ∧ r.toList ctx w = .error e w ∧ e.kind = .invalidOperation := by
  obtain ⟨depth, hdepth⟩ : ∃ depth, ctx.budget = depth + 1 + 1 := ⟨ctx.budget - 2, by omega⟩
  have text {p : Value} {e : Char} (hp : p.data = .string (String.singleton e)) :
      ∃ q, q.data = .string (String.singleton e ++ toString k.toInt) ∧
        ∀ other : Context, 0 < other.budget → plusAt (depth + 1) p x other w = .value q w :=
    ⟨_, data_carry .., fun _ hbudget => plusAt_string hp hx hbudget⟩
  obtain ⟨start, hstart, addStart⟩ := text ha
  obtain ⟨stop, hstop, addStop⟩ := text hb
  have held : Eval.holding start.places (plusAt (depth + 1) b x) ctx w = .value stop w :=
    addStop _ (show 0 < ctx.budget by omega)
  have hrun : v.plus x ctx w = .value (carry (range start stop) v x) w := by
    rw [moves_plus.budget, hdepth, moves_plus.range hv hx, Eval.bind_apply, addStart ctx (by omega),
      Outcome.bind_value, Eval.bind_apply, held]
    rfl
  have hends : (carry (range start stop) v x).data = .range start stop := data_carry ..
  obtain ⟨hsize, hlist⟩ := not_expanded hends hstart hstop (singleChar?_append c (toString_ne_empty k)) ctx w
  exact ⟨_, start, stop, _, hrun, hends, hstart, hstop, hsize, hlist, rfl⟩

/-- **Shifting ranges.** An integer that is added to a range of integers, each of which it can be added to, moves the
range: the result is one of as many integers, each of them moved, and subtraction of the same integer gives the
range back. What is added to a range of characters is put behind the characters at its ends instead, and the
result has no elements. -/
theorem ranges_shift (hx : x.data = .integer k) (hbudget : 1 < ctx.budget) (w : World) :
    (∀ v m n, v.Spans .integers m n → Steps m n k.toInt →
      ∃ r u, v.plus x ctx w = .value r w ∧ r.Spans .integers (m + k.toInt) (n + k.toInt) ∧
        IsMoved v k.toInt ctx w r ∧
        r.minus x ctx w = .value u w ∧ u.Spans .integers m n ∧ u.equals v ctx w = .value true w) ∧
    ∀ (v a b : Value) (c d : Char), v.data = .range a b → a.data = .string (String.singleton c) →
      b.data = .string (String.singleton d) →
      ∃ r start stop e, v.plus x ctx w = .value r w ∧ r.data = .range start stop ∧
        start.data = .string (String.singleton c ++ toString k.toInt) ∧
        stop.data = .string (String.singleton d ++ toString k.toInt) ∧
        r.size ctx w = .error e w ∧ r.toList ctx w = .error e w ∧ e.kind = .invalidOperation := by
  refine ⟨fun v m n h hsteps => ?_, fun v a b c d hv ha hb => plus_texts hv ha hb hx hbudget w⟩
  obtain ⟨hm, hn⟩ := hsteps.ends
  obtain ⟨r, hplus, hr⟩ := moves_plus.spans h hx hbudget hm hn w
  obtain ⟨hm', hn'⟩ := h.bounds
  obtain ⟨u, hminus, hu⟩ :=
    moves_minus.spans hr hx hbudget (by rwa [Int.add_sub_cancel]) (by rwa [Int.add_sub_cancel]) w
  rw [Int.add_sub_cancel, Int.add_sub_cancel] at hu
  exact ⟨r, u, hplus, hr, h.isMoved hr (by omega) w, hminus, hu, h.equals_apply hu hbudget w⟩

/-- Integers that go down are moved down by adding a negative one, and up again by subtracting it. -/
theorem downward_shift :
    let v := range (integer 3) (integer 1)
    let ctx := Context.ofBudget 2 default
    ∃ r u, v.plus (integer (-5)) ctx {} = .value r {} ∧ r.Spans .integers (-2) (-4) ∧
      r.minus (integer (-5)) ctx {} = .value u {} ∧ u.equals v ctx {} = .value true {} := by
  intro v ctx
  have h : v.Spans .integers 3 1 := .intro rfl (.integer 3) (.integer 1)
  have hsteps : Steps 3 1 (-5) := by
    intro j hj
    unfold Between at hj
    unfold int64Bound
    omega
  obtain ⟨hmove, -⟩ := ranges_shift (x := integer (-5)) rfl (show 1 < ctx.budget by decide) {}
  obtain ⟨r, u, hplus, hr, -, hminus, -, hequal⟩ := hmove v 3 1 h hsteps
  exact ⟨r, u, hplus, hr, hminus, hequal⟩

/-- Each letter from a to c has a next one, but adding one to their range gives one without elements. -/
theorem letters_do_not_shift :
    let v := range (character 'a') (character 'c')
    let ctx := Context.ofBudget 2 default
    v.toList ctx {} = .value [character 'a', character 'b', character 'c'] {} ∧
      (∀ x ∈ [character 'a', character 'b', character 'c'], ∃ y, x.inc ctx {} = .value y {}) ∧
      ∃ r e, v.plus (integer 1) ctx {} = .value r {} ∧ r.toList ctx {} = .error e {} := by
  intro v ctx
  refine ⟨rfl, ?_, ?_⟩
  · simp only [List.mem_cons, List.not_mem_nil, or_false]
    rintro x (rfl | rfl | rfl) <;> exact ⟨_, rfl⟩
  · obtain ⟨r, -, -, e, hplus, -, -, -, -, hlist, -⟩ := plus_texts (v := v) (x := integer 1) (c := 'a') (d := 'c')
      rfl rfl rfl rfl (show 1 < ctx.budget by decide) {}
    exact ⟨r, e, hplus, hlist⟩

end Reactor.Value
