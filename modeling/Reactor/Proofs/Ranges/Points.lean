import Reactor.Proofs.Network.Yields
import Reactor.Proofs.Operators.Errors
import Reactor.Proofs.Ordering.Scalars
import Reactor.Value.Collection

/-!
# Ranges as stretches of numbers

The ends of a range are two integers, two instants or two characters, and each of them stands for a number
(`Data.IsPoint`). The length of a range, its elements and what lies in it are worked out in different ways. Here
each of them is taken back to the numbers of the ends.

* `Value.compare_points` : values of one kind are ordered as the numbers that they stand for are.
* `Value.expansion` : the elements between two ends, unless there are too many.
* `Value.Spans` : the value is a range of a kind from one number to another one.
* `Value.Spans.size_apply`, `Value.Spans.toList_apply`, `Value.Spans.containsValue_apply`,
  `Value.Spans.negate_spans` : what is done with a range.
-/

namespace Reactor

/-! ## Texts of one character -/

namespace Text

variable {c : Char}

theorem decimal?_singleton (hc : c.isDigit = false) : decimal? (String.singleton c) = none := by
  by_cases hmark : c ∈ ['+', '-', '.']
  · simp only [List.mem_cons, List.not_mem_nil, or_false] at hmark
    rcases hmark with rfl | rfl | rfl <;> decide
  simp only [List.mem_cons, List.not_mem_nil, or_false, not_or] at hmark
  have hsplit : splitSign [c] = (false, [c]) := by
    unfold splitSign
    split <;> simp_all
  have hword (s : String) (h : s.length ≠ 1) : (String.ofList [c.toLower] == s) = false := by
    rw [beq_eq_false_iff_ne]
    rintro rfl
    exact h String.length_singleton
  unfold decimal?
  simp only [String.toList_singleton, hsplit, List.map_cons, List.map_nil, hword "nan" (by decide),
    hword "inf" (by decide), hword "infinity" (by decide), List.takeWhile_cons, List.dropWhile_cons, hc]
  split
  · rename_i heq
    simp at heq
  · split <;> simp_all

theorem trimBlank_singleton (c : Char) :
    trimBlank (String.singleton c) = "" ∨ trimBlank (String.singleton c) = String.singleton c := by
  unfold trimBlank trimChars
  rw [String.toList_singleton]
  cases h : isBlank c with
  | true => exact .inl (by simp [h])
  | false =>
    refine .inr ?_
    rw [List.dropWhile_cons_of_neg (by simp [h]), List.reverse_singleton, List.dropWhile_cons_of_neg (by simp [h]),
      List.reverse_singleton, String.singleton_eq_ofList]

theorem readInt64?_singleton (hc : c.isDigit = false) : readInt64? (String.singleton c) = none := by
  have hsplit : (splitSign [c]).2 = [] ∨ (splitSign [c]).2 = [c] := by
    unfold splitSign
    split <;> simp_all
  have hnone : naturalBelow? (int64Bound + 1) (splitSign [c]).2 = none := by
    rcases hsplit with h | h
    · rw [h]
      rfl
    · rw [h]
      simp [naturalBelow?, hc]
  unfold readInt64? integerBelow?
  rw [String.toList_singleton]
  simp [hnone]

end Text

namespace Number

variable {c : Char}

/-- A character that is no digit is no number. -/
theorem parse?_singleton_eq_none (hc : c.isDigit = false) : parse? (String.singleton c) = none := by
  unfold parse?
  rcases Text.trimBlank_singleton c with h | h
  · rw [h]
    decide
  · simp only [h, Text.readInt64?_singleton hc, Decimal.parse?, Text.decimal?_singleton hc]
    rfl

theorem parse?_digit : ∀ k < 10, parse? (String.singleton (Char.ofNat (48 + k))) = some (int (Int64.ofNat k)) ∧
    (Int64.ofNat k).toInt = k := by
  decide +kernel

/-- A digit is a number, and the digits have their numbers in the order of their code points. -/
theorem parse?_singleton_of_isDigit (hc : c.isDigit = true) :
    ∃ n : Int64, parse? (String.singleton c) = some (int n) ∧ n.toInt + 48 = c.toNat := by
  obtain ⟨hlow, hhigh⟩ : 48 ≤ c.toNat ∧ c.toNat ≤ 57 := Char.isDigit_iff_toNat.1 hc
  obtain ⟨hparse, hword⟩ := parse?_digit (c.toNat - 48) (by omega)
  rw [show 48 + (c.toNat - 48) = c.toNat by omega, Char.ofNat_toNat] at hparse
  exact ⟨_, hparse, by omega⟩

end Number

/-! ## Points -/

/-- The payload is an end of a range of a kind and stands for a number. -/
inductive Data.IsPoint : Value.RangeKind → Int → Data → Prop
  | integer (n : Int64) : IsPoint .integers n.toInt (.integer n)
  | date (millis : Int64) : IsPoint .days millis.toInt (.date millis)
  | character {s : String} {c : Char} (h : Value.singleChar? s = some c) : IsPoint .characters c.toNat (.string s)

namespace Value

open Eval

variable {v a b x : Value} {p q : Data} {kind : RangeKind} {k m n : Int} {ctx : Context}

/-- The code point of a character is in front of the surrogates or behind them. -/
theorem codePoint_cases (c : Char) : c.toNat < 0xd800 ∨ 0xdfff < c.toNat ∧ c.toNat < 0x110000 :=
  c.valid

theorem singleChar?_eq_some_iff {s : String} {c : Char} : singleChar? s = some c ↔ s = String.singleton c := by
  unfold singleChar?
  constructor
  · intro h
    split at h
    · rename_i hs
      cases h
      rw [← String.ofList_toList (s := s), hs, String.singleton_eq_ofList]
    · cases h
  · rintro rfl
    rw [String.toList_singleton]

theorem singleChar?_singleton (c : Char) : singleChar? (String.singleton c) = some c :=
  singleChar?_eq_some_iff.2 rfl

theorem compareText_singleton (c d : Char) :
    compareText (String.singleton c) (String.singleton d) = Ord.compare (c.toNat : Int) d.toNat := by
  have hlt : String.singleton c < String.singleton d ↔ (c.toNat : Int) < d.toNat := by
    rw [String.lt_iff, String.toList_singleton, String.toList_singleton, Int.ofNat_lt]
    simp only [List.cons_lt_cons_iff, List.not_lt_nil, and_false, or_false]
    exact Iff.rfl
  have heq : String.singleton c = String.singleton d ↔ (c.toNat : Int) = d.toNat := by
    rw [String.singleton_inj, Int.ofNat_inj, Char.toNat_inj]
  simp only [compareText, hlt, heq]
  rfl

/-- Characters are ordered by their code points. Two digits are compared as numbers, which are in the same
order. -/
theorem compareLeaves_singleton (c d : Char) :
    compareLeaves (.string (String.singleton c)) (.string (String.singleton d)) =
      .ok (Ord.compare (c.toNat : Int) d.toNat) := by
  have hdates (x y : Int64) (h : Data.string (String.singleton c) = .date x)
      (_ : Data.string (String.singleton d) = .date y) : False := by cases h
  have hread (e : Char) : Number.coerce? (.string (String.singleton e)) = Number.parse? (String.singleton e) := rfl
  have htexts : compareText (Data.string (String.singleton c)).plainText
      (Data.string (String.singleton d)).plainText = Ord.compare (c.toNat : Int) d.toNat :=
    compareText_singleton c d
  rw [compareLeaves_of_isScalar rfl rfl hdates, compareScalars_eq_ok_iff, hread, hread]
  cases hc : c.isDigit with
  | false => exact .inr ⟨.inl (Number.parse?_singleton_eq_none hc), ⟨rfl, rfl⟩, htexts⟩
  | true =>
    cases hd : d.isDigit with
    | false => exact .inr ⟨.inr (Number.parse?_singleton_eq_none hd), ⟨rfl, rfl⟩, htexts⟩
    | true =>
      obtain ⟨i, hi, hci⟩ := Number.parse?_singleton_of_isDigit hc
      obtain ⟨j, hj, hdj⟩ := Number.parse?_singleton_of_isDigit hd
      refine .inl ⟨.int i, .int j, hi, hj, ?_⟩
      rw [← hci, ← hdj]
      simp only [Number.compare, Ord.compare, compareOfLessAndEq, Int.add_lt_add_iff_right, Int.add_left_inj]

end Value

namespace Data.IsPoint

open Value

variable {p q : Data} {kind : RangeKind} {k m n : Int}

/-- A number is that of one end of a kind. -/
theorem data_eq (h : p.IsPoint kind m) (h' : q.IsPoint kind m) : q = p := by
  generalize hn : m = n at h'
  cases h with
  | integer i =>
    cases h' with
    | integer j => rw [Int64.toInt_inj.1 hn]
  | date i =>
    cases h' with
    | date j => rw [Int64.toInt_inj.1 hn]
  | character h =>
    cases h' with
    | character h' =>
      rw [singleChar?_eq_some_iff.1 h, singleChar?_eq_some_iff.1 h', Char.toNat_inj.1 (Int.ofNat_inj.1 hn)]

theorem rangeEnds_eq (h : p.IsPoint kind m) (h' : q.IsPoint kind n) : rangeEnds p q = .ok (kind, m, n) := by
  cases h with
  | integer i =>
    cases h' with
    | integer j => rfl
  | date i =>
    cases h' with
    | date j => rfl
  | character h =>
    cases h' with
    | character h' => simp only [rangeEnds, h, h']

theorem compareLeaves_eq (h : p.IsPoint kind m) (h' : q.IsPoint kind n) :
    compareLeaves p q = .ok (Ord.compare m n) := by
  cases h with
  | integer i =>
    cases h' with
    | integer j => rfl
  | date i =>
    cases h' with
    | date j => rfl
  | character h =>
    cases h' with
    | character h' =>
      rw [singleChar?_eq_some_iff.1 h, singleChar?_eq_some_iff.1 h']
      exact compareLeaves_singleton _ _

/-- Numbers of integers and instants are words of 64 bits. -/
theorem bounds (h : p.IsPoint kind k) : -9223372036854775808 ≤ k ∧ k < 9223372036854775808 := by
  cases h with
  | integer i => exact ⟨i.le_toInt, i.toInt_lt⟩
  | date i => exact ⟨i.le_toInt, i.toInt_lt⟩
  | @character s c _ =>
    have hc := codePoint_cases c
    omega

end Data.IsPoint

namespace Value

open Eval

variable {v a b x : Value} {kind : RangeKind} {k m n : Int} {ctx : Context}

theorem lambda?_of_isPoint (h : a.data.IsPoint kind m) : a.lambda? = none ∧ items? a.data = none := by
  obtain ⟨data, notes⟩ := a
  cases h <;> exact ⟨rfl, rfl⟩

/-- Values of one kind are ordered as the numbers that they stand for are. -/
theorem compare_points (ha : a.data.IsPoint kind m) (hb : b.data.IsPoint kind n) (hbudget : 0 < ctx.budget)
    (w : World) : a.compare b ctx w = .value (Ord.compare m n) w := by
  obtain ⟨depth, hdepth⟩ : ∃ depth, ctx.budget = depth + 1 := ⟨ctx.budget - 1, by omega⟩
  obtain ⟨la, ia⟩ := lambda?_of_isPoint ha
  obtain ⟨lb, -⟩ := lambda?_of_isPoint hb
  rw [compare, Eval.bind_apply, budget_apply, Outcome.bind_value, hdepth,
    compareAt_eq_ofExcept la lb (.inl ia), ha.compareLeaves_eq hb]
  rfl

/-- The number lies between two others, whichever of them is the lower one. -/
def Between (m n k : Int) : Prop :=
  m ≤ k ∧ k ≤ n ∨ n ≤ k ∧ k ≤ m

instance (m n k : Int) : Decidable (Between m n k) :=
  inferInstanceAs (Decidable (_ ∨ _))

theorem within_points (hx : x.data.IsPoint kind k) (ha : a.data.IsPoint kind m) (hb : b.data.IsPoint kind n)
    (hbudget : 0 < ctx.budget) (w : World) : x.within a b ctx w = .value (decide (Between m n k)) w := by
  have hcompare {y z : Value} {i j : Int} (hy : y.data.IsPoint kind i) (hz : z.data.IsPoint kind j) :
      y.compare z ctx w = .value (Ord.compare i j) w := compare_points hy hz hbudget w
  have hends {low high : Value} {i j : Int} (hlow : low.data.IsPoint kind i) (hhigh : high.data.IsPoint kind j) :
      (do
        if (← x.compare low) = .lt then return false
        return (← x.compare high) ≠ .gt : Eval Bool) ctx w = .value (decide (i ≤ k ∧ k ≤ j)) w := by
    rw [Eval.bind_apply, hcompare hx hlow, Outcome.bind_value]
    by_cases hlt : k < i
    · rw [if_pos (Int.compare_eq_lt.2 hlt), decide_eq_false (by omega)]
      rfl
    · rw [if_neg (mt Int.compare_eq_lt.1 hlt), Eval.bind_apply, hcompare hx hhigh, Outcome.bind_value]
      refine congrArg (Outcome.value · w) (decide_eq_decide.2 ?_)
      rw [ne_eq, Int.compare_eq_gt]
      omega
  unfold within
  rw [Eval.bind_apply, hcompare ha hb, Outcome.bind_value]
  by_cases hmn : n < m
  · rw [if_pos (Int.compare_eq_gt.2 hmn)]
    refine (hends hb ha).trans (congrArg (Outcome.value · w) (decide_eq_decide.2 ?_))
    unfold Between
    omega
  · rw [if_neg (mt Int.compare_eq_gt.1 hmn)]
    refine (hends ha hb).trans (congrArg (Outcome.value · w) (decide_eq_decide.2 ?_))
    unfold Between
    omega

/-! ## Ranges -/

/-- The value is a range of a kind, and its ends stand for two numbers. -/
inductive Spans : Value → RangeKind → Int → Int → Prop
  | intro {v a b : Value} {kind : RangeKind} {m n : Int} (hv : v.data = .range a b)
    (ha : a.data.IsPoint kind m) (hb : b.data.IsPoint kind n) : Spans v kind m n

/-- A range has too many elements to be expanded. -/
def tooLarge (length : Nat) : Error :=
  .new .invalidOperation ("Range of " ++ toString length ++ " elements is too large to expand")

/-- The elements between two ends, unless there are too many. -/
def expansion (ends : RangeKind × Int × Int) : Except Error (List Value) :=
  if maxRange < lengthOfEnds ends then .error (tooLarge (lengthOfEnds ends))
  else .ok (itemsOfEnds (lengthOfEnds ends) ends)

section Ends

variable (ha : a.lambda? = none) (hb : b.lambda? = none) (ctx : Context) (w : World)
include ha hb

theorem rangeLength_of_lambda?_eq_none :
    rangeLength a b ctx w = .done ((rangeEnds a.data b.data).map lengthOfEnds) w := by
  rw [rangeLength, onForcedBoth_of_lambda?_eq_none ha hb]
  cases rangeEnds a.data b.data <;> rfl

theorem rangeItems_of_lambda?_eq_none :
    rangeItems a b ctx w = .done ((rangeEnds a.data b.data).bind expansion) w := by
  rw [rangeItems, Eval.bind_apply, rangeLength_of_lambda?_eq_none ha hb]
  cases hends : rangeEnds a.data b.data with
  | error e => rfl
  | ok ends =>
    show (if maxRange < lengthOfEnds ends then _ else _ : Eval (List Value)) ctx w = .done (expansion ends) w
    unfold expansion
    split
    · rfl
    · rw [onForcedBoth_of_lambda?_eq_none ha hb, hends]
      rfl

end Ends

namespace Spans

variable (h : v.Spans kind m n)
include h

theorem size_apply (ctx : Context) (w : World) : v.size ctx w = .value (lengthOfEnds (kind, m, n)) w := by
  obtain ⟨hv, ha, hb⟩ := h
  obtain ⟨data, notes⟩ := v
  cases hv
  refine (rangeLength_of_lambda?_eq_none (lambda?_of_isPoint ha).1 (lambda?_of_isPoint hb).1 ctx w).trans ?_
  rw [ha.rangeEnds_eq hb]
  rfl

theorem toList_apply (ctx : Context) (w : World) : v.toList ctx w = .done (expansion (kind, m, n)) w := by
  obtain ⟨hv, ha, hb⟩ := h
  obtain ⟨data, notes⟩ := v
  cases hv
  refine (rangeItems_of_lambda?_eq_none (lambda?_of_isPoint ha).1 (lambda?_of_isPoint hb).1 ctx w).trans ?_
  rw [ha.rangeEnds_eq hb]
  rfl

theorem toList_of_le (hlength : lengthOfEnds (kind, m, n) ≤ maxRange) (ctx : Context) (w : World) :
    v.toList ctx w = .value (itemsOfEnds (lengthOfEnds (kind, m, n)) (kind, m, n)) w := by
  rw [h.toList_apply, expansion, if_neg (Nat.not_lt.2 hlength)]
  rfl

theorem toList_of_lt (hlength : maxRange < lengthOfEnds (kind, m, n)) (ctx : Context) (w : World) :
    v.toList ctx w = .error (tooLarge (lengthOfEnds (kind, m, n))) w := by
  rw [h.toList_apply, expansion, if_pos hlength]
  rfl

/-- A value of the kind lies in the range if its number lies between those of the ends. -/
theorem containsValue_apply (hx : x.data.IsPoint kind k) (hbudget : 0 < ctx.budget) (w : World) :
    v.containsValue x ctx w = .value (decide (Between m n k)) w := by
  obtain ⟨hv, ha, hb⟩ := h
  obtain ⟨data, notes⟩ := v
  cases hv
  exact within_points hx ha hb hbudget w

/-- The negative of a range goes the other way. -/
theorem negate_spans (ctx : Context) (w : World) :
    ∃ r, v.negate ctx w = .value r w ∧ r.Spans kind n m := by
  obtain ⟨hv, ha, hb⟩ := h
  obtain ⟨data, notes⟩ := v
  cases hv
  exact ⟨_, rfl, .intro (data_carry _ _ _) hb ha⟩

end Spans

end Value

end Reactor
