import Reactor.Proofs.Ordering.Compare
import Reactor.Value.Arithmetic

/-!
# Errors attached to results of operators

An operator attaches the errors of its operands to its result, as far as the result does not have them yet
(`Value.carry`). So it matters which errors the result has before that: those of an operand if the operand is
given back, and none if the result is a new value.

* `Value.Carried` : the errors of two operands in the order in which a result has them.
* `Operator.GivesBack` : a binary operator returns one of its operands.
* `Operator.apply_cases` : it returns an operand, or the negative of one, or a new value.
* `Value.operators_keep_errors` : all operators but `sign` keep the errors, and `sign` drops them.
-/

namespace Reactor

/-! ## Properties of results -/

namespace Eval

variable {α β : Type} {P Q : α → Prop}

/-- Whatever the computation returns has the property. -/
def OnlyReturns (P : α → Prop) (act : Eval α) : Prop :=
  ∀ ⦃ctx : Context⦄ ⦃w u : World⦄ ⦃a : α⦄, act ctx w = .value a u → P a

theorem onlyReturns_pure {a : α} (h : P a) : OnlyReturns P (pure a) := by
  intro ctx w u b run
  cases run
  exact h

theorem onlyReturns_fail (e : Error) : OnlyReturns P (fail e) := by
  intro ctx w u a run
  cases run

theorem onlyReturns_ofExcept {result : Except Error α} (h : ∀ a, result = .ok a → P a) :
    OnlyReturns P (ofExcept result) := by
  cases result with
  | ok a => exact onlyReturns_pure (h a rfl)
  | error e => exact onlyReturns_fail e

namespace OnlyReturns

theorem andThen {R : β → Prop} {act : Eval β} {f : β → Eval α} (h : OnlyReturns R act)
    (hf : ∀ b, R b → OnlyReturns P (f b)) : OnlyReturns P (act >>= f) := by
  intro ctx w u a run
  obtain ⟨b, v, hact, run⟩ := bind_eq_value_iff.1 run
  exact hf b (h hact) run

theorem bind {act : Eval β} {f : β → Eval α} (h : ∀ b, OnlyReturns P (f b)) :
    OnlyReturns P (act >>= f) :=
  andThen (R := fun _ => True) (fun _ _ _ _ _ => trivial) fun b _ => h b

theorem ite {c : Prop} [Decidable c] {act other : Eval α} (h : OnlyReturns P act)
    (h' : OnlyReturns P other) : OnlyReturns P (if c then act else other) := by
  split
  · exact h
  · exact h'

end OnlyReturns

end Eval

namespace Value

open Eval

variable {a b r x : Value} {ctx : Context} {w u : World} {e : Error}

/-! ## Attaching errors -/

@[simp] theorem data_carry (r a b : Value) : (carry r a b).data = r.data := by
  unfold carry
  dsimp only
  split <;> rfl

/-- The errors that are attached are those that the result does not have. -/
theorem errors_carry (r a b : Value) :
    (carry r a b).errors = r.errors ++ (a.errors ++ b.errors).filter fun e => !r.errors.contains e := by
  unfold carry
  dsimp only
  split
  · rename_i h
    rw [List.isEmpty_iff.1 h, List.append_nil]
  · rw [errors_withErrors]

theorem filter_not_contains_nil (errors : List Error) :
    (errors.filter fun e => !([] : List Error).contains e) = errors :=
  List.filter_eq_self.2 fun _ _ => rfl

theorem count_filter_not_contains {own errors : List Error} (he : e ∈ own) :
    (errors.filter fun e => !own.contains e).count e = 0 := by
  rw [List.count_eq_zero, List.mem_filter]
  rintro ⟨-, hnot⟩
  simp [he] at hnot

/-- A result has the errors of two operands: first those that it had itself, which are none or those of one
operand, and then the others. -/
def Carried (a b r : Value) : Prop :=
  ∃ own, (own = [] ∨ own = a.errors ∨ own = b.errors) ∧
    r.errors = own ++ (a.errors ++ b.errors).filter fun e => !own.contains e

theorem carried_carry (h : r.errors = [] ∨ r.errors = a.errors ∨ r.errors = b.errors) :
    Carried a b (carry r a b) :=
  ⟨r.errors, h, errors_carry r a b⟩

namespace Carried

variable (h : Carried a b r)
include h

/-- No error is lost, and none is added. -/
theorem mem_errors_iff : e ∈ r.errors ↔ e ∈ a.errors ∨ e ∈ b.errors := by
  obtain ⟨own, hown, herrors⟩ := h
  have hle : e ∈ own → e ∈ a.errors ∨ e ∈ b.errors := by
    rcases hown with rfl | rfl | rfl
    · exact fun h => (List.not_mem_nil h).elim
    · exact .inl
    · exact .inr
  rw [herrors, List.mem_append, List.mem_filter, List.mem_append, Bool.not_eq_true', List.contains_eq_mem,
    decide_eq_false_iff_not]
  constructor
  · rintro (h | ⟨h, -⟩)
    · exact hle h
    · exact h
  · intro h
    by_cases hmem : e ∈ own
    · exact .inl hmem
    · exact .inr ⟨h, hmem⟩

/-- No error is there more often than in both operands together. -/
theorem count_le (e : Error) : r.errors.count e ≤ a.errors.count e + b.errors.count e := by
  obtain ⟨own, hown, herrors⟩ := h
  rw [herrors, List.count_append]
  by_cases hmem : e ∈ own
  · rw [count_filter_not_contains hmem]
    rcases hown with rfl | rfl | rfl
    · exact (List.not_mem_nil hmem).elim
    · omega
    · omega
  · rw [List.count_eq_zero.2 hmem, ← List.count_append, Nat.zero_add]
    exact List.filter_sublist.count_le e

/-- Beside an operand without errors, the errors are those of the other one. -/
theorem errors_eq (hb : b.errors = []) : r.errors = a.errors := by
  obtain ⟨own, hown, herrors⟩ := h
  have hempty : own = [] → r.errors = a.errors := by
    rintro rfl
    rw [herrors, hb, filter_not_contains_nil, List.nil_append, List.append_nil]
  rcases hown with hown | rfl | hown
  · exact hempty hown
  · have hnone : a.errors.filter (fun e => !a.errors.contains e) = [] := by
      rw [List.filter_eq_nil_iff]
      intro e he
      simp [he]
    rw [herrors, hb, List.append_nil, hnone, List.append_nil]
  · exact hempty (hown.trans hb)

end Carried

/-- The result is an operand to which errors have been attached that it did not have. -/
structure ComesBack (a b x r : Value) : Prop where
  data : r.data = x.data
  errors : r.errors = x.errors ++ (a.errors ++ b.errors).filter fun e => !x.errors.contains e

theorem comesBack_carry (a b x : Value) : ComesBack a b x (carry x a b) :=
  ⟨data_carry x a b, errors_carry x a b⟩

/-- Its own errors are not attached once more. -/
theorem ComesBack.count_eq (h : ComesBack a b x r) (he : e ∈ x.errors) :
    r.errors.count e = x.errors.count e := by
  rw [h.errors, List.count_append, count_filter_not_contains he, Nat.add_zero]

/-! ## Computed results -/

theorem errors_numeric {name : String} {f : Number → Number → Number} {p q : Data}
    (h : numeric name f p q = .ok r) : r.errors = [] := by
  unfold numeric at h
  split at h
  · cases h
    rfl
  · cases h

theorem errors_shiftDays {millis : Int64} {days : Data} (h : shiftDays millis days = .ok r) :
    r.errors = [] := by
  unfold shiftDays at h
  cases hdays : dataToDecimal days with
  | ok x =>
    rw [hdays] at h
    cases h
    rfl
  | error e =>
    rw [hdays] at h
    cases h

/-- A sum is a new value. -/
theorem onlyReturns_plusConcrete (plus : Value → Value → Eval Value) (a b : Value) :
    OnlyReturns (fun r => r.errors = []) (plusConcrete plus a b) := by
  have computed (p q : Data) :
      OnlyReturns (fun r => r.errors = []) (ofExcept (numeric "+" Number.add p q)) :=
    onlyReturns_ofExcept fun _ => errors_numeric
  unfold plusConcrete
  split
  · exact .bind fun _ => onlyReturns_pure rfl
  · exact onlyReturns_pure rfl
  · exact onlyReturns_pure rfl
  · exact onlyReturns_pure rfl
  · exact .ite (.bind fun _ => .bind fun _ => onlyReturns_pure rfl) (computed _ _)
  · exact .ite (onlyReturns_pure rfl) (computed _ _)
  · exact .ite (onlyReturns_pure rfl) (computed _ _)
  · exact .ite (onlyReturns_ofExcept fun _ => errors_shiftDays) (computed _ _)
  · exact computed _ _

/-- A difference is a new value, unless nothing is taken from a string. -/
theorem onlyReturns_minusConcrete (minus : Value → Value → Eval Value) (h : ∀ s, a.data ≠ .string s) :
    OnlyReturns (fun r => r.errors = []) (minusConcrete minus a b) := by
  have computed (p q : Data) :
      OnlyReturns (fun r => r.errors = []) (ofExcept (numeric "-" Number.sub p q)) :=
    onlyReturns_ofExcept fun _ => errors_numeric
  unfold minusConcrete
  split
  · exact (h _ ‹_›).elim
  · exact .bind fun _ => onlyReturns_pure rfl
  · exact .bind fun _ => onlyReturns_pure rfl
  · exact onlyReturns_pure rfl
  · exact .bind fun _ => onlyReturns_pure rfl
  · exact .ite (.bind fun _ => .bind fun _ => onlyReturns_pure rfl) (computed _ _)
  · exact onlyReturns_pure rfl
  · exact .ite (.bind fun _ => onlyReturns_ofExcept fun _ => errors_shiftDays) (computed _ _)
  · exact computed _ _

theorem minusConcrete_string {s : String} (minus : Value → Value → Eval Value) (ha : a.data = .string s) :
    minusConcrete minus a b = do
      let part ← b.human
      if part.isEmpty then return a else return .string (Text.removeText s part) := by
  unfold minusConcrete
  rw [ha]

theorem errors_multiplyData {p q : Data} (h : multiplyData p q = .ok r) : r.errors = [] := by
  unfold multiplyData at h
  split at h
  · cases h
    rfl
  · cases h
    rfl
  · split at h
    · cases hcount : repeatCount _ _ with
      | ok count =>
        rw [hcount] at h
        cases h
        rfl
      | error e =>
        rw [hcount] at h
        cases h
    · exact errors_numeric h
  · split at h
    · cases hcount : repeatCount _ _ with
      | ok count =>
        rw [hcount] at h
        cases h
        rfl
      | error e =>
        rw [hcount] at h
        cases h
    · exact errors_numeric h
  · exact errors_numeric h

theorem errors_divideData {p q : Data} (h : divideData p q = .ok r) : r.errors = [] := by
  unfold divideData at h
  split at h
  · cases h
    rfl
  · cases h
    rfl
  · split at h <;> cases h <;> rfl
  · split at h
    · cases hdivisor : dataToDecimal _ with
      | ok divisor =>
        rw [hdivisor] at h
        change (if _ then _ else _) = _ at h
        split at h
        · cases h
        · cases h
          rfl
      | error e =>
        rw [hdivisor] at h
        cases h
    · exact errors_numeric h
  · exact errors_numeric h

end Value

/-! ## Binary operators -/

/-- The binary operators. -/
inductive Operator where
  | plus
  | minus
  | multiply
  | divide
  | modulus

namespace Operator

open Eval Value

/-- The operator at work. -/
def apply : Operator → Value → Value → Eval Value
  | .plus => Value.plus
  | .minus => Value.minus
  | .multiply => Value.multiply
  | .divide => Value.divide
  | .modulus => Value.modulus

/-- Void changes nothing under the operator. -/
def SparesVoid : Operator → Prop
  | .plus | .minus => True
  | .multiply | .divide | .modulus => False

variable {op : Operator} {a b r x : Value} {ctx : Context} {w u : World}

/-- The operator gives an operand back. -/
inductive GivesBack (ctx : Context) (w : World) : Operator → Value → Value → Value → Prop
  /-- Void is added to an operand. -/
  | voidPlus {a b : Value} (ha : a.data = .void) : GivesBack ctx w .plus a b b
  | plusVoid {a b : Value} (ha : a.data ≠ .void) (hb : b.data = .void) : GivesBack ctx w .plus a b a
  | minusVoid {a b : Value} (hb : b.data = .void) : GivesBack ctx w .minus a b a
  /-- The negative of null and of an error is the same. -/
  | voidMinus {a b : Value} (ha : a.data = .void) (hb : b.tag = .null ∨ b.tag = .error) :
    GivesBack ctx w .minus a b b
  /-- Null or an error takes the place of the result. -/
  | absorbed {op : Operator} {a b x : Value} (hvoid : op.SparesVoid → a.data ≠ .void ∧ b.data ≠ .void)
    (hx : absorbing? a b = some x) : GivesBack ctx w op a b x
  /-- What is taken from a string has no text. -/
  | nothingTaken {a b : Value} {s : String} {u : World} (ha : a.data = .string s) (hb : b.data ≠ .void)
    (habs : absorbing? a b = none) (hhuman : b.human ctx w = .value "" u) : GivesBack ctx w .minus a b a

/-! ### Negatives -/

theorem errors_negateData (h : negateData b = .ok r) : r.errors = [] ∨ r = b := by
  unfold negateData at h
  split at h
  case h_9 =>
    split at h
    · cases h
      exact .inl rfl
    · cases h
  all_goals
    cases h
    first
      | exact .inr rfl
      | exact .inl rfl

/-- The negative has the errors of its operand. -/
theorem onlyReturns_negate (hb : b.lambda? = none) : OnlyReturns (fun r => r.errors = b.errors) b.negate := by
  rw [Value.negate, forced_of_lambda?_eq_none hb, pure_bind]
  refine .andThen (onlyReturns_ofExcept fun _ => errors_negateData) fun result hresult =>
    onlyReturns_pure ?_
  have hcarried : Carried b .void (carry result b .void) := by
    refine carried_carry ?_
    rcases hresult with h | rfl
    · exact .inl h
    · exact .inr (.inl rfl)
  exact hcarried.errors_eq rfl

theorem carry_self (b : Value) : carry b b .void = b := by
  unfold carry
  rw [if_pos]
  rw [List.isEmpty_iff, List.filter_eq_nil_iff]
  intro e he
  have hmem : e ∈ b.errors := by simpa [Value.void] using he
  simp [hmem]

theorem negate_eq_self (hb : b.tag = .null ∨ b.tag = .error) : b.negate = pure b := by
  have hcarry : (pure (carry b b .void) : Eval Value) = pure b := congrArg pure (carry_self b)
  obtain ⟨data, notes⟩ := b
  cases data with
  | null ty => exact hcarry
  | error e => exact hcarry
  | _ => rcases hb with h | h <;> cases h

/-! ### Operands that take the place of the result -/

theorem data_ne_void (h : a.tag = .null ∨ a.tag = .error) : a.data ≠ .void := by
  intro hv
  rw [tag, hv] at h
  rcases h with h | h <;> cases h

theorem absorbing?_left (h : a.tag = .null ∨ a.tag = .error) : absorbing? a b = some a := by
  obtain ⟨data, notes⟩ := a
  cases data with
  | null ty => rfl
  | error e => rfl
  | _ => rcases h with h | h <;> cases h

theorem absorbing?_right (ha : ¬(a.tag = .null ∨ a.tag = .error)) (hb : b.tag = .null ∨ b.tag = .error) :
    absorbing? a b = some b := by
  obtain ⟨x, notes⟩ := a
  obtain ⟨y, notes'⟩ := b
  cases y with
  | null ty =>
    cases x with
    | null ty => exact (ha (.inl rfl)).elim
    | error e => exact (ha (.inr rfl)).elim
    | _ => rfl
  | error e =>
    cases x with
    | null ty => exact (ha (.inl rfl)).elim
    | error e => exact (ha (.inr rfl)).elim
    | _ => rfl
  | _ => rcases hb with h | h <;> cases h

theorem eq_or_eq_of_absorbing? (h : absorbing? a b = some x) : x = a ∨ x = b := by
  unfold absorbing? at h
  split at h <;> cases h
  · exact .inl rfl
  · exact .inl rfl
  · exact .inr rfl
  · exact .inr rfl

/-- Null and an error take the place of the result, the first operand before the second one. -/
theorem givesBack_gap (op : Operator) (ctx : Context) (w : World) :
    ((a.tag = .null ∨ a.tag = .error) → b.data ≠ .void → GivesBack ctx w op a b a) ∧
      (¬(a.tag = .null ∨ a.tag = .error) → (b.tag = .null ∨ b.tag = .error) → a.data ≠ .void →
        GivesBack ctx w op a b b) := by
  constructor
  · exact fun hgap hb => .absorbed (fun _ => ⟨data_ne_void hgap, hb⟩) (absorbing?_left hgap)
  · exact fun hnot hgap ha => .absorbed (fun _ => ⟨ha, data_ne_void hgap⟩) (absorbing?_right hnot hgap)

theorem GivesBack.eq_or_eq (h : GivesBack ctx w op a b x) : x = a ∨ x = b := by
  cases h with
  | voidPlus ha => exact .inr rfl
  | plusVoid ha hb => exact .inl rfl
  | minusVoid hb => exact .inl rfl
  | voidMinus ha hb => exact .inr rfl
  | absorbed hvoid hx => exact eq_or_eq_of_absorbing? hx
  | nothingTaken ha hb habs hhuman => exact .inl rfl

/-! ### The rules of the operators -/

section Rules

variable (ha : a.lambda? = none) (hb : b.lambda? = none) (depth : Nat)
include ha hb

theorem plusAt_void_left (hvoid : a.data = .void) : plusAt (depth + 1) a b = pure (carry b a b) := by
  rw [plusAt, onForcedBoth_of_lambda?_eq_none ha hb, hvoid]
  rfl

theorem plusAt_void_right (hva : a.data ≠ .void) (hvoid : b.data = .void) :
    plusAt (depth + 1) a b = pure (carry a a b) := by
  rw [plusAt, onForcedBoth_of_lambda?_eq_none ha hb, hvoid]
  split
  · exact (hva ‹_›).elim
  · rfl
  · rename_i h
    exact (h rfl).elim

theorem plusAt_concrete (hva : a.data ≠ .void) (hvb : b.data ≠ .void) :
    plusAt (depth + 1) a b = (do
      let result ← (match absorbing? a b with
        | some absorbed => pure absorbed
        | none => plusConcrete (plusAt depth) a b)
      return carry result a b) := by
  rw [plusAt, onForcedBoth_of_lambda?_eq_none ha hb]
  split
  · exact (hva ‹_›).elim
  · exact (hvb ‹_›).elim
  · rfl

theorem minusAt_void_right (hvoid : b.data = .void) :
    minusAt (depth + 1) a b = pure (carry a a b) := by
  rw [minusAt, onForcedBoth_of_lambda?_eq_none ha hb, hvoid]
  split
  · rfl
  · rename_i h
    exact (h rfl).elim
  · rename_i h
    exact (h rfl).elim

theorem minusAt_void_left (hvoid : a.data = .void) (hvb : b.data ≠ .void) :
    minusAt (depth + 1) a b = (do return carry (← b.negate) a b) := by
  rw [minusAt, onForcedBoth_of_lambda?_eq_none ha hb, hvoid]
  split
  · exact (hvb ‹_›).elim
  · rfl
  · rename_i h _
    exact (h rfl).elim

theorem minusAt_concrete (hva : a.data ≠ .void) (hvb : b.data ≠ .void) :
    minusAt (depth + 1) a b = (do
      let result ← (match absorbing? a b with
        | some absorbed => pure absorbed
        | none => minusConcrete (minusAt depth) a b)
      return carry result a b) := by
  rw [minusAt, onForcedBoth_of_lambda?_eq_none ha hb]
  split
  · exact (hvb ‹_›).elim
  · exact (hva ‹_›).elim
  · rfl

theorem strict_apply (f : Data → Data → Except Error Value) :
    strict f a b = (match absorbing? a b with
      | some absorbed => pure (carry absorbed a b)
      | none => do return carry (← ofExcept (f a.data b.data)) a b) :=
  onForcedBoth_of_lambda?_eq_none ha hb _

/-- If a binary operator gives an operand back, the errors of the other one are attached to it. -/
theorem apply_givesBack (h : GivesBack ctx w op a b x) (hbudget : 0 < ctx.budget) :
    ∃ u, op.apply a b ctx w = .value (carry x a b) u := by
  obtain ⟨depth, hdepth⟩ : ∃ n, ctx.budget = n + 1 := ⟨ctx.budget - 1, by omega⟩
  have hplus : a.plus b ctx w = plusAt (depth + 1) a b ctx w := by rw [← hdepth]; rfl
  have hminus : a.minus b ctx w = minusAt (depth + 1) a b ctx w := by rw [← hdepth]; rfl
  cases h with
  | voidPlus hva => exact ⟨w, by rw [apply, hplus, plusAt_void_left ha hb depth hva]; rfl⟩
  | plusVoid hva hvb => exact ⟨w, by rw [apply, hplus, plusAt_void_right ha hb depth hva hvb]; rfl⟩
  | minusVoid hvb => exact ⟨w, by rw [apply, hminus, minusAt_void_right ha hb depth hvb]; rfl⟩
  | voidMinus hva hgap =>
    exact ⟨w, by rw [apply, hminus, minusAt_void_left ha hb depth hva (data_ne_void hgap),
      negate_eq_self hgap]; rfl⟩
  | absorbed hvoid hx =>
    refine ⟨w, ?_⟩
    cases op with
    | plus => rw [apply, hplus, plusAt_concrete ha hb depth (hvoid trivial).1 (hvoid trivial).2, hx]; rfl
    | minus => rw [apply, hminus, minusAt_concrete ha hb depth (hvoid trivial).1 (hvoid trivial).2, hx]; rfl
    | multiply => rw [apply, Value.multiply, strict_apply ha hb, hx]; rfl
    | divide => rw [apply, Value.divide, strict_apply ha hb, hx]; rfl
    | modulus => rw [apply, Value.modulus, strict_apply ha hb, hx]; rfl
  | nothingTaken hs hvb habs hhuman =>
    rename_i s u
    refine ⟨u, ?_⟩
    have hva : a.data ≠ .void := by rw [hs]; nofun
    rw [apply, hminus, minusAt_concrete ha hb depth hva hvb, habs, minusConcrete_string _ hs]
    simp only [Eval.bind_apply, hhuman, Outcome.bind_value]
    rfl

end Rules

/-! ### What is returned -/

/-- A value that a binary operator returns: an operand with the errors of the other one, the negative of the
second operand, or a new value, which has the errors of both. -/
inductive Returned (ctx : Context) (w : World) (op : Operator) (a b r : Value) : Prop
  | operand {x : Value} (h : GivesBack ctx w op a b x) (hr : ComesBack a b x r)
  | negative {n : Value} {u : World} (hop : op = .minus) (hvoid : a.data = .void)
    (hn : b.negate ctx w = .value n u) (hr : ComesBack a b n r)
  | new (hr : r.errors = a.errors ++ b.errors)

theorem errors_carry_new (h : r.errors = []) : (carry r a b).errors = a.errors ++ b.errors := by
  rw [errors_carry, h, filter_not_contains_nil, List.nil_append]

/-- A result to which errors are attached: an operand that takes its place, or a computed one. -/
theorem returned_absorbing (act : Eval Value) (hvoid : op.SparesVoid → a.data ≠ .void ∧ b.data ≠ .void)
    (hact : ∀ {n : Value} {u : World}, absorbing? a b = none → act ctx w = .value n u →
      n.errors = [] ∨ GivesBack ctx w op a b n)
    (run : (do
      let result ← (match absorbing? a b with
        | some absorbed => pure absorbed
        | none => act)
      return carry result a b) ctx w = .value r u) : Returned ctx w op a b r := by
  cases habs : absorbing? a b with
  | some x =>
    rw [habs] at run
    cases run
    exact .operand (.absorbed hvoid habs) (comesBack_carry a b x)
  | none =>
    rw [habs] at run
    obtain ⟨n, v, hn, run⟩ := bind_eq_value_iff.1 run
    cases run
    rcases hact habs hn with h | h
    · exact .new (errors_carry_new h)
    · exact .operand h (comesBack_carry a b n)

variable (ha : a.lambda? = none) (hb : b.lambda? = none)
include ha hb

theorem returned_plus (run : a.plus b ctx w = .value r u) : Returned ctx w .plus a b r := by
  obtain ⟨depth, v, hbudget, run⟩ := bind_eq_value_iff.1 run
  cases hbudget
  cases hdepth : ctx.budget with
  | zero =>
    rw [hdepth] at run
    cases run
  | succ depth =>
    rw [hdepth] at run
    by_cases hva : a.data = .void
    · rw [plusAt_void_left ha hb depth hva] at run
      cases run
      exact .operand (.voidPlus hva) (comesBack_carry a b b)
    by_cases hvb : b.data = .void
    · rw [plusAt_void_right ha hb depth hva hvb] at run
      cases run
      exact .operand (.plusVoid hva hvb) (comesBack_carry a b a)
    rw [plusAt_concrete ha hb depth hva hvb] at run
    exact returned_absorbing _ (fun _ => ⟨hva, hvb⟩)
      (fun _ h => .inl (onlyReturns_plusConcrete _ a b h)) run

theorem returned_minus (run : a.minus b ctx w = .value r u) : Returned ctx w .minus a b r := by
  obtain ⟨depth, v, hbudget, run⟩ := bind_eq_value_iff.1 run
  cases hbudget
  cases hdepth : ctx.budget with
  | zero =>
    rw [hdepth] at run
    cases run
  | succ depth =>
    rw [hdepth] at run
    by_cases hvb : b.data = .void
    · rw [minusAt_void_right ha hb depth hvb] at run
      cases run
      exact .operand (.minusVoid hvb) (comesBack_carry a b a)
    by_cases hva : a.data = .void
    · rw [minusAt_void_left ha hb depth hva hvb] at run
      obtain ⟨n, v, hn, run⟩ := bind_eq_value_iff.1 run
      cases run
      exact .negative rfl hva hn (comesBack_carry a b n)
    rw [minusAt_concrete ha hb depth hva hvb] at run
    refine returned_absorbing _ (fun _ => ⟨hva, hvb⟩) (fun habs h => ?_) run
    by_cases hs : ∃ s, a.data = .string s
    · obtain ⟨s, hs⟩ := hs
      rw [minusConcrete_string _ hs] at h
      obtain ⟨part, v, hhuman, h⟩ := bind_eq_value_iff.1 h
      split at h
      · rename_i hempty
        cases h
        rw [String.isEmpty_iff.1 hempty] at hhuman
        exact .inr (.nothingTaken hs hvb habs hhuman)
      · cases h
        exact .inl rfl
    · exact .inl (onlyReturns_minusConcrete _ (not_exists.1 hs) h)

theorem returned_strict {f : Data → Data → Except Error Value} (hop : ¬op.SparesVoid)
    (hf : ∀ p q s, f p q = .ok s → s.errors = []) (run : strict f a b ctx w = .value r u) :
    Returned ctx w op a b r := by
  rw [strict_apply ha hb] at run
  refine returned_absorbing (ofExcept (f a.data b.data)) (fun h => (hop h).elim)
    (fun _ h => .inl (onlyReturns_ofExcept (hf _ _) h)) (u := u) ?_
  rw [← run]
  cases absorbing? a b <;> rfl

theorem apply_cases (op : Operator) (run : op.apply a b ctx w = .value r u) : Returned ctx w op a b r := by
  cases op with
  | plus => exact returned_plus ha hb run
  | minus => exact returned_minus ha hb run
  | multiply => exact returned_strict (f := multiplyData) ha hb id (fun _ _ _ => errors_multiplyData) run
  | divide => exact returned_strict (f := divideData) ha hb id (fun _ _ _ => errors_divideData) run
  | modulus => exact returned_strict (f := numeric "%" Number.rem) ha hb id (fun _ _ _ => errors_numeric) run

/-- Whatever a binary operator returns has the errors of both operands. -/
theorem carried (op : Operator) (run : op.apply a b ctx w = .value r u) : Carried a b r := by
  cases apply_cases ha hb op run with
  | operand h hr =>
    refine ⟨_, .inr ?_, hr.errors⟩
    rcases h.eq_or_eq with rfl | rfl
    · exact .inl rfl
    · exact .inr rfl
  | negative hop hvoid hn hr => exact ⟨_, .inr (.inr (onlyReturns_negate hb hn)), hr.errors⟩
  | new hr => exact ⟨[], .inl rfl, by rw [hr, filter_not_contains_nil, List.nil_append]⟩

end Operator

namespace Value

open Eval Operator

variable {a b : Value}

/-! ## Unary operators -/

theorem errors_signOf (n : Number) : (signOf n).errors = [] := by
  unfold signOf
  dsimp only
  split
  · rfl
  split
  · rfl
  split
  · split <;> rfl
  · rfl

section Unary

variable (ha : a.lambda? = none)
include ha

theorem onlyReturns_abs : OnlyReturns (fun r => r.errors = a.errors) a.abs := by
  rw [abs, onForced_of_lambda?_eq_none ha]
  split
  · exact .ite (onlyReturns_negate ha) (onlyReturns_pure rfl)
  · exact onlyReturns_fail _

/-- A step is an operator whose other operand has no errors, unless it moves a character. -/
theorem onlyReturns_inc : OnlyReturns (fun r => r.errors = a.errors) a.inc := by
  rw [inc, onForced_of_lambda?_eq_none ha]
  split
  · exact .bind fun _ => onlyReturns_pure rfl
  · exact fun _ _ _ _ run => (carried ha rfl .plus run).errors_eq rfl

theorem onlyReturns_dec : OnlyReturns (fun r => r.errors = a.errors) a.dec := by
  rw [dec, onForced_of_lambda?_eq_none ha]
  split
  · exact .bind fun _ => onlyReturns_pure rfl
  · exact fun _ _ _ _ run => (carried ha rfl .minus run).errors_eq rfl

/-- The sign is a new value to which nothing is attached. -/
theorem onlyReturns_sign : OnlyReturns (fun r => r.errors = []) a.sign := by
  rw [sign, forced_of_lambda?_eq_none ha, pure_bind]
  split
  · exact onlyReturns_pure (errors_signOf _)
  · exact onlyReturns_fail _

end Unary

/-- Operators keep the errors of their operands. What a binary operator returns has the errors of both, and
if it is one of them, then its own errors are not attached once more. Null and an error are returned if the
other operand is not void, the first operand before the second one. The unary operators return the errors of
their operand, except for the sign, which has none. -/
theorem operators_keep_errors (ha : a.lambda? = none) (hb : b.lambda? = none) :
    (∀ (op : Operator) (ctx : Context) (w u : World) (r : Value), op.apply a b ctx w = .value r u →
      Carried a b r ∧ Returned ctx w op a b r) ∧
    (∀ (op : Operator) (ctx : Context) (w : World) (x : Value), GivesBack ctx w op a b x →
      0 < ctx.budget → ∃ r u, op.apply a b ctx w = .value r u ∧ ComesBack a b x r) ∧
    (∀ (op : Operator) (ctx : Context) (w : World),
      ((a.tag = .null ∨ a.tag = .error) → b.data ≠ .void → GivesBack ctx w op a b a) ∧
      (¬(a.tag = .null ∨ a.tag = .error) → (b.tag = .null ∨ b.tag = .error) → a.data ≠ .void →
        GivesBack ctx w op a b b)) ∧
    (∀ op ∈ [negate, abs, inc, dec], OnlyReturns (fun r => r.errors = a.errors) (op a)) ∧
    OnlyReturns (fun r => r.errors = []) a.sign := by
  refine ⟨fun op ctx w u r run => ⟨carried ha hb op run, apply_cases ha hb op run⟩, ?_, givesBack_gap, ?_,
    onlyReturns_sign ha⟩
  · intro op ctx w x h hbudget
    obtain ⟨u, run⟩ := apply_givesBack ha hb h hbudget
    exact ⟨_, u, run, comesBack_carry a b x⟩
  · intro op hop
    simp only [List.mem_cons, List.not_mem_nil, or_false] at hop
    rcases hop with rfl | rfl | rfl | rfl
    · exact onlyReturns_negate ha
    · exact onlyReturns_abs ha
    · exact onlyReturns_inc ha
    · exact onlyReturns_dec ha

/-- Null takes the place of a sum, with its own error once and the one of the other operand after it. -/
theorem null_comes_back :
    let early := Error.new .exception "early"
    let late := Error.new .exception "late"
    let a := (integer 1).withErrors [early, late]
    let b := null.withError late
    let ctx := Context.ofBudget 1 default
    ∃ r u, a.plus b ctx {} = .value r u ∧ r.tag = .null ∧ r.errors = [late, early] := by
  intro early late a b ctx
  obtain ⟨-, comes, gap, -⟩ := operators_keep_errors (a := a) (b := b) rfl rfl
  have hgap := (gap .plus ctx {}).2 (by decide) (.inl rfl) nofun
  obtain ⟨r, u, run, back⟩ := comes .plus ctx {} b hgap Nat.one_pos
  refine ⟨r, u, run, ?_, ?_⟩
  · rw [tag, back.data]
    rfl
  · rw [back.errors]
    decide

/-- The sign of a number with an attached error does not have the error. -/
theorem sign_drops_errors :
    let failed := Error.new .exception "upstream"
    let a := (integer (-3)).withError failed
    a.lambda? = none ∧ failed ∈ a.errors ∧
      a.sign (Context.ofBudget 1 default) {} = .value (integer (-1)) {} ∧
      failed ∉ (integer (-1)).errors := by
  refine ⟨rfl, by decide, rfl, by decide⟩

end Value

end Reactor
