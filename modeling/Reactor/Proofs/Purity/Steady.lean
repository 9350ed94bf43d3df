import Reactor.Engine.Variable
import Reactor.Proofs.Network.Yields

/-!
# Computations on plain values

A computation is *steady* (`Eval.Steady`) if it gives the same in every state and leaves the state
alone. There is one rule for each way in which computations are put together. To fix a plain value, to
ask for its truth and to write it as a text is steady.
-/

namespace Reactor

namespace Eval

variable {α β : Type} {P : α → Prop} {Q : β → Prop}

/-- The computation gives the same in every state, a value with a property or a failure, and leaves
the state alone. Or it goes beyond its budget in every state. -/
def Steady (P : α → Prop) (act : Eval α) : Prop :=
  ∀ ctx, (∀ w, act ctx w = .exhausted) ∨
    ∃ r : Except Error α, (∀ a, r = .ok a → P a) ∧ ∀ w, act ctx w = .done r w

theorem steady_pure {a : α} (h : P a) : Steady P (pure a : Eval α) := by
  intro ctx
  refine .inr ⟨.ok a, fun b hb => ?_, fun w => rfl⟩
  cases hb
  exact h

theorem steady_fail (e : Error) : Steady P (fail e : Eval α) := by
  intro ctx
  refine .inr ⟨.error e, fun b hb => ?_, fun w => rfl⟩
  cases hb

theorem steady_exhausted : Steady P (exhausted : Eval α) :=
  fun _ => .inl fun _ => rfl

theorem steady_budget : Steady (fun _ => True) budget := by
  intro ctx
  exact .inr ⟨.ok ctx.budget, fun _ _ => trivial, fun w => rfl⟩

theorem Steady.bind {act : Eval α} {f : α → Eval β} (h : Steady P act)
    (hf : ∀ a, P a → Steady Q (f a)) : Steady Q (act >>= f) := by
  intro ctx
  rcases h ctx with run | ⟨r, hr, run⟩
  · refine .inl fun w => ?_
    rw [bind_apply, run, Outcome.bind_exhausted]
  · cases r with
    | error e =>
      refine .inr ⟨.error e, fun b hb => ?_, fun w => ?_⟩
      · cases hb
      · rw [bind_apply, run]
        rfl
    | ok a =>
      have onward (w : World) : (act >>= f) ctx w = f a ctx w := by
        rw [bind_apply, run]
        rfl
      simp only [onward]
      exact hf a (hr a rfl) ctx

theorem Steady.attempt {act : Eval α} (h : Steady P act) :
    Steady (fun r : Except Error α => ∀ a, r = .ok a → P a) act.attempt := by
  intro ctx
  rcases h ctx with run | ⟨r, hr, run⟩
  · refine .inl fun w => ?_
    rw [attempt_apply, run]
    rfl
  · refine .inr ⟨.ok r, fun r' hr' => ?_, fun w => ?_⟩
    · cases hr'
      exact hr
    · rw [attempt_apply, run]
      cases r <;> rfl

theorem Steady.holding {act : Eval α} (h : Steady P act) (places : List Place) :
    Steady P (holding places act) :=
  fun _ => h _

theorem steady_mapM {f : α → Eval β} {items : List α} (h : ∀ x ∈ items, Steady Q (f x)) :
    Steady (fun ys => ∀ y ∈ ys, Q y) (items.mapM f) := by
  induction items with
  | nil =>
    rw [List.mapM_nil]
    exact steady_pure fun _ hy => (List.not_mem_nil hy).elim
  | cons x xs ih =>
    rw [List.mapM_cons]
    refine (h x List.mem_cons_self).bind fun y hy => ?_
    refine (ih fun x hx => h x (List.mem_cons_of_mem _ hx)).bind fun ys hys => ?_
    exact steady_pure (List.forall_mem_cons.2 ⟨hy, hys⟩)

end Eval

namespace Value

open Eval

variable {v : Value}

/-! ## Fixing -/

theorem any_isLambda_eq_false {items : List Value} (h : ∀ x ∈ items, x.Plain) :
    items.any isLambda = false := by
  rw [List.any_eq_false]
  intro x hx
  simp [isLambda, (h x hx).lambda?_eq_none]

theorem steady_fixEach {fix : Value → Eval Value} {items done : List Value}
    (hfix : ∀ x ∈ items, Steady Plain (fix x)) (hdone : ∀ x ∈ done, x.Plain) :
    Steady (fun fixed => ∀ x ∈ fixed, x.Plain) (fixEach fix done items) := by
  induction items generalizing done with
  | nil => exact steady_pure fun x hx => hdone x (List.mem_reverse.1 hx)
  | cons item items ih =>
    refine (hfix item List.mem_cons_self).bind fun result hresult => Steady.holding ?_ _
    refine ih (fun x hx => hfix x (List.mem_cons_of_mem _ hx)) ?_
    exact List.forall_mem_cons.2 ⟨hresult, hdone⟩

theorem steady_fixItems {fix : Value → Eval Value} {items : List Value}
    (hitems : ∀ x ∈ items, x.Plain) (hfix : ∀ x ∈ items, Steady Plain (fix x)) :
    Steady (fun fixed => ∀ x ∈ fixed, x.Plain) (fixItems fix false items) := by
  have threshold : parallelThreshold items = pure 2 := by
    rw [parallelThreshold, any_isLambda_eq_false hitems]
    rfl
  have sequential : fixItems fix false items = fixEach fix [] items := by
    unfold fixItems
    rw [threshold]
    simp
  rw [sequential]
  exact steady_fixEach hfix fun _ hx => (List.not_mem_nil hx).elim

/-- A plain value is fixed to a plain one. -/
theorem steady_fixAt (budget depth : Nat) (h : v.Plain) :
    Steady Plain (fixAt budget depth false v) := by
  induction budget generalizing depth v with
  | zero =>
    cases depth with
    | zero => exact steady_pure h
    | succ depth => exact steady_exhausted
  | succ budget ih =>
    cases depth with
    | zero => exact steady_pure h
    | succ depth =>
      rw [fixAt, h.lambda?_eq_none]
      refine (steady_pure (P := fun b => b = true) rfl).bind fun fixable hfixable => ?_
      subst hfixable
      rw [onForced_of_lambda?_eq_none h.lambda?_eq_none]
      rw [if_neg (by decide)]
      by_cases hdepth : depth = 0
      · rw [if_pos hdepth]
        exact steady_pure h
      · rw [if_neg hdepth]
        obtain ⟨data, notes⟩ := v
        cases data with
        | list items =>
          have hitems := plain_list_iff.1 h
          refine (steady_fixItems hitems fun x hx => ih depth (hitems x hx)).bind fun fixed hfixed => ?_
          exact steady_pure (plain_list_iff.2 hfixed)
        | sequence items =>
          have hitems := plain_sequence_iff.1 h
          refine (steady_fixItems hitems fun x hx => ih depth (hitems x hx)).bind fun fixed hfixed => ?_
          exact steady_pure (plain_sequence_iff.2 hfixed)
        | map entries =>
          have hvalues : ∀ x ∈ Entries.values entries, x.Plain := by
            intro x hx
            obtain ⟨entry, hentry, rfl⟩ := List.mem_map.1 hx
            exact plain_map_iff.1 h entry hentry
          refine (steady_fixItems hvalues fun x hx => ih depth (hvalues x hx)).bind
            fun fixed hfixed => ?_
          refine steady_pure (plain_map_iff.2 fun entry hentry => ?_)
          exact hfixed _ (List.of_mem_zip hentry).2
        | range start stop =>
          obtain ⟨hstart, hstop⟩ := plain_range_iff.1 h
          refine (ih depth hstart).bind fun first hfirst => ?_
          refine ((ih depth hstop).holding _).bind fun last hlast => ?_
          exact steady_pure (plain_range_iff.2 ⟨hfirst, hlast⟩)
        | _ => exact steady_pure h

theorem steady_fixDeep (h : v.Plain) : Steady Plain (v.fixDeep false) :=
  steady_budget.bind fun budget _ => steady_fixAt budget maxDepth h

/-! ## Truth -/

theorem steady_truthyData {data : Data} {notes : Notes} (h : (mk data notes).Plain) :
    Steady (fun _ => True) (truthyData data) := by
  cases data with
  | queue id => cases h
  | _ => exact steady_pure trivial

theorem steady_attempt_forced (h : v.Plain) :
    Steady (fun r : Except Error Value => ∀ a, r = .ok a → a = v) v.forced.attempt := by
  rw [forced_of_lambda?_eq_none h.lambda?_eq_none]
  exact (steady_pure (P := fun a => a = v) rfl).attempt

theorem steady_truthy (h : v.Plain) : Steady (fun _ => True) v.truthy := by
  refine (steady_attempt_forced h).bind fun r hr => ?_
  cases r with
  | error e => exact steady_pure trivial
  | ok a =>
    cases hr a rfl
    obtain ⟨data, notes⟩ := v
    exact steady_truthyData h

theorem steady_isTrue (h : v.Plain) : Steady (fun _ => True) v.isTrue := by
  have error : Steady (fun _ => True) v.isNeitherTrueNorFalse := by
    refine (steady_attempt_forced h).bind fun r _ => ?_
    cases r <;> exact steady_pure trivial
  refine error.bind fun isError _ => ?_
  split
  · exact steady_pure trivial
  · exact steady_truthy h

theorem steady_numberMatches (h : v.Plain) (test : Number → Bool) :
    Steady (fun _ => True) (v.numberMatches test) := by
  refine (steady_attempt_forced h).bind fun r _ => ?_
  cases r <;> exact steady_pure trivial

/-! ## Texts -/

theorem steady_toTreeAt (depth : Nat) (h : v.Plain) :
    Steady (fun _ => True) (toTreeAt depth v) := by
  induction depth generalizing v with
  | zero => exact steady_exhausted
  | succ depth ih =>
    rw [toTreeAt, onForced_of_lambda?_eq_none h.lambda?_eq_none]
    obtain ⟨data, notes⟩ := v
    cases data with
    | list items =>
      refine (steady_mapM fun x hx => ih (plain_list_iff.1 h x hx)).bind fun _ _ => ?_
      exact steady_pure trivial
    | sequence items =>
      refine (steady_mapM fun x hx => ih (plain_sequence_iff.1 h x hx)).bind fun _ _ => ?_
      exact steady_pure trivial
    | map entries =>
      have member (entry : String × Value) (hentry : entry ∈ entries) :
          Steady (fun _ => True) (do return (entry.1, ← toTreeAt depth entry.2)) :=
        (ih (plain_map_iff.1 h entry hentry)).bind fun _ _ => steady_pure trivial
      refine (steady_mapM member).bind fun _ _ => ?_
      split <;> exact steady_pure trivial
    | range start stop =>
      obtain ⟨hstart, hstop⟩ := plain_range_iff.1 h
      refine (ih hstart).bind fun _ _ => (ih hstop).bind fun _ _ => ?_
      exact steady_pure trivial
    | queue id => cases h
    | null of => cases of <;> exact steady_pure trivial
    | decimal x =>
      dsimp only [data_mk]
      split <;> exact steady_pure trivial
    | _ => exact steady_pure trivial

theorem steady_toJson (h : v.Plain) : Steady (fun _ => True) v.toJson :=
  (steady_budget.bind fun budget _ => steady_toTreeAt budget h).bind fun _ _ => steady_pure trivial

theorem steady_jsonText (h : v.Plain) :
    Steady (fun _ => True) (do
      match ← v.toJson.attempt with
      | .ok text => return text
      | .error e => return e.describe) := by
  refine (steady_toJson h).attempt.bind fun r _ => ?_
  cases r <;> exact steady_pure trivial

theorem steady_humanAt (depth : Nat) (h : v.Plain) : Steady (fun _ => True) (humanAt depth v) := by
  induction depth generalizing v with
  | zero => exact steady_exhausted
  | succ depth ih =>
    have json := steady_jsonText h
    rw [humanAt, onAttempt_of_lambda?_eq_none h.lambda?_eq_none]
    obtain ⟨data, notes⟩ := v
    cases data with
    | list items => exact json
    | sequence items => exact json
    | map entries => exact json
    | queue id => cases h
    | range start stop =>
      obtain ⟨hstart, hstop⟩ := plain_range_iff.1 h
      refine (ih hstart).bind fun _ _ => (ih hstop).bind fun _ _ => ?_
      exact steady_pure trivial
    | _ => exact steady_pure trivial

theorem steady_human (h : v.Plain) : Steady (fun _ => True) v.human :=
  steady_budget.bind fun budget _ => steady_humanAt budget h

end Value

end Reactor
