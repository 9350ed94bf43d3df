import Reactor.Proofs.Advice
import Reactor.Proofs.Variables.Invariant

/-!
# The end of a computation

A computation that waits goes on in whatever state others have brought about. `Outcome.Reaches between`
says how a computation can end if others change the state by `between` while it waits. A sequence of
computations ends as its first part does, or goes on from there (`Outcome.reaches_bind_iff`).
-/

namespace Reactor.Outcome

variable {α β : Type} {between : World → World → Prop}

/-- A computation can end in this way. It ends with a value or a failure, or it breaks off, or it
exhausts its budget. -/
inductive Reaches (between : World → World → Prop) : Outcome α → Outcome α → Prop
  | value {a : α} {w : World} : Reaches between (.value a w) (.value a w)
  | error {e : Error} {w : World} : Reaches between (.error e w) (.error e w)
  | panic {message : Option String} {w : World} :
    Reaches between (.panic message w) (.panic message w)
  | exhausted : Reaches between .exhausted .exhausted
  | waiting {on : Wait} {u v : World} {resume : World → Outcome α} {y : Outcome α}
    (h : between u v) (h' : Reaches between (resume v) y) :
    Reaches between (.waiting on u resume) y

@[simp] theorem reaches_value_iff {a : α} {w : World} {y : Outcome α} :
    (value a w).Reaches between y ↔ y = value a w :=
  ⟨fun h => by cases h; rfl, fun h => by subst h; exact .value⟩

@[simp] theorem reaches_error_iff {e : Error} {w : World} {y : Outcome α} :
    (error e w).Reaches between y ↔ y = error e w :=
  ⟨fun h => by cases h; rfl, fun h => by subst h; exact .error⟩

@[simp] theorem reaches_panic_iff {message : Option String} {w : World} {y : Outcome α} :
    (panic message w).Reaches between y ↔ y = panic message w :=
  ⟨fun h => by cases h; rfl, fun h => by subst h; exact .panic⟩

@[simp] theorem reaches_exhausted_iff {y : Outcome α} :
    (exhausted : Outcome α).Reaches between y ↔ y = exhausted :=
  ⟨fun h => by cases h; rfl, fun h => by subst h; exact .exhausted⟩

/-- Nothing ends by waiting. -/
theorem not_reaches_waiting {x : Outcome α} {on : Wait} {w : World} {resume : World → Outcome α} :
    ¬ x.Reaches between (.waiting on w resume) := by
  intro h
  generalize hy : Outcome.waiting on w resume = y at h
  induction h with
  | waiting _ _ ih => exact ih hy
  | _ => cases hy

/-- A sequence of computations goes on from the end of the first one. -/
theorem reaches_bind_iff {x : Outcome α} {f : α → World → Outcome β} {y : Outcome β} :
    (x.bind f).Reaches between y ↔ ∃ x', x.Reaches between x' ∧ (x'.bind f).Reaches between y := by
  constructor
  · intro h
    induction x with
    | value a w => exact ⟨_, .value, h⟩
    | error e w => exact ⟨_, .error, h⟩
    | panic message w => exact ⟨_, .panic, h⟩
    | exhausted => exact ⟨_, .exhausted, h⟩
    | waiting on u resume ih =>
      cases h with
      | waiting hb h =>
        obtain ⟨x', hx, h⟩ := ih _ h
        exact ⟨x', .waiting hb hx, h⟩
  · rintro ⟨x', hx, h⟩
    induction hx with
    | waiting hb _ ih => exact .waiting hb (ih h)
    | _ => exact h

/-- A computation whose failures are values ends as the computation does. -/
theorem reaches_attempt_iff {x : Outcome α} {y : Outcome (Except Error α)} :
    x.attempt.Reaches between y ↔ ∃ x', x.Reaches between x' ∧ y = x'.attempt := by
  constructor
  · intro h
    induction x with
    | value a w => exact ⟨_, .value, reaches_value_iff.1 h⟩
    | error e w => exact ⟨_, .error, reaches_value_iff.1 h⟩
    | panic message w => exact ⟨_, .panic, reaches_panic_iff.1 h⟩
    | exhausted => exact ⟨_, .exhausted, reaches_exhausted_iff.1 h⟩
    | waiting on u resume ih =>
      cases h with
      | waiting hb h =>
        obtain ⟨x', hx, h⟩ := ih _ h
        exact ⟨x', .waiting hb hx, h⟩
  · rintro ⟨x', hx, h⟩
    induction hx with
    | value => exact reaches_value_iff.2 h
    | error => exact reaches_value_iff.2 h
    | panic => exact reaches_panic_iff.2 h
    | exhausted => exact reaches_exhausted_iff.2 h
    | waiting hb _ ih => exact .waiting hb (ih h)

end Reactor.Outcome
