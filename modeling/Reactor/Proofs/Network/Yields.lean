import Reactor.Proofs.Network.Plain

/-!
# Computations that end

`Outcome.Yields Q` says that a computation comes to an end at once, with a value or an error, and that
`Q` holds of what it gives and of the state in which it ends. It does not wait, break off its thread or
run out of budget. `Outcome.Leaves Q` says the same, but the computation may run out of budget, and
`Outcome.Ends sure Q` that it may do so only where it is not sure to end. There is one rule for each way in
which computations are put together.

`Context.Gives` says that a computation ends so on every thread that is not deeper than a given one.
-/

namespace Reactor

namespace Outcome

variable {α β : Type} {P Q : Except Error α → World → Prop} {R : Except Error β → World → Prop}

/-- A computation that has ended. -/
def done : Except Error α → World → Outcome α
  | .ok a, w => .value a w
  | .error e, w => .error e w

theorem done_inj {r r' : Except Error α} {w w' : World} (h : done r w = done r' w') :
    r = r' ∧ w = w' := by
  cases r <;> cases r' <;> cases h <;> exact ⟨rfl, rfl⟩

/-- The computation ends, and the condition holds of its result and of the state. -/
def Yields (Q : Except Error α → World → Prop) : Outcome α → Prop
  | value a w => Q (.ok a) w
  | error e w => Q (.error e) w
  | panic _ _ => False
  | waiting _ _ _ => False
  | exhausted => False

theorem yields_iff {x : Outcome α} : x.Yields Q ↔ ∃ r w, x = done r w ∧ Q r w := by
  constructor
  · intro h
    cases x with
    | value a w => exact ⟨.ok a, w, rfl, h⟩
    | error e w => exact ⟨.error e, w, rfl, h⟩
    | panic message w => exact h.elim
    | waiting on w resume => exact h.elim
    | exhausted => exact h.elim
  · rintro ⟨r, w, rfl, h⟩
    cases r with
    | ok a => exact h
    | error e => exact h

theorem Yields.mono {x : Outcome α} (h : x.Yields P) (hPQ : ∀ r w, P r w → Q r w) : x.Yields Q := by
  obtain ⟨r, w, rfl, hP⟩ := yields_iff.1 h
  exact yields_iff.2 ⟨r, w, rfl, hPQ r w hP⟩

theorem Yields.and {x : Outcome α} (h : x.Yields P) (h' : x.Yields Q) :
    x.Yields fun r w => P r w ∧ Q r w := by
  cases x with
  | value a w => exact ⟨h, h'⟩
  | error e w => exact ⟨h, h'⟩
  | panic message w => exact h
  | waiting on w resume => exact h
  | exhausted => exact h

theorem Yields.bind {x : Outcome α} {f : α → World → Outcome β} (h : x.Yields P)
    (hf : ∀ a w, P (.ok a) w → (f a w).Yields R) (he : ∀ e w, P (.error e) w → R (.error e) w) :
    (x.bind f).Yields R := by
  obtain ⟨r, w, rfl, hP⟩ := yields_iff.1 h
  cases r with
  | ok a => exact hf a w hP
  | error e => exact he e w hP

theorem Yields.attempt {x : Outcome α} (h : x.Yields P) :
    x.attempt.Yields fun r w => ∃ r', r = .ok r' ∧ P r' w := by
  obtain ⟨r, w, rfl, hP⟩ := yields_iff.1 h
  cases r with
  | ok a => exact ⟨.ok a, rfl, hP⟩
  | error e => exact ⟨.error e, rfl, hP⟩

/-- What is known of the only outcome that there is. -/
theorem Yields.of_done {r : Except Error α} {w : World} (h : (done r w).Yields Q) : Q r w := by
  cases r with
  | ok a => exact h
  | error e => exact h

/-- The computation runs out of budget, or it comes to an end at once, and the condition holds of its
result and of the state. -/
def Leaves (Q : Except Error α → World → Prop) (x : Outcome α) : Prop :=
  x = exhausted ∨ x.Yields Q

theorem Yields.leaves {x : Outcome α} (h : x.Yields Q) : x.Leaves Q :=
  .inr h

theorem Leaves.of_done {r : Except Error α} {w : World} (h : (done r w).Leaves Q) : Q r w := by
  rcases h with h | h
  · cases r <;> cases h
  · exact h.of_done

theorem Leaves.value {a : α} {w : World} (h : Q (.ok a) w) : (value a w).Leaves Q :=
  .inr h

theorem Leaves.error {e : Error} {w : World} (h : Q (.error e) w) : (error e w).Leaves Q :=
  .inr h

theorem Leaves.mono {x : Outcome α} (h : x.Leaves P) (hPQ : ∀ r w, P r w → Q r w) : x.Leaves Q :=
  h.imp_right fun h => h.mono hPQ

theorem Leaves.bind {x : Outcome α} {f : α → World → Outcome β} (h : x.Leaves P)
    (hf : ∀ a w, P (.ok a) w → (f a w).Leaves R) (he : ∀ e w, P (.error e) w → R (.error e) w) :
    (x.bind f).Leaves R := by
  rcases h with rfl | h
  · exact .inl rfl
  · obtain ⟨r, w, rfl, hP⟩ := yields_iff.1 h
    cases r with
    | ok a => exact hf a w hP
    | error e => exact .inr (he e w hP)

/-- The computation comes to an end at once, and the condition holds of its result and of the state; or it
runs out of budget, unless it is sure to end. -/
def Ends (sure : Prop) (Q : Except Error α → World → Prop) (x : Outcome α) : Prop :=
  (x = exhausted ∧ ¬sure) ∨ x.Yields Q

variable {sure other : Prop}

theorem Yields.ends {x : Outcome α} (h : x.Yields Q) : x.Ends sure Q :=
  .inr h

theorem Ends.yields {x : Outcome α} (h : x.Ends sure Q) (hsure : sure) : x.Yields Q :=
  h.resolve_left fun h => h.2 hsure

theorem Ends.leaves {x : Outcome α} (h : x.Ends sure Q) : x.Leaves Q :=
  h.imp_left And.left

theorem Leaves.ends {x : Outcome α} (h : x.Leaves Q) : x.Ends False Q :=
  h.imp_left fun h => ⟨h, id⟩

theorem Ends.mono {x : Outcome α} (h : x.Ends sure P) (hPQ : ∀ r w, P r w → Q r w) : x.Ends sure Q :=
  h.imp_right fun h => h.mono hPQ

/-- It is sure to end in fewer cases. -/
theorem Ends.weaken {x : Outcome α} (h : x.Ends sure Q) (hsure : other → sure) : x.Ends other Q :=
  h.imp_left fun h => ⟨h.1, fun ho => h.2 (hsure ho)⟩

theorem Ends.bind {x : Outcome α} {f : α → World → Outcome β} (h : x.Ends sure P)
    (hf : ∀ a w, P (.ok a) w → (f a w).Ends sure R) (he : ∀ e w, P (.error e) w → R (.error e) w) :
    (x.bind f).Ends sure R := by
  rcases h with ⟨rfl, hsure⟩ | h
  · exact .inl ⟨rfl, hsure⟩
  · obtain ⟨r, w, rfl, hP⟩ := yields_iff.1 h
    cases r with
    | ok a => exact hf a w hP
    | error e => exact .inr (he e w hP)

theorem Ends.attempt {x : Outcome α} (h : x.Ends sure P) :
    x.attempt.Ends sure fun r w => ∃ r', r = .ok r' ∧ P r' w := by
  rcases h with ⟨rfl, hsure⟩ | h
  · exact .inl ⟨rfl, hsure⟩
  · exact .inr h.attempt

end Outcome

/-! ## Computations -/

namespace Eval

variable {α β : Type} {P Q : Except Error α → World → Prop} {R : Except Error β → World → Prop}
  {act : Eval α} {ctx : Context} {w : World}

theorem yields_bind {f : α → Eval β} (h : (act ctx w).Yields P)
    (hf : ∀ a v, P (.ok a) v → (f a ctx v).Yields R)
    (he : ∀ e v, P (.error e) v → R (.error e) v) : ((act >>= f) ctx w).Yields R := by
  rw [bind_apply]
  exact h.bind hf he

/-- The work goes on whatever has become of the first part. -/
theorem yields_attempt {f : Except Error α → Eval β} (h : (act ctx w).Yields P)
    (hf : ∀ r v, P r v → (f r ctx v).Yields R) : ((act.attempt >>= f) ctx w).Yields R := by
  refine yields_bind h.attempt ?_ ?_
  · rintro r v ⟨r', hr, hP⟩
    cases hr
    exact hf r v hP
  · rintro e v ⟨r', hr, -⟩
    cases hr

/-- The budget may run out in any part. -/
theorem leaves_bind {f : α → Eval β} (h : (act ctx w).Leaves P)
    (hf : ∀ a v, P (.ok a) v → (f a ctx v).Leaves R)
    (he : ∀ e v, P (.error e) v → R (.error e) v) : ((act >>= f) ctx w).Leaves R := by
  rw [bind_apply]
  exact h.bind hf he

theorem yields_ofExcept {r : Except Error α} (h : Q r w) : (ofExcept r ctx w).Yields Q := by
  cases r with
  | ok a => exact h
  | error e => exact h

end Eval

/-! ## On every thread that is not deeper -/

/-- On every thread that is not deeper the computation ends, what is kept of the state is kept, and the
condition holds of the result; or it runs out of budget, unless it is sure to end. -/
def Context.Gives {α : Type} (ctx : Context) (kept : World → Prop) (sure : Prop)
    (Q : Except Error α → Prop) (act : Eval α) : Prop :=
  ∀ ⦃thread : Thread⦄, thread.depth ≤ ctx.thread.depth → ∀ ⦃w : World⦄, kept w →
    (act { ctx with thread } w).Ends sure fun r v => kept v ∧ Q r

namespace Context

variable {α β : Type} {ctx : Context} {kept : World → Prop} {sure other : Prop}
  {P Q : Except Error α → Prop} {R : Except Error β → Prop} {act : Eval α}

/-- So it does on the thread itself. -/
theorem Gives.here (h : ctx.Gives kept sure Q act) {w : World} (hw : kept w) :
    (act ctx w).Ends sure fun r v => kept v ∧ Q r :=
  @h ctx.thread (Nat.le_refl _) w hw

theorem gives_pure {a : α} (h : Q (.ok a)) : ctx.Gives kept sure Q (pure a) :=
  fun _ _ _ hw => .inr ⟨hw, h⟩

theorem gives_fail {e : Error} (h : Q (.error e)) : ctx.Gives kept sure Q (Eval.fail e) :=
  fun _ _ _ hw => .inr ⟨hw, h⟩

theorem gives_exhausted (h : ¬sure) : ctx.Gives kept sure Q Eval.exhausted :=
  fun _ _ _ _ => .inl ⟨rfl, h⟩

theorem gives_budget {f : Nat → Eval α} (h : ctx.Gives kept sure Q (f ctx.budget)) :
    ctx.Gives kept sure Q (Eval.budget >>= f) := by
  intro thread ht w hw
  rw [Eval.bind_apply, Eval.budget_apply, Outcome.bind_value]
  exact h ht hw

theorem gives_gets {f : World → α} (h : ∀ w, kept w → Q (.ok (f w))) :
    ctx.Gives kept sure Q (Eval.gets f) :=
  fun _ _ w hw => .inr ⟨hw, h w hw⟩

theorem Gives.mono (h : ctx.Gives kept sure P act) (hPQ : ∀ r, P r → Q r) : ctx.Gives kept sure Q act :=
  fun _ ht _ hw => (h ht hw).mono fun r _ h => ⟨h.1, hPQ r h.2⟩

theorem Gives.weaken (h : ctx.Gives kept sure Q act) (hsure : other → sure) :
    ctx.Gives kept other Q act :=
  fun _ ht _ hw => (h ht hw).weaken hsure

theorem Gives.bind {f : α → Eval β} (h : ctx.Gives kept sure P act)
    (hf : ∀ a, P (.ok a) → ctx.Gives kept sure R (f a)) (he : ∀ e, P (.error e) → R (.error e)) :
    ctx.Gives kept sure R (act >>= f) := by
  intro thread ht w hw
  rw [Eval.bind_apply]
  exact (h ht hw).bind (fun a _ h => hf a h.2 ht h.1) fun e _ h => ⟨h.1, he e h.2⟩

/-- What comes after a computation that surely gives a value. -/
theorem Gives.bindOk {p : α → Prop} {f : α → Eval β}
    (h : ctx.Gives kept sure (fun r => ∃ a, r = .ok a ∧ p a) act)
    (hf : ∀ a, p a → ctx.Gives kept sure R (f a)) : ctx.Gives kept sure R (act >>= f) := by
  refine h.bind ?_ ?_
  · rintro a ⟨_, ⟨⟩, ha⟩
    exact hf a ha
  · rintro e ⟨_, ⟨⟩, -⟩

/-- What is read is the same in all states that may be met. -/
theorem gives_gets_eq {f : World → α} {a : α} (h : ∀ w, kept w → f w = a) :
    ctx.Gives kept sure (fun r => ∃ b, r = .ok b ∧ b = a) (Eval.gets f) :=
  gives_gets fun w hw => ⟨_, rfl, h w hw⟩

theorem Gives.attempt {f : Except Error α → Eval β} (h : ctx.Gives kept sure P act)
    (hf : ∀ r, P r → ctx.Gives kept sure R (f r)) : ctx.Gives kept sure R (act.attempt >>= f) := by
  intro thread ht w hw
  rw [Eval.bind_apply]
  refine (h ht hw).attempt.bind ?_ ?_
  · rintro r v ⟨r', hr, hv, hP⟩
    cases hr
    exact hf r hP ht hv
  · rintro e v ⟨r', hr, -⟩
    cases hr

theorem Gives.holding (h : ctx.Gives kept sure Q act) (places : List Place) :
    ctx.Gives kept sure Q (Eval.holding places act) :=
  fun thread ht w hw => @h { thread with held := places ++ thread.held } ht w hw

end Context

end Reactor
