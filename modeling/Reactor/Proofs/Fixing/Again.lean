import Reactor.Proofs.Fixing.Course

/-!
# Fixing to a depth, and fixing again

Of a value of which the first layers are fixed, every lambda in these layers that can be fixed is replaced by
what its force has given, and nothing else has been forced (`Value.fixing_is_layered`). A value that is fixed
throughout has no such lambda left. To fix it again, to any depth and in whatever context, gives it back and
starts no computation (`Value.rests_fixAt`).
-/

namespace Reactor

/-- The computation gives a certain value, and does nothing but take threads of the pool, in every state in which
some lambdas cannot be fixed. Since it does so in whatever context, it starts nothing that the context would
run. -/
def Eval.Rests {α : Type} (stays : LambdaId → Prop) (act : Eval α) (a : α) : Prop :=
  ∀ (ctx : Context) (w : World), (∀ id, stays id → w.Unfixable id) →
    ∃ threads, act ctx w = .value a { w with threads }

namespace Eval

variable {α β : Type} {stays : LambdaId → Prop} {act : Eval α} {a : α} {b : β}

theorem rests_pure (a : α) : Rests stays (pure a) a :=
  fun _ w _ => ⟨w.threads, rfl⟩

theorem Rests.bind {f : α → Eval β} (h : Rests stays act a) (hf : Rests stays (f a) b) :
    Rests stays (act >>= f) b := by
  intro ctx w hw
  obtain ⟨threads, first⟩ := h ctx w hw
  obtain ⟨more, second⟩ := hf ctx { w with threads } hw
  refine ⟨more, ?_⟩
  rw [bind_apply, first, Outcome.bind_value, second]

theorem Rests.attempt (h : Rests stays act a) : Rests stays act.attempt (.ok a) := by
  intro ctx w hw
  obtain ⟨threads, run⟩ := h ctx w hw
  refine ⟨threads, ?_⟩
  rw [attempt_apply, run, Outcome.attempt_value]

theorem Rests.holding (h : Rests stays act a) (places : List Place) :
    Rests stays (Eval.holding places act) a :=
  fun _ w hw => h _ w hw

theorem Rests.onPool (h : Rests stays act a) : Rests stays (Value.onPool act) a := by
  intro ctx w hw
  unfold Value.onPool
  rw [bind_apply, thread_apply, Outcome.bind_value]
  split
  · exact h ctx w hw
  · rw [bind_apply, modifyGet_apply, Outcome.bind_value]
    exact h _ { w with threads := w.threads + 1 } hw

end Eval

namespace Value

open Eval

variable {stays : LambdaId → Prop} {fix : Value → Eval Value} {items : List Value} {v r : Value}
  {budget budget' : Nat}

section Items

variable (h : ∀ x ∈ items, Rests stays (fix x) x)
include h

theorem rests_fixEach (done : List Value) : Rests stays (fixEach fix done items) (done.reverse ++ items) := by
  induction items generalizing done with
  | nil =>
    rw [List.append_nil]
    exact rests_pure _
  | cons item items ih =>
    unfold fixEach
    have rest := ih (fun x hx => h x (List.mem_cons_of_mem _ hx)) (item :: done)
    rw [List.reverse_cons, List.append_assoc, List.singleton_append] at rest
    exact (h item List.mem_cons_self).bind (rest.holding _)

theorem rests_fixAll (done : List Value) :
    Rests stays (fixAll (fun x => onPool (fix x)) done none items) (done.reverse ++ items) := by
  induction items generalizing done with
  | nil =>
    rw [List.append_nil]
    exact rests_pure _
  | cons item items ih =>
    unfold fixAll
    have rest := ih (fun x hx => h x (List.mem_cons_of_mem _ hx)) (item :: done)
    rw [List.reverse_cons, List.append_assoc, List.singleton_append] at rest
    exact (h item List.mem_cons_self).onPool.attempt.bind (rest.holding _)

theorem rests_fixItems (parallel : Bool) : Rests stays (fixItems fix parallel items) items := by
  intro ctx w hw
  obtain ⟨n, threshold⟩ : ∃ n, parallelThreshold items ctx w = .value n w := by
    unfold parallelThreshold
    split
    · exact ⟨_, rfl⟩
    · exact ⟨_, rfl⟩
  unfold fixItems
  rw [bind_apply, threshold, Outcome.bind_value]
  split
  · exact rests_fixAll h [] ctx w hw
  · exact rests_fixEach h [] ctx w hw

end Items

/-- A collection without a mark is given back if its elements are. -/
theorem rests_fixParts (hmark : v.isCollection = true → v.notes.mark = 0)
    (h : ∀ x ∈ v.elements, Rests stays (fix x) x) (depth : Nat) (parallel : Bool) :
    Rests stays (v.fixParts fix depth parallel) v := by
  unfold fixParts
  split
  · exact rests_pure v
  obtain ⟨data, errors, tags, mark⟩ := v
  cases data with
  | list items =>
    obtain rfl : mark = 0 := hmark rfl
    exact (rests_fixItems h parallel).bind (rests_pure _)
  | sequence items =>
    obtain rfl : mark = 0 := hmark rfl
    exact (rests_fixItems h parallel).bind (rests_pure _)
  | map entries =>
    obtain rfl : mark = 0 := hmark rfl
    refine (rests_fixItems h parallel).bind ?_
    have same : (Entries.keys entries).zip (Entries.values entries) = entries :=
      (List.zip_of_prod rfl rfl).symm
    show Rests stays (pure (Value.mk (.map ((Entries.keys entries).zip (Entries.values entries)))
      { errors, tags })) _
    rw [same]
    exact rests_pure _
  | range start stop =>
    obtain rfl : mark = 0 := hmark rfl
    refine (h start List.mem_cons_self).bind ?_
    refine ((h stop (List.mem_cons_of_mem _ List.mem_cons_self)).holding _).bind ?_
    exact rests_pure _
  | _ => exact rests_pure _

/-- A value without lambdas that could be fixed is given back, to whatever depth it is fixed. -/
theorem rests_fixAt (hclear : v.Clear stays budget) (hmade : v.Made budget) (hle : budget ≤ budget')
    (depth : Nat) (parallel : Bool) : Rests stays (v.fixAt budget' depth parallel) v := by
  induction budget generalizing v budget' depth with
  | zero => exact hmade.elim
  | succ budget ih =>
    obtain ⟨budget', rfl⟩ : ∃ b, budget' = b + 1 := ⟨budget' - 1, by omega⟩
    cases depth with
    | zero => exact rests_pure v
    | succ depth =>
      have elements (x : Value) (hx : x ∈ v.elements) :
          Rests stays (x.fixAt budget' depth parallel) x :=
        ih (hclear.2 x hx) (hmade.2 x hx) (by omega) depth
      rw [fixAt_succ]
      cases hl : v.lambda? with
      | none =>
        rw [onForced_of_lambda?_eq_none hl]
        exact rests_fixParts hmade.1 elements depth parallel
      | some id =>
        intro ctx w hw
        have unfixable : (w.lambdaAt id).fixable = false := hw id (hclear.1 id hl)
        refine ⟨w.threads, ?_⟩
        simp [unfixable]

/-! ## Fixing by the machine -/

variable {between : World → World → Prop} {u w : World} {depth : Nat} {thread : Thread} {parallel : Bool}

/-- What a fixed value tells of the meetings on the way, and what is left in its first layers. -/
theorem fixDepth_course (hw : w.KeepsSettled) (hb : Discipline.settling.Spares between)
    (run : (v.fixDepth depth parallel (.ofBudget budget thread) w).Reaches between (.value r u)) :
    (∃ met, FixedTo depth met v r ∧ (Context.ofBudget budget thread).Course between met w u) ∧
      r.Clear u.Unfixable depth ∧ (budget < depth → r.Made budget) := by
  have hbudget : (Context.ofBudget budget thread).budget = budget := by
    rw [Context.ofBudget_eq_machine, Context.budget_machine]
  unfold fixDepth at run
  rw [Eval.bind_apply, Eval.budget_apply, Outcome.bind_value, hbudget] at run
  have traces := @Context.traces_fixAt (.ofBudget budget thread) between budget depth parallel v
  obtain ⟨met, ⟨hfixed, hmade⟩, course⟩ := @traces.course (Context.ofBudget budget thread).thread _ _ _ run
  obtain ⟨-, -, hmet⟩ :=
    course.settled (Discipline.admits_ofBudget Discipline.hosts_settling budget thread) hb hw
  exact ⟨⟨met, hfixed, course⟩, hfixed.clear hmet.forced hmet.spared, hmade⟩

/-- If a value is fixed to a depth, in its first layers every deferred value is replaced by what its lambda gives,
unless that cannot be fixed; the layers are otherwise the same, and what lies below them is left as it was. Only
those lambdas are forced that stand in these layers, in order, and none that could be fixed is left there.
If a value is fixed throughout, none is left at any depth, and from then on it is given back wherever it is
fixed, and nothing is computed. -/
theorem fixing_is_layered (hw : w.KeepsSettled) (hb : Discipline.settling.Spares between) (v : Value)
    (parallel : Bool) :
    (∀ depth r u, (v.fixDepth depth parallel (.ofBudget budget thread) w).Reaches between (.value r u) →
      (∃ met, FixedTo depth met v r ∧ (Context.ofBudget budget thread).Course between met w u) ∧
        r.Clear u.Unfixable depth) ∧
    (budget < maxDepth → ∀ r u,
      (v.fixDeep parallel (.ofBudget budget thread) w).Reaches between (.value r u) →
        (∀ depth, r.Clear u.Unfixable depth) ∧
        ∀ (later : World) (depth : Nat) (parallel : Bool) (ctx : Context), u.StaysUnfixable later →
          budget ≤ ctx.budget →
            ∃ threads, r.fixDepth depth parallel ctx later = .value r { later with threads }) := by
  constructor
  · intro depth r u run
    obtain ⟨course, clear, -⟩ := fixDepth_course hw hb run
    exact ⟨course, clear⟩
  · intro hbudget r u run
    obtain ⟨-, clear, hmade⟩ := fixDepth_course hw hb run
    have made := hmade hbudget
    have deep := clear.deep made (Nat.le_of_lt hbudget)
    refine ⟨deep, fun later depth parallel ctx hlater hctx => ?_⟩
    exact rests_fixAt (deep budget) made hctx depth parallel ctx later hlater

end Value

/-- A lambda that cannot be fixed, a number, and a list of the number. -/
def World.ofLayers : World :=
  let lambda (operation : String) (body : Expr) (fixable : Bool) : LambdaRecord :=
    { operation, source := Segment.whole operation, scope := ⟨0⟩, inputs := [], body := .script body
      fixable }
  { scopes := #[{ name := "root", parent := none, source := default, pure := false }]
    lambdas := #[lambda "handler" (.integer 0) false, lambda "number" (.integer 1) true,
      lambda "list" (.nest 1 (.register "number")) true]
    desk := { registers := [("number", .lambda ⟨1⟩)] } }

theorem World.keepsSettled_ofLayers : World.ofLayers.KeepsSettled := by
  intro id v hv
  match id with
  | ⟨0⟩ => cases hv
  | ⟨1⟩ => cases hv
  | ⟨2⟩ => cases hv
  | ⟨_ + 3⟩ => cases hv

/-- The first two layers hold a list that still has its number to be computed. All layers hold none but the lambda
that cannot be fixed. -/
theorem Value.fixing_is_layered_ofLayers :
    let v := Value.list [.lambda ⟨2⟩, .lambda ⟨0⟩]
    (∃ r u, v.fixDepth 2 true (.ofBudget 8 { id := 0 }) .ofLayers = .value r u ∧
      r.elements.map (·.elements.map isLambda) = [[true], []] ∧ r.Clear u.Unfixable 2) ∧
    ∃ r u, v.fixDeep true (.ofBudget 8 { id := 0 }) .ofLayers = .value r u ∧
      r.elements.map (·.elements.map isLambda) = [[false], []] ∧
      ∃ threads, r.fixDepth 3 false (.ofBudget 8 { id := 0 }) u = .value r { u with threads } := by
  have layered := @fixing_is_layered 8 (fun _ _ => False) .ofLayers { id := 0 }
    World.keepsSettled_ofLayers (fun _ h => h.elim) (.list [.lambda ⟨2⟩, .lambda ⟨0⟩]) true
  refine ⟨⟨_, _, rfl, rfl, ?_⟩, _, _, rfl, rfl, ?_⟩
  · exact (layered.1 2 _ _ .value).2
  · exact (layered.2 (by decide) _ _ .value).2 _ 3 false _ (fun _ h => h) (Nat.le_refl 8)

end Reactor
