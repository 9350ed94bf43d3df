import Reactor.Proofs.Chains.Run

/-!
# The recursion bound is exact

A chain whose members have not been computed yet takes one level for each member. If the runtime fails fast,
the force of the first one gives the value of the chain as long as that many levels are left, and fails
otherwise (`Chain.bound_is_exact`).

* `Chain.refused_of_length_lt` : the member for which no level is left is refused, each one in front of it
  fails for that reason, and nobody keeps anything.
* `World.Holding.force_beyond` : beyond the limit the first member is refused at once.
-/

namespace Reactor

/-- The error tells of one that has been raised, wherever it has passed since. -/
def Error.TellsOf (e raised : Error) : Prop :=
  e.kind = raised.kind ∧ e.message = raised.message

/-- The result is the failure that an evaluation raises which would be one too many. -/
def Chain.Refused (depth limit : Nat) (result : Except Error Value) : Prop :=
  ∃ e, result = .error e ∧ e.TellsOf (.excessiveRecursion depth limit)

namespace Chain

variable {u w : World} {need : Nat} {chain rest : List Link} {link : Link} {kept : Kept}
  {thread : Thread} {budget room limit depth : Nat} {result : Except Error Value}

/-- The failure of a member stays what it is when it passes the member in front of it. -/
theorem Refused.passes (h : Refused depth limit result) (source : Segment) :
    Refused depth limit (answerOf true source result) := by
  obtain ⟨e, rfl, hkind, hmessage⟩ := h
  refine ⟨e.addSource source, ?_, ?_, ?_⟩
  · simp [answerOf, unhandled]
  · rw [Error.addSource_kind, hkind]
  · rw [Error.addSource_message, hmessage]

theorem refused_raised (depth limit : Nat) : Refused depth limit (.error (.excessiveRecursion depth limit)) :=
  ⟨_, rfl, rfl, rfl⟩

/-- A member that fails keeps nothing. -/
theorem Refused.given_snd (h : Refused depth limit result) (id : LambdaId) :
    (given kept id result).2 = kept := by
  obtain ⟨e, rfl, -⟩ := h
  rfl

/-- A chain that is longer than the levels that are left fails, and nobody keeps anything. -/
theorem refused_of_length_lt (hnone : ∀ id, kept id = none) (hroom : room < chain.length) :
    Refused (limit + 1) limit (outcome true limit chain room kept).1 ∧
      (outcome true limit chain room kept).2 = kept := by
  induction chain generalizing room with
  | nil => simp at hroom
  | cons link rest ih =>
    cases room with
    | zero =>
      have refused := (refused_raised (limit + 1) limit).passes link.source
      rw [outcome_refusal (hnone link.id)]
      exact ⟨refused, refused.given_snd link.id⟩
    | succ room =>
      obtain ⟨⟨e, he, hraised⟩, hkept⟩ := ih (Nat.lt_of_succ_lt_succ hroom)
      have refused : Refused (limit + 1) limit (answerOf true link.source
          ((outcome true limit rest room kept).1.bind link.compute)) := by
        rw [he]
        exact Refused.passes ⟨e, rfl, hraised⟩ link.source
      rw [outcome_computed (hnone link.id), hkept]
      exact ⟨refused, refused.given_snd link.id⟩

/-- The chain has come to its value, or it has been refused as one evaluation too many and none of its members
keeps anything. -/
structure Bounded (chain : List Link) (m d : Nat) (result : Except Error Value) (v : World) : Prop where
  within : d + chain.length ≤ m → Answers result (real true chain)
  beyond : m < d + chain.length → Refused (max m d + 1) m result ∧
    ∀ link ∈ chain, (v.lambdaAt link.id).cache = .empty

/-- Forces the first member, and tells how many evaluations are open on the thread afterwards. -/
def firstThenDepth (chain : List Link) : Eval (Except Error Value × Nat) := do
  let result ← (first chain).attempt
  let thread ← Eval.thread
  return (result, thread.depth)

theorem Refused.of_answers {answer : Except Error Value} (h : Refused depth limit answer)
    (hresult : Answers result answer) : Refused depth limit result := by
  obtain ⟨e, rfl, hraised⟩ := h
  cases result with
  | ok v => exact nomatch hresult.same
  | error e' =>
    have same : e' = e := Except.error.inj hresult.same
    exact ⟨e', rfl, same ▸ hraised⟩

/-- What is kept nowhere is not cached. -/
theorem empty_of_holding (h : u.Holding chain (fun _ => none) w) :
    ∀ link ∈ chain, (w.lambdaAt link.id).cache = .empty :=
  fun _ hlink => h.stands (List.mem_map_of_mem hlink)

/-- The force of the first member is bounded as soon as a level is left on the thread. -/
theorem first_bounded (hchain : w.Chained need chain) (hd : Distinct chain)
    (hfast : w.config.failFast = true) (hdepth : thread.depth ≤ w.config.maxDepth)
    (hneed : 2 * chain.length + need ≤ budget) (hfresh : w.Holding chain (fun _ => none) w) :
    (first chain (.machine LambdaId.force budget thread) w).Yields
      (Bounded chain w.config.maxDepth thread.depth) := by
  obtain ⟨room, hroom⟩ := Nat.exists_eq_add_of_le hdepth
  have forced := first_yields hchain hd (List.suffix_refl _) hroom.symm hneed hfresh
  rw [hfast] at forced
  refine forced.mono fun result v h => ?_
  obtain ⟨hv, hresult⟩ := h
  constructor
  · intro hle
    have hlength : chain.length ≤ room := by omega
    have sound : Sound true chain fun _ => none := fun _ hkept => nomatch hkept
    rwa [(outcome_real hd sound hlength).1] at hresult
  · intro hlt
    have hlength : room < chain.length := by omega
    obtain ⟨refused, hkept⟩ : Refused (w.config.maxDepth + 1) w.config.maxDepth
          (outcome true w.config.maxDepth chain room fun _ => none).1 ∧
        (outcome true w.config.maxDepth chain room fun _ => none).2 = fun _ => none :=
      refused_of_length_lt (fun _ => rfl) hlength
    rw [hkept] at hv
    rw [Nat.max_eq_left hdepth]
    exact ⟨refused.of_answers hresult, empty_of_holding hv⟩

/-- If no level is left, the first member is refused at the level that would be next. -/
theorem first_bounded_of_le (hchain : w.Chained need chain) (hd : Distinct chain) (hne : chain ≠ [])
    (hfast : w.config.failFast = true) (hdepth : w.config.maxDepth ≤ thread.depth)
    (hneed : 2 * chain.length + need ≤ budget) (hfresh : w.Holding chain (fun _ => none) w) :
    (first chain (.machine LambdaId.force budget thread) w).Yields
      (Bounded chain w.config.maxDepth thread.depth) := by
  cases hchain with
  | nil => exact absurd rfl hne
  | @cons link rest hlink _ =>
    obtain ⟨budget, rfl⟩ : ∃ b, budget = b + 1 := by
      refine ⟨budget - 1, ?_⟩
      rw [List.length_cons] at hneed
      omega
    have refused := (refused_raised (thread.depth + 1) w.config.maxDepth).passes link.source
    have forced := hfresh.force_refused budget hlink hd hdepth rfl
    rw [hfast] at forced
    refine forced.mono fun result v h => ?_
    obtain ⟨hv, hresult⟩ := h
    constructor
    · intro hle
      rw [List.length_cons] at hle
      omega
    · intro _
      obtain ⟨e, he, -⟩ := id refused
      rw [he] at hv
      rw [Nat.max_eq_right hdepth]
      exact ⟨refused.of_answers hresult, empty_of_holding hv⟩

/-- If the runtime fails fast and nobody handles errors, the force of a chain of which nothing has been
computed yet gives its value as long as its members fit between the evaluations that are open and the limit.
Otherwise it fails with what the first evaluation beyond the limit raises, and no member keeps anything.
Either way as many evaluations are open afterwards as before. -/
theorem bound_is_exact (hchain : w.Chained need chain) (hd : Distinct chain) (hne : chain ≠ [])
    (hfresh : ∀ link ∈ chain, (w.lambdaAt link.id).cache = .empty) (hfast : w.config.failFast = true)
    (hneed : 2 * chain.length + need ≤ budget) :
    (firstThenDepth chain (.ofBudget budget thread) w).Yields fun r v => ∃ result,
      r = .ok (result, thread.depth) ∧ Bounded chain w.config.maxDepth thread.depth result v := by
  have fresh := World.holding_of_fresh hfresh
  have bounded : (first chain (.machine LambdaId.force budget thread) w).Yields
      (Bounded chain w.config.maxDepth thread.depth) := by
    by_cases hdepth : thread.depth ≤ w.config.maxDepth
    · exact first_bounded hchain hd hfast hdepth hneed fresh
    · exact first_bounded_of_le hchain hd hne hfast (by omega) hneed fresh
  rw [Context.ofBudget_eq_machine]
  unfold firstThenDepth
  refine Eval.yields_attempt bounded ?_
  intro result v hresult
  refine ⟨result, ?_, hresult⟩
  simp

end Chain

/-- The same state under a runtime that fails fast. -/
def World.failingFast (w : World) : World :=
  { w with config := { w.config with failFast := true } }

theorem World.Chained.failingFast {w : World} {need : Nat} {chain : List Link} (h : w.Chained need chain) :
    w.failingFast.Chained need chain := by
  induction h with
  | nil => exact .nil
  | cons h _ ih =>
    refine .cons ⟨h.lt, h.fixable, h.source, h.script, ?_⟩ ih
    rw [World.ancestors_congr (w := w) (v := w.failingFast) rfl]
    exact h.unhandled

/-- Two levels are enough for the two lower lambdas of `World.ofChain`. They are too few for all three, and when
five are open already nothing is computed. -/
theorem Chain.bound_is_exact_for_three :
    ((firstThenDepth (three.drop 1) (.ofBudget 6 { id := 0 }) World.ofChain.failingFast).Yields fun r _ =>
      ∃ result, r = .ok (result, 0) ∧ Answers result (.ok ((Value.integer 1).nested 1))) ∧
    ((firstThenDepth three (.ofBudget 6 { id := 0 }) World.ofChain.failingFast).Yields fun r v =>
      ∃ result, r = .ok (result, 0) ∧ Refused 3 2 result ∧
        ∀ link ∈ three, (v.lambdaAt link.id).cache = .empty) ∧
    (firstThenDepth three (.ofBudget 6 { id := 0, depth := 5 }) World.ofChain.failingFast).Yields fun r _ =>
      ∃ result, r = .ok (result, 5) ∧ Refused 6 2 result := by
  have chained := World.chained_ofChain.failingFast
  have lower := @bound_is_exact World.ofChain.failingFast 0 (three.drop 1) { id := 0 } 6
    (chained.of_suffix (List.drop_suffix _ _)) (by decide) (by simp [three])
    (fun link hlink => fresh_three link (List.drop_subset _ _ hlink)) rfl (by decide)
  have upper := @bound_is_exact World.ofChain.failingFast 0 three { id := 0 } 6 chained
    (by decide) (by simp [three]) fresh_three rfl (by decide)
  have beyond := @bound_is_exact World.ofChain.failingFast 0 three { id := 0, depth := 5 } 6 chained
    (by decide) (by simp [three]) fresh_three rfl (by decide)
  refine ⟨lower.mono ?_, upper.mono ?_, beyond.mono ?_⟩
  · rintro r v ⟨result, hr, bounded⟩
    exact ⟨result, hr, bounded.within (by decide)⟩
  · rintro r v ⟨result, hr, bounded⟩
    exact ⟨result, hr, bounded.beyond (by decide)⟩
  · rintro r v ⟨result, hr, bounded⟩
    exact ⟨result, hr, (bounded.beyond (by decide)).1⟩

end Reactor
