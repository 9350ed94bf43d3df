import Reactor.Proofs.Chains.Force

/-!
# What a chain gives when its members are forced in any order

A member that has been computed within the recursion limit gives its real result, whatever has been forced
before, as long as no refusal has been kept (`Chain.forces_real`). No refusal is ever kept if the runtime
fails fast, nor if every member that is forced has a chain within the limit. Otherwise the member that the
limit refuses keeps the refusal, and gives it from then on even to those who force it alone
(`Chain.refusal_kept`).

`Expr.applies_forced` and the lemmas beside it give scripts of which chains are made.
-/

namespace Reactor

/-! ## Scripts -/

namespace Value

theorem unmark_nested (v : Value) (n : Nat) : (v.nested n).unmark = v.unmark.nested n := by
  induction n with
  | zero => rfl
  | succ n ih =>
    rw [nested_succ, nested_succ, ← ih]
    rfl

theorem Plain.nested {v : Value} (h : v.Plain) (n : Nat) : (v.nested n).Plain := by
  induction n with
  | zero => exact h
  | succ n ih => exact plain_list_iff.2 fun x hx => by rwa [List.mem_singleton.1 hx]

theorem overlaid_lambda (n : Nat) (id : LambdaId) (result : Value) :
    (markFrom n (.lambda id)).1.overlaid result = result :=
  rfl

end Value

/-- A result is marked before it is given. -/
theorem Answers.share {v : Value} {answer : Except Error Value} (h : Answers (.ok v) answer) (n : Nat) :
    Answers (.ok (Value.markFrom n v).1) answer := by
  have same := Value.unmark_markFrom n v
  refine ⟨(congrArg Except.ok same).trans h.same, fun hx => ?_⟩
  cases hx
  exact (h.plain rfl).of_unmark_eq same

namespace Expr

variable {e : Expr} {scope : ScopeId} {registers : Entries String Value} {inner : Option LambdaId}
  {need : Nat} {f : Value → Except Error Value}

/-- A script that gives a number depends on nothing. -/
theorem applies_integer (n : Int64) :
    (integer n).Applies scope registers none need fun _ => .ok (.integer n) := by
  intro ctx d before after _ hfeeds _ w hw
  obtain ⟨rfl, hafter⟩ := hfeeds.idle rfl
  exact ⟨hafter _ (hfeeds.before_beside hw ⟨rfl, rfl, rfl, rfl, rfl⟩), rfl, fun h => by cases h; rfl⟩

/-- A script that wraps what another one gives. -/
theorem Applies.nest (h : e.Applies scope registers inner need f) (depth : Nat) :
    (Expr.nest depth e).Applies scope registers inner need fun v => (f v).map (Value.nested depth) := by
  intro ctx d before after hneed hfeeds hregisters w hw
  have wraps : (Expr.nest depth e).eval scope none =
      (do let v ← e.eval scope none; (v.nested depth).share : Eval Value) := by
    simp only [eval, reply, bind_assoc, pure_bind]
    rfl
  have hmap : (d.bind fun v => (f v).map (Value.nested depth)) = (d.bind f).map (Value.nested depth) := by
    cases d <;> rfl
  rw [wraps, hmap]
  refine Eval.yields_bind (h hneed hfeeds hregisters hw) ?_ ?_
  · rintro v u ⟨hu, hsame, hplain⟩
    rw [Value.share_apply]
    refine ⟨hfeeds.after_beside hu ⟨rfl, rfl, rfl, rfl, rfl⟩, Answers.share ⟨?_, ?_⟩ _⟩
    · rw [← hsame]
      exact congrArg Except.ok (Value.unmark_nested v depth)
    · rintro _ ⟨⟩
      exact (hplain rfl).nested depth
  · rintro error u ⟨hu, hsame, -⟩
    rw [← hsame]
    exact ⟨hu, rfl, fun h => by cases h⟩

/-- A script that forces what a register holds gives just that. -/
theorem applies_forced {name : String} {id : LambdaId}
    (held : Entries.get? registers name = some (.lambda id)) :
    (call .forced [.register name] none).Applies scope registers (some id) need .ok := by
  intro ctx d before after _ hfeeds hregisters w hw
  have found := hregisters w (.inl hw) name _ held
  have forced := Value.forced_of_lambda? (Discipline.lambda?_markFrom w.marks (.lambda id))
  have performs (v : Value) (apply : Value → Eval Value) : Operation.forced.perform apply [v] =
      v.forced >>= fun result => pure (.value result) := rfl
  have script : (call .forced [.register name] none).eval scope none ctx w =
      (Eval.holding (itemsPlaces [(Value.markFrom w.marks (.lambda id)).1]) (Eval.force id) >>=
        Value.share) ctx { w with marks := (Value.markFrom w.marks (.lambda id)).2 } := by
    unfold eval reply
    rw [Eval.bind_apply, Eval.bind_apply, evalAll_register scope found, Outcome.bind_value, performs,
      forced]
    simp only [Value.overlaid_lambda, Eval.holding_apply, Eval.bind_apply, Outcome.bind_assoc,
      Eval.pure_apply, Outcome.bind_value]
    rfl
  have all : d.bind .ok = d := by cases d <;> rfl
  have read : before { w with marks := (Value.markFrom w.marks (.lambda id)).2 } :=
    hfeeds.before_beside hw ⟨rfl, rfl, rfl, rfl, rfl⟩
  rw [script, all]
  refine Eval.yields_bind (P := fun r v => after v ∧ Answers r d) ?_ ?_ fun error u h => ?_
  · rw [Eval.holding_apply, Eval.force_apply]
    refine hfeeds.forced rfl ?_ ?_ (.inl read) <;> rfl
  · rintro v u ⟨hu, hv⟩
    rw [Value.share_apply]
    exact ⟨hfeeds.after_beside hu ⟨rfl, rfl, rfl, rfl, rfl⟩, hv.share _⟩
  · exact ⟨h.1, h.2.same, nofun⟩

end Expr

namespace Chain

/-- Forces the first member. -/
def first : List Link → Eval Value
  | [] => pure .void
  | link :: _ => Eval.force link.id

/-- Forces members one after another, whatever becomes of each. -/
def forces (order : List (List Link)) : Eval (List (Except Error Value)) :=
  order.mapM fun member => (first member).attempt

variable {u w : World} {need : Nat} {chain member rest : List Link} {link : Link} {kept : Kept}
  {thread : Thread} {budget room : Nat}

/-- The outcome of a member is the same within a chain that goes on in front of it. -/
theorem first_yields (hchain : u.Chained need chain) (hd : Distinct chain) (hs : member <:+ chain)
    (hdepth : thread.depth + room = u.config.maxDepth) (hneed : 2 * chain.length + need ≤ budget)
    (hw : u.Holding chain kept w) :
    (first member (.machine LambdaId.force budget thread) w).Yields fun r v =>
      u.Holding chain (outcome u.config.failFast u.config.maxDepth member room kept).2 v ∧
        Answers r (outcome u.config.failFast u.config.maxDepth member room kept).1 := by
  have hmember : Distinct member := hd.sublist (hs.sublist.map Link.id)
  have hlength := hs.length_le
  have hchained : w.Chained need member := (hchain.recached hw.recached).of_suffix hs
  rw [← hw.recached.config] at hdepth ⊢
  cases member with
  | nil => exact ⟨hw, rfl, fun h => by cases h; rfl⟩
  | cons link rest =>
    have within := hw.within hs
    refine ((hchained.feeds hmember hdepth (by omega)).forced rfl rfl rfl (.inl within)).mono
      fun r v h => ?_
    exact ⟨hw.extend hs h.1 fun _ hid => outcome_of_not_mem hid, h.2⟩

/-- Without a refusal that is kept, every force of a member that the limit allows gives its real result. -/
theorem forces_yields (hchain : u.Chained need chain) (hd : Distinct chain)
    (hdepth : thread.depth + room = u.config.maxDepth) (hneed : 2 * chain.length + need ≤ budget)
    {order : List (List Link)} (hmembers : ∀ member ∈ order, member <:+ chain)
    (hlimit : u.config.failFast = true ∨ ∀ member ∈ order, member.length ≤ room)
    (hw : u.Holding chain kept w) (hsound : Sound u.config.failFast chain kept) :
    (forces order (.machine LambdaId.force budget thread) w).Yields fun r _ => ∃ results, r = .ok results ∧
      List.Forall₂ (fun member result => member.length ≤ room →
        Answers result (real u.config.failFast member)) order results := by
  induction order generalizing w kept with
  | nil => exact ⟨[], rfl, .nil⟩
  | cons member order ih =>
    obtain ⟨hs, hrest⟩ := List.forall_mem_cons.1 hmembers
    have hmember : Distinct member := hd.sublist (hs.sublist.map Link.id)
    have allowed : u.config.failFast = true ∨ member.length ≤ room :=
      hlimit.imp_right fun h => h member List.mem_cons_self
    unfold forces
    rw [List.mapM_cons]
    refine Eval.yields_attempt (first_yields hchain hd hs hdepth hneed hw) fun result v ⟨hv, hresult⟩ => ?_
    have later := ih hrest (hlimit.imp_right fun h m hm => h m (List.mem_cons_of_mem _ hm)) hv
      (hsound.forced hd hs allowed)
    refine Eval.yields_bind later ?_ fun e x h => ?_
    · rintro results x ⟨_, ⟨⟩, hall⟩
      refine ⟨_, rfl, .cons (fun hlength => ?_) hall⟩
      rwa [(outcome_real hmember (hsound.of_suffix hs) hlength).1] at hresult
    · obtain ⟨_, ⟨⟩, -⟩ := h

/-- The member that the limit refuses gives the refusal to those that force it alone afterwards, if the runtime
does not fail fast. -/
theorem refusal_given {above : List Link} (hchain : u.Chained need chain) (hd : Distinct chain)
    (hfast : u.config.failFast = false) (heq : chain = above ++ link :: rest)
    (hdepth : thread.depth + above.length = u.config.maxDepth)
    (hneed : 2 * chain.length + need ≤ budget) (hw : u.Holding chain (fun _ => none) w) :
    (forces [chain, link :: rest] (.machine LambdaId.force budget thread) w).Yields fun r _ =>
      ∃ first second, r = .ok [first, second] ∧
        Answers second (refusal false u.config.maxDepth link) := by
  have hs : link :: rest <:+ chain := ⟨above, heq.symm⟩
  have kept : (outcome u.config.failFast u.config.maxDepth chain above.length fun _ => none).2 link.id =
      some (.failure ((Error.excessiveRecursion (u.config.maxDepth + 1) u.config.maxDepth).addSource
        link.source)) := by
    rw [hfast, heq]
    exact outcome_refused (heq ▸ hd) fun _ _ => rfl
  unfold forces
  rw [List.mapM_cons]
  refine Eval.yields_attempt (first_yields hchain hd (List.suffix_refl _) hdepth hneed hw)
    fun first v ⟨hv, _⟩ => ?_
  refine Eval.yields_bind (P := fun r _ => ∃ second, r = .ok [second] ∧
    Answers second (refusal false u.config.maxDepth link)) ?_ ?_ ?_
  · rw [List.mapM_cons]
    refine Eval.yields_attempt (first_yields hchain hd hs hdepth hneed hv) fun second x ⟨_, h⟩ => ?_
    rw [outcome_kept kept] at h
    exact ⟨second, rfl, h⟩
  · rintro results x ⟨second, ⟨⟩, h⟩
    exact ⟨first, second, rfl, h⟩
  · rintro e x ⟨_, ⟨⟩, -⟩

/-- In a chain of which nothing has been computed yet, members that are forced in any order give their real
results as far as the limit allows, if the runtime fails fast or no member with a longer chain is forced.
Otherwise the member that the limit refuses gives the refusal from then on. -/
theorem limit_keeps_results (hchain : w.Chained need chain) (hd : Distinct chain)
    (hfresh : ∀ link ∈ chain, (w.lambdaAt link.id).cache = .empty)
    (hdepth : thread.depth + room = w.config.maxDepth) (hneed : 2 * chain.length + need ≤ budget) :
    (∀ order : List (List Link), (∀ member ∈ order, member <:+ chain) →
      (w.config.failFast = true ∨ ∀ member ∈ order, member.length ≤ room) →
      (forces order (.ofBudget budget thread) w).Yields fun r _ => ∃ results, r = .ok results ∧
        List.Forall₂ (fun member result => member.length ≤ room →
          Answers result (real w.config.failFast member)) order results) ∧
    (∀ above link rest, w.config.failFast = false → chain = above ++ link :: rest →
      above.length = room →
      (forces [chain, link :: rest] (.ofBudget budget thread) w).Yields fun r _ =>
        ∃ first second, r = .ok [first, second] ∧
          Answers second (refusal false w.config.maxDepth link)) := by
  have fresh := World.holding_of_fresh hfresh
  rw [Context.ofBudget_eq_machine]
  refine ⟨fun order hmembers hlimit => ?_, fun above link rest hfast heq hroom => ?_⟩
  · exact forces_yields hchain hd hdepth hneed hmembers hlimit fresh nofun
  · exact refusal_given hchain hd hfast heq (hroom ▸ hdepth) hneed fresh

end Chain

/-- Three lambdas of which each wraps what the one before it gives, where two levels may be open. -/
def World.ofChain : World :=
  let lambda (operation : String) (body : Expr) : LambdaRecord :=
    { operation, source := Segment.whole operation, scope := ⟨0⟩, inputs := [], body := .script body
      fixable := true }
  { config := { maxDepth := 2 }
    scopes := #[{ name := "root", parent := none, source := default, pure := false }]
    lambdas := #[lambda "low" (.integer 1),
      lambda "middle" (.nest 1 (.call .forced [.register "low"] none)),
      lambda "high" (.nest 1 (.call .forced [.register "middle"] none))]
    desk := { registers := [("low", .lambda ⟨0⟩), ("middle", .lambda ⟨1⟩)] } }

/-- The lowest lambda of `World.ofChain`. -/
def Chain.low : Link :=
  { id := ⟨0⟩, source := Segment.whole "low", compute := fun _ => .ok (.integer 1) }

/-- The lambdas of `World.ofChain`, the highest one first. -/
def Chain.three : List Link :=
  [{ id := ⟨2⟩, source := Segment.whole "high", compute := fun v => .ok (v.nested 1) },
    { id := ⟨1⟩, source := Segment.whole "middle", compute := fun v => .ok (v.nested 1) },
    low]

theorem World.chained_ofChain : World.ofChain.Chained 0 Chain.three := by
  have unhandled (scope above : ScopeId) (_ : above ∈ ofChain.ancestors scope) :
      (ofChain.scopeAt above).handlers = [] := by
    match above with
    | ⟨0⟩ => rfl
    | ⟨_ + 1⟩ => rfl
  refine .cons ⟨by decide, rfl, rfl, ⟨_, rfl, ?_⟩, unhandled _⟩
    (.cons ⟨by decide, rfl, rfl, ⟨_, rfl, ?_⟩, unhandled _⟩
      (.cons ⟨by decide, rfl, rfl, ⟨_, rfl, ?_⟩, unhandled _⟩ .nil))
  · exact Expr.Applies.nest (Expr.applies_forced rfl) 1
  · exact Expr.Applies.nest (Expr.applies_forced rfl) 1
  · exact Expr.applies_integer 1

theorem Chain.fresh_three : ∀ link ∈ three, (World.ofChain.lambdaAt link.id).cache = .empty := by
  simp only [three, List.forall_mem_cons]
  exact ⟨rfl, rfl, rfl, nofun⟩

/-- The two lower lambdas give their real results in any order. -/
theorem Chain.limit_keeps_three :
    ((forces [three.drop 2, three.drop 1] (.ofBudget 6 { id := 0 }) .ofChain).Yields fun r _ =>
      ∃ results, r = .ok results ∧ List.Forall₂ (fun member result => member.length ≤ 2 →
        Answers result (real false member)) [three.drop 2, three.drop 1] results) ∧
    (forces [three, three.drop 2] (.ofBudget 6 { id := 0 }) .ofChain).Yields fun r _ =>
      ∃ first second, r = .ok [first, second] ∧ Answers second (refusal false 2 low) := by
  have kept := @limit_keeps_results World.ofChain 0 three { id := 0 } 6 2 World.chained_ofChain
    (by decide) fresh_three rfl (by decide)
  refine ⟨kept.1 _ ?_ (.inr (by decide)), kept.2 [_, _] low [] rfl rfl rfl⟩
  simp only [List.forall_mem_cons]
  exact ⟨List.drop_suffix _ _, List.drop_suffix _ _, nofun⟩

/-- It is not so that a member whose chain the limit allows gives its real result whatever has been forced
before. -/
theorem Chain.refusal_spoils_result :
    World.ofChain.config.failFast = false ∧ (∀ scope, (World.ofChain.scopeAt scope).handlers = []) ∧
      World.ofChain.Chained 0 three ∧ Distinct three ∧
      ¬ (forces [three, three.drop 2] (.ofBudget 6 { id := 0 }) .ofChain).Yields fun r _ =>
        ∃ results, r = .ok results ∧ List.Forall₂ (fun member result =>
          member.length ≤ World.ofChain.config.maxDepth → Answers result (real false member))
            [three, three.drop 2] results := by
  have refused := @refusal_given World.ofChain World.ofChain 0 three [] _ { id := 0 } 6 [_, _]
    World.chained_ofChain (by decide) rfl rfl rfl (by decide) (World.holding_of_fresh fresh_three)
  refine ⟨rfl, fun scope => ?_, World.chained_ofChain, by decide, fun claimed => ?_⟩
  · match scope with
    | ⟨0⟩ => rfl
    | ⟨_ + 1⟩ => rfl
  · rw [Context.ofBudget_eq_machine] at claimed
    obtain ⟨_, v, run, ⟨first, second, rfl, hsecond⟩, results, hresults, hall⟩ :=
      Outcome.yields_iff.1 (refused.and claimed)
    cases hresults
    cases hall with
    | cons _ hall =>
      cases hall with
      | cons hreal _ =>
        have same := hsecond.same.symm.trans (hreal (by decide)).same
        cases same

end Reactor
