import Reactor.Proofs.Network.Moves

/-!
# Fixing in parallel

A value is fixed to what its lambdas give (`Value.fixed`), whether its elements are fixed one after
another on the thread that asks or each on a thread of the pool. This is so where the lambdas are *served*
(`Context.Serves`): they give the same on every thread that is not deeper, and keep what is kept.

* `Context.Serves.gives_fixAt` : the recursion of `Value.fixAt`, for both ways to work through elements.
* `World.Unused.fixed_alike` : in a network, lambdas are served as long as their levels fit on top of the
  depth of the thread that asks. A thread of the pool starts at depth zero, so it may come further
  (`World.parallel_comes_further`).
-/

namespace Reactor

namespace Value

/-! ## What a value is fixed to -/

/-- The value with what it is made of replaced, from first to last up to a failure. It has no mark. -/
def mapParts (f : Value → Except Error Value) : Value → Except Error Value
  | .mk data notes =>
    let remade (data : Data) : Value := .mk data { notes with mark := 0 }
    match data with
    | .list items => (items.mapM f).map fun items => remade (.list items)
    | .sequence items => (items.mapM f).map fun items => remade (.sequence items)
    | .map entries =>
      ((Entries.values entries).mapM f).map fun values =>
        remade (.map ((Entries.keys entries).zip values))
    | .range start stop => do return remade (.range (← f start) (← f stop))
    | data => .ok (remade data)

/-- What a value is fixed to, down to a depth, where lambdas give certain results and some of them can be
fixed. It has no marks. -/
def fixed (d : LambdaId → Except Error Value) (fixable : LambdaId → Bool) :
    Nat → Value → Except Error Value
  | 0, v => .ok v.unmark
  | depth + 1, v =>
    if v.lambda?.all fixable then do
      let result ← match v.lambda? with
        | some id => (d id).map v.overlaid
        | none => .ok v
      if depth = 0 then .ok result.unmark else result.mapParts (fixed d fixable depth)
    else .ok v.unmark

/-- Marks make no difference. -/
theorem mapParts_unmark {f : Value → Except Error Value} (hf : ∀ v, f v.unmark = f v) (v : Value) :
    v.unmark.mapParts f = v.mapParts f := by
  have each : f ∘ unmark = f := funext hf
  obtain ⟨data, notes⟩ := v
  cases data with
  | list items => simp only [unmark, dataUnmark, mapParts, itemsUnmark_eq, List.mapM_map, each]
  | sequence items => simp only [unmark, dataUnmark, mapParts, itemsUnmark_eq, List.mapM_map, each]
  | map entries =>
    have keys : Entries.keys (entriesUnmark entries) = Entries.keys entries := by
      rw [entriesUnmark_eq, Entries.keys, List.map_map]
      rfl
    have values : Entries.values (entriesUnmark entries) = (Entries.values entries).map unmark := by
      rw [entriesUnmark_eq, Entries.values, Entries.values, List.map_map, List.map_map]
      rfl
    simp only [unmark, dataUnmark, mapParts, keys, values, List.mapM_map, each]
  | range start stop => simp only [unmark, dataUnmark, mapParts, hf]
  | _ => rfl

theorem fixed_unmark (d : LambdaId → Except Error Value) (fixable : LambdaId → Bool) (depth : Nat)
    (v : Value) : fixed d fixable depth v.unmark = fixed d fixable depth v := by
  induction depth generalizing v with
  | zero => rw [fixed, fixed, unmark_unmark]
  | succ depth ih =>
    unfold fixed
    rw [lambda?_unmark, unmark_unmark]
    cases v.lambda? with
    | some id =>
      have same : v.unmark.overlaid = v.overlaid := by
        obtain ⟨data, notes⟩ := v
        rfl
      rw [same]
    | none =>
      have parts := mapParts_unmark ih v
      simp only [Option.all_none, if_true, bind, Except.bind, unmark_unmark, parts]

end Value

/-! ## Elements -/

namespace Context

variable {α β : Type} {ctx : Context} {kept : World → Prop} {sure : Prop} {Q : Except Error α → Prop}
  {act : Eval α}

/-- Something is made of the result. -/
theorem Gives.andReturn {f : α → β} {answer : Except Error β} {make : α → Value} {remake : β → Value}
    (h : ctx.Gives kept sure (fun r => r.map f = answer) act) (hmake : ∀ a, (make a).unmark = remake (f a)) :
    ctx.Gives kept sure (fun r => r.map Value.unmark = answer.map remake) (do return make (← act)) := by
  refine h.bind (fun a ha => gives_pure ?_) fun e he => ?_
  · rw [← ha]
    exact congrArg Except.ok (hmake a)
  · rw [← he]
    rfl

/-- A thread of the pool starts at depth zero. -/
theorem Gives.onPool (hbeside : ∀ {w v : World}, kept w → w.Beside v → kept v)
    (h : ctx.Gives kept sure Q act) : ctx.Gives kept sure Q (Value.onPool act) := by
  intro thread ht w hw
  unfold Value.onPool
  rw [Eval.bind_apply, Eval.thread_apply, Outcome.bind_value]
  split
  · exact h ht hw
  · rw [Eval.bind_apply, Eval.modifyGet_apply, Outcome.bind_value, Eval.onThread_apply]
    exact h (Nat.zero_le _) (hbeside hw ⟨rfl, rfl, rfl, rfl, rfl⟩)

/-- Elements that are fixed to certain values, without marks, beside some that are done, which come last
first. -/
def Fixes (done : List Value) (fixed r : Except Error (List Value)) : Prop :=
  r.map (·.map Value.unmark) = fixed.map ((done.map Value.unmark).reverse ++ ·)

theorem fixes_nil (done : List Value) : Fixes done (.ok []) (.ok done.reverse) := by
  simp [Fixes, Except.map]

theorem Fixes.cons {done : List Value} {result : Value} {fixed r : Except Error (List Value)}
    (h : Fixes (result :: done) fixed r) :
    Fixes done (do return result.unmark :: (← fixed)) r := by
  rw [Fixes, h]
  cases fixed <;> simp [Except.map, bind, Except.bind, pure, Except.pure]

theorem gives_parallelThreshold (items : List Value) :
    ctx.Gives kept sure (fun r => ∃ n, r = .ok n) (Value.parallelThreshold items) := by
  unfold Value.parallelThreshold
  split
  · exact gives_gets fun _ _ => ⟨_, rfl⟩
  · exact gives_pure ⟨_, rfl⟩

section Items

variable {fix : Value → Eval Value} {g : Value → Except Error Value} {items : List Value}
  (h : ∀ x ∈ items, ctx.Gives kept sure (fun r => r.map Value.unmark = g x) (fix x))
include h

/-- One after another up to the first failure. -/
theorem gives_fixEach (done : List Value) :
    ctx.Gives kept sure (Fixes done (items.mapM g)) (Value.fixEach fix done items) := by
  induction items generalizing done with
  | nil => exact gives_pure (fixes_nil done)
  | cons item items ih =>
    rw [Value.fixEach, List.mapM_cons]
    refine (h item List.mem_cons_self).bind (fun result hresult => Gives.holding ?_ _) fun e he => ?_
    · rw [← hresult]
      exact (ih (fun x hx => h x (List.mem_cons_of_mem _ hx)) (result :: done)).mono fun _ hr => hr.cons
    · rw [← he]
      rfl

variable (hbeside : ∀ {w v : World}, kept w → w.Beside v → kept v)
include hbeside

/-- All of them on the pool; the first failure counts. -/
theorem gives_fixAll (done : List Value) (failure : Option Error) :
    ctx.Gives kept sure (fun r => match failure with
      | none => Fixes done (items.mapM g) r
      | some e => r = .error e)
      (Value.fixAll (fun x => Value.onPool (fix x)) done failure items) := by
  induction items generalizing done failure with
  | nil =>
    cases failure with
    | none => exact gives_pure (fixes_nil done)
    | some e => exact gives_fail rfl
  | cons item items ih =>
    rw [Value.fixAll, List.mapM_cons]
    have rest := ih fun x hx => h x (List.mem_cons_of_mem _ hx)
    refine ((h item List.mem_cons_self).onPool hbeside).attempt fun r hr => ?_
    rw [← hr]
    cases r with
    | ok result =>
      refine ((rest (result :: done) failure).mono fun r hr => ?_).holding _
      cases failure with
      | none => exact hr.cons
      | some e => exact hr
    | error e =>
      refine (rest done (failure.or (some e))).mono fun r hr => ?_
      cases failure with
      | none =>
        rw [hr]
        rfl
      | some first => exact hr

/-- Either way the elements are fixed to the same. -/
theorem gives_fixItems (parallel : Bool) :
    ctx.Gives kept sure (fun r => r.map (·.map Value.unmark) = items.mapM g)
      (Value.fixItems fix parallel items) := by
  have same (r : Except Error (List Value)) (hr : Fixes [] (items.mapM g) r) :
      r.map (·.map Value.unmark) = items.mapM g := by
    rw [hr]
    cases items.mapM g <;> rfl
  unfold Value.fixItems
  refine (gives_parallelThreshold items).bind (fun threshold _ => ?_) nofun
  split
  · exact (gives_fixAll h hbeside [] none).mono same
  · exact (gives_fixEach h []).mono same

end Items

end Context

/-! ## Values -/

namespace Value

/-- Replaces what a value is made of, or gives it back if the depth is used up. -/
def fixParts (fix : Value → Eval Value) (depth : Nat) (parallel : Bool) (v : Value) : Eval Value := do
  if depth = 0 then return v
  match v.data with
  | .list items => return v.withData (.list (← fixItems fix parallel items))
  | .sequence items => return v.withData (.sequence (← fixItems fix parallel items))
  | .map entries =>
    let fixed ← fixItems fix parallel (Entries.values entries)
    return v.withData (.map ((Entries.keys entries).zip fixed))
  | .range start stop =>
    let start ← fix start
    let stop ← Eval.holding start.places (fix stop)
    return v.withData (.range start stop)
  | _ => return v

theorem fixAt_succ (budget depth : Nat) (parallel : Bool) (v : Value) :
    fixAt (budget + 1) (depth + 1) parallel v = (do
      let fixable ← (match v.lambda? with
        | some id => Eval.gets fun w => (w.lambdaAt id).fixable
        | none => pure true)
      if !fixable then return v
      v.onForced (fixParts (fixAt budget depth parallel) depth parallel)) := rfl

end Value

namespace Context

variable {ctx : Context} {kept : World → Prop} {sure : Prop}
  (hbeside : ∀ {w v : World}, kept w → w.Beside v → kept v)

include hbeside in
/-- What a value is made of is fixed as its elements are. -/
theorem gives_fixParts {fix : Value → Eval Value} {g : Value → Except Error Value} {v : Value}
    (h : ∀ x : Value, x.places ⊆ v.places → ctx.Gives kept sure (fun r => r.map Value.unmark = g x) (fix x))
    (hv : v.lambda? = none) (depth : Nat) (parallel : Bool) :
    ctx.Gives kept sure (fun r => r.map Value.unmark = if depth = 0 then .ok v.unmark else v.mapParts g)
      (v.fixParts fix depth parallel) := by
  unfold Value.fixParts
  by_cases hdepth : depth = 0
  · rw [if_pos hdepth, if_pos hdepth]
    exact gives_pure rfl
  · rw [if_neg hdepth, if_neg hdepth]
    have items {xs : List Value} (hxs : ∀ x ∈ xs, x.places ⊆ v.places) :=
      gives_fixItems (fun x hx => h x (hxs x hx)) hbeside parallel
    obtain ⟨data, notes⟩ := v
    cases data with
    | list xs =>
      refine (items fun x hx place hp => Value.mem_itemsPlaces.2 ⟨x, hx, hp⟩).andReturn fun fixed => ?_
      rw [← Value.itemsUnmark_eq]
      rfl
    | sequence xs =>
      refine (items fun x hx place hp => Value.mem_itemsPlaces.2 ⟨x, hx, hp⟩).andReturn fun fixed => ?_
      rw [← Value.itemsUnmark_eq]
      rfl
    | map entries =>
      refine (items fun x hx place hp => ?_).andReturn fun fixed => ?_
      · obtain ⟨entry, hentry, rfl⟩ := List.mem_map.1 hx
        exact Value.mem_entriesPlaces.2 ⟨entry, hentry, hp⟩
      · show Value.unmark (.mk (.map _) _) = _
        rw [Value.unmark, Value.dataUnmark, Value.entriesUnmark_eq, List.zip_map_right]
        rfl
    | range start stop =>
      have places : (Value.mk (.range start stop) notes).places = start.places ++ stop.places :=
        Value.placesBefore_eq start _
      refine (h start fun _ hp => places ▸ List.mem_append_left _ hp).bind (fun first hfirst => ?_)
        fun e he => ?_
      · refine ((h stop fun _ hp => places ▸ List.mem_append_right _ hp).holding _).bind
          (fun last hlast => gives_pure ?_) fun e he => ?_
        · rw [Value.mapParts, ← hfirst, ← hlast]
          rfl
        · rw [Value.mapParts, ← hfirst, ← he]
          rfl
      · rw [Value.mapParts, ← he]
        rfl
    | lambda id => cases hv
    | _ => exact gives_pure rfl

/-- A deferred value is forced to what its lambda gives. -/
theorem Serves.gives_onForced {inputs : List LambdaId} {d : LambdaId → Except Error Value}
    (hserves : ctx.Serves inputs d kept) {v : Value} {id : LambdaId} (hid : id ∈ inputs)
    (hl : v.lambda? = some id) {work : Value → Eval Value} {after : Value → Except Error Value}
    (hwork : ∀ x : Value, x.Plain → ctx.Gives kept sure (fun r => r.map Value.unmark = after x.unmark) (work x)) :
    ctx.Gives kept sure (fun r => r.map Value.unmark = (d id).map v.overlaid >>= after) (v.onForced work) := by
  unfold Value.onForced
  rw [hl]
  dsimp only
  rw [Value.forced_of_lambda? hl, bind_assoc]
  refine Gives.bind (P := fun r => Answers r (d id)) (fun _ ht _ hw => (hserves.force hid ht hw).ends)
    (fun result hresult => ?_) fun e he => ?_
  · rw [pure_bind, ← hresult.same]
    refine ((hwork _ (hresult.plain rfl).overlaid).holding _).mono fun r hr => ?_
    rw [hr, Value.unmark_overlaid]
    rfl
  · rw [← he.same]
    rfl

/-- A value whose lambdas are served is fixed to what they give, in parallel or not. The budget may run out
if it is smaller than the depth. -/
theorem Serves.gives_fixAt {inputs : List LambdaId} {d : LambdaId → Except Error Value}
    (hserves : ctx.Serves inputs d kept) {fixable : LambdaId → Bool}
    (hfixable : ∀ w, kept w → ∀ id, (w.lambdaAt id).fixable = fixable id) (budget depth : Nat)
    (parallel : Bool) {v : Value} (hv : ∀ id, Place.lambda id ∈ v.places → id ∈ inputs) :
    ctx.Gives kept (depth ≤ budget) (fun r => r.map Value.unmark = v.fixed d fixable depth)
      (v.fixAt budget depth parallel) := by
  induction budget generalizing depth v with
  | zero =>
    cases depth with
    | zero => exact gives_pure rfl
    | succ depth => exact gives_exhausted (Nat.not_succ_le_zero depth)
  | succ budget ih =>
    cases depth with
    | zero => exact gives_pure rfl
    | succ depth =>
      have parts {x : Value} (hx : ∀ id, Place.lambda id ∈ x.places → id ∈ inputs)
          (hl : x.lambda? = none) := gives_fixParts hserves.beside
        (fun y hy => ih depth fun id hid => hx id (hy hid)) hl depth parallel
      refine Gives.weaken ?_ (Nat.le_of_succ_le_succ : depth + 1 ≤ budget + 1 → depth ≤ budget)
      rw [Value.fixAt_succ, Value.fixed]
      cases hl : v.lambda? with
      | none =>
        rw [Value.onForced_of_lambda?_eq_none hl]
        exact parts hv hl
      | some id =>
        refine (gives_gets_eq (a := fixable id) fun w hw => ?_).bindOk ?_
        · rw [hfixable w hw]
        rintro _ rfl
        rw [Option.all_some]
        cases fixable id with
        | false => exact gives_pure rfl
        | true =>
          have hid : id ∈ inputs := hv id (by
            rw [Value.places_of_lambda? hl]
            exact List.mem_singleton_self _)
          refine hserves.gives_onForced hid hl fun x hx => ?_
          dsimp only
          rw [Value.unmark_unmark, Value.mapParts_unmark (Value.fixed_unmark d fixable depth)]
          refine parts (fun other hother => ?_) hx.lambda?_eq_none
          rw [hx] at hother
          cases hother

end Context

/-! ## Networks -/

/-- The lambdas that a value names. -/
def Value.lambdas (v : Value) : List LambdaId :=
  v.places.filterMap fun
    | .lambda id => some id
    | _ => none

theorem Value.mem_lambdas {v : Value} {id : LambdaId} : id ∈ v.lambdas ↔ Place.lambda id ∈ v.places := by
  refine List.mem_filterMap.trans ⟨?_, fun h => ⟨_, h, rfl⟩⟩
  rintro ⟨place, hmem, heq⟩
  cases place <;> cases heq
  exact hmem

namespace World

variable {scope : ScopeId} {plan : Plan} {need : Nat} {calm : Prop} {v w : World} {budget depth : Nat}
  {host thread : Thread}

/-- In a network the lambdas of a value are served as long as their levels fit on top of the depth of the
thread. -/
theorem InOrder.serves (hw : w.InOrder scope plan need calm) {levels : Nat}
    (hlevels : thread.depth + levels ≤ w.config.maxDepth) (hbudget : 2 * levels + need < budget)
    {inputs : List LambdaId} (h : ∀ id ∈ inputs, id.index < w.lambdas.size ∧ w.Shallow levels id) :
    (Context.ofBudget budget thread).Serves inputs (w.answer scope plan)
      (w.Warmed scope plan w.lambdas.size) := by
  obtain ⟨budget, rfl⟩ : ∃ b, budget = b + 1 := ⟨budget - 1, by omega⟩
  rw [Context.ofBudget_eq_machine]
  refine ⟨fun hu hbeside => hu.beside hbeside, fun {id} hid {other} hother u hu => ?_⟩
  rw [Context.thread_machine] at hother
  obtain ⟨hlt, hshallow⟩ := h id hid
  exact serves_force levels hw.wired hlt hshallow hlt (by omega) (by omega) hu

theorem InOrder.fixDepth_ends (hw : w.InOrder scope plan need calm) {levels : Nat}
    (hlevels : thread.depth + levels ≤ w.config.maxDepth) (hbudget : 2 * levels + need < budget)
    {x : Value} (hx : ∀ id ∈ x.lambdas, id.index < w.lambdas.size ∧ w.Shallow levels id) (depth : Nat)
    (parallel : Bool) :
    (x.fixDepth depth parallel (.ofBudget budget thread) w).Ends (depth ≤ budget) fun r v =>
      w.Recached v ∧
        r.map Value.unmark = x.fixed (w.answer scope plan) (fun id => (w.lambdaAt id).fixable) depth := by
  have fixable (u : World) (hu : w.Warmed scope plan w.lambdas.size u) (id : LambdaId) :
      (u.lambdaAt id).fixable = (w.lambdaAt id).fixable := by
    rw [hu.recached.record id]
  have gives := (hw.serves hlevels hbudget hx).gives_fixAt fixable budget depth parallel fun id hid =>
    Value.mem_lambdas.2 hid
  obtain ⟨budget, rfl⟩ : ∃ b, budget = b + 1 := ⟨budget - 1, by omega⟩
  have run := (Context.gives_budget (f := fun n => x.fixAt n depth parallel) gives).here hw.warmed
  exact run.mono fun r v h => ⟨h.1.recached, h.2⟩

/-- In every state that a host reaches, a value is fixed in parallel to the same as without, at any depth,
and the variables are as they were, if the levels of its lambdas fit on top of the depth of the thread
that asks. Values are compared without the marks that tell copies apart. The traversal is sure to come to
an end if the budget allows the depth. -/
theorem Unused.fixed_alike (h : w.Unused scope calm) (hhost : host.depth = 0)
    (hbudget : 2 * w.config.maxDepth + need < budget)
    (hv : Move.Reaches scope need calm (.ofBudget budget host) w v) {levels : Nat}
    (hlevels : thread.depth + levels ≤ w.config.maxDepth) {x : Value}
    (hx : ∀ id ∈ x.lambdas, id.index < v.lambdas.size ∧ v.Shallow levels id) (depth : Nat) :
    (x.fixDepth depth true (.ofBudget budget thread) v).Ends (depth ≤ budget) fun r u =>
      (x.fixDepth depth false (.ofBudget budget thread) v).Ends (depth ≤ budget) fun r' u' =>
        r.map Value.unmark = r'.map Value.unmark ∧ u.vars = v.vars ∧ u'.vars = v.vars ∧
          u.scopes = v.scopes ∧ u'.scopes = v.scopes := by
  obtain ⟨hconfig, plan, hin⟩ := h.reaches_inOrder hhost (Nat.le_of_lt hbudget) hv
  rw [← hconfig] at hlevels hbudget
  have fixed := hin.fixDepth_ends hlevels (show 2 * levels + need < budget by omega) hx depth
  refine (fixed true).mono fun r u hu => (fixed false).mono fun r' u' hu' => ?_
  exact ⟨hu.2.trans hu'.2.symm, hu.1.vars, hu'.1.vars, hu.1.scopes, hu'.1.scopes⟩

/-- A list of a lambda that has a result already, asked for while a level is open. -/
theorem fixed_alike_bare : ∃ v, Move.Reaches ⟨0⟩ 0 False (.ofThread Session.mainThread) bare v ∧
    ((Value.list [.lambda ⟨0⟩, .lambda ⟨0⟩]).fixDepth 2 true
      (.ofThread { Session.mainThread with depth := 1 }) v).Yields fun r u =>
        ((Value.list [.lambda ⟨0⟩, .lambda ⟨0⟩]).fixDepth 2 false
          (.ofThread { Session.mainThread with depth := 1 }) v).Yields fun r' u' =>
            r.map Value.unmark = r'.map Value.unmark ∧ u.vars = v.vars ∧ u'.vars = v.vars ∧
              u.scopes = v.scopes ∧ u'.scopes = v.scopes := by
  obtain ⟨v, _, reaches, hk, -⟩ := reaches_bare
  obtain ⟨hconfig, plan, hin⟩ := (unused_bare False).reaches_inOrder rfl (by decide) reaches
  have hshallow := (hin.wired.lambda hk).shallow
  rw [hconfig] at hshallow
  refine ⟨v, reaches, (((unused_bare False).fixed_alike rfl (by decide) reaches
    (show 1 + (bare.config.maxDepth - 1) ≤ bare.config.maxDepth by decide) ?_ 2).yields (by decide)).mono
      fun r u h => h.yields (by decide)⟩
  have lambdas : (Value.list [.lambda ⟨0⟩, .lambda ⟨0⟩]).lambdas = [⟨0⟩, ⟨0⟩] := rfl
  rw [lambdas]
  simp only [List.forall_mem_cons]
  exact ⟨⟨hk, hshallow⟩, ⟨hk, hshallow⟩, nofun⟩

/-- Two lambdas of which the second forces the first, where two levels may be open. -/
def ofPair : World :=
  let lambda (operation : String) (body : Expr) : LambdaRecord :=
    { operation, source := Segment.whole operation, scope := ⟨0⟩, inputs := [], body := .script body
      fixable := true }
  { config := { maxDepth := 2 }
    scopes := #[{ name := "root", parent := none, source := default, pure := false }]
    lambdas := #[lambda "low" (.integer 1), lambda "high" (.call .forced [.register "low"] none)]
    desk := { registers := [("low", .lambda ⟨0⟩)] } }

/-- It is not so that a value is always fixed to the same: where a level is open already, a thread of the
pool can compute what the thread that asks cannot. -/
theorem parallel_comes_further : ofPair.vars = #[] ∧
    ¬ ((Value.list [.lambda ⟨1⟩, .lambda ⟨0⟩]).fixDepth 2 true (.ofBudget 6 { id := 0, depth := 1 })
      ofPair).Yields fun r _ =>
        ((Value.list [.lambda ⟨1⟩, .lambda ⟨0⟩]).fixDepth 2 false (.ofBudget 6 { id := 0, depth := 1 })
          ofPair).Yields fun r' _ => r.map Value.unmark = r'.map Value.unmark := by
  refine ⟨rfl, fun h => ?_⟩
  -- the first element is the number one on the pool, and a refusal otherwise
  cases h

end World

end Reactor
