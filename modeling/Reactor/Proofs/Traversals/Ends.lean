import Reactor.Proofs.Failures.Forces
import Reactor.Proofs.Network.Fixing
import Reactor.Proofs.Traversals.Parts
import Reactor.Value.Equality
import Reactor.Value.Tree

/-!
# Traversals that end

A value is ready if the queues that a traversal comes to exist and the lambdas that it comes to keep
results (`World.Ready`). A traversal of a ready value ends if the budget allows the levels to which the
value unfolds: to write it as a tree, to fix it, to compare it and to copy it. To write it as a tree, which
looks behind everything, ends only if there are so many levels.

A value without lambdas (`World.Undeferred`) is written as a tree in the same way, whatever forcing does.
`Context.Sees` is what the two sorts of values have in common.
-/

namespace Reactor

namespace World

variable {w : World} {v x r : Value} {node : Data} {n : Nat}

/-- The queues that a traversal of the value comes to exist, and the lambdas keep results, which are not
deferred. -/
def Ready (w : World) (v : Value) : Prop :=
  ∀ y, w.Unfolds v y →
    (∀ id, y.data = .queue id → id.index < w.queues.size) ∧
    ∀ id, y.data = .lambda id → (w.lambdaAt id).fixable = true ∧
      ∃ x, (w.lambdaAt id).cache = .holding x ∧ x.lambda? = none

theorem Ready.part (h : w.Ready v) (hx : x ∈ w.parts v) : w.Ready x :=
  fun y hto => h y (.part hx hto)

/-- A traversal of the value comes to no lambda. -/
def Undeferred (w : World) (v : Value) : Prop :=
  ∀ y, w.Unfolds v y → y.lambda? = none

theorem Undeferred.part (h : w.Undeferred v) (hx : x ∈ w.parts v) : w.Undeferred x :=
  fun y hto => h y (.part hx hto)

theorem Undeferred.lambda?_eq_none (h : w.Undeferred v) : v.lambda? = none :=
  h v (.refl v)

/-- What a value is when it has been forced: itself, or a copy of the result that its lambda keeps. -/
inductive Forced (w : World) (v : Value) : Value → Prop
  | self (h : v.lambda? = none) : Forced w v v
  | result {x r : Value} (hparts : w.parts v = [x]) (hx : x.lambda? = none) (hr : r.data = x.data)
    (hv : v.lambda?.isSome) : Forced w v r

namespace Forced

variable (h : w.Forced v r)
include h

theorem lambda?_eq_none : r.lambda? = none := by
  cases h with
  | self hv => exact hv
  | result _ hx hr _ =>
    rw [Value.lambda?, hr]
    exact hx

theorem flat (hv : w.Flat n v) : w.Flat n r := by
  cases h with
  | self _ => exact hv
  | @result x _ hparts _ hr _ =>
    cases n with
    | zero => exact hv
    | succ n => exact ((hv x (hparts ▸ List.mem_singleton_self x)).mono (Nat.le_succ n)).congr_data hr

theorem flat_of_result (hr : w.Flat n r) : w.Flat (n + 1) v := by
  cases h with
  | self _ => exact hr.mono (Nat.le_succ n)
  | @result x _ hparts _ hdata _ =>
    intro y hy
    rw [hparts, List.mem_singleton] at hy
    subst hy
    exact hr.congr_data hdata.symm

theorem ready (hv : w.Ready v) : w.Ready r := by
  cases h with
  | self _ => exact hv
  | @result x _ hparts _ hr _ =>
    have hx := hv.part (hparts ▸ List.mem_singleton_self x)
    intro y hto
    cases hto with
    | refl =>
      rw [hr]
      exact hx x (.refl x)
    | part hpart hto =>
      rw [w.parts_congr_data hr] at hpart
      exact hx y (.part hpart hto)

/-- It meets the same queues. -/
theorem meets_iff (id : QueueId) : w.Meets r (.queue id) ↔ w.Meets v (.queue id) := by
  cases h with
  | self _ => rfl
  | @result x _ hparts _ hr hv =>
    have hdata : v.data ≠ .queue id := by
      intro hd
      rw [Value.lambda?, hd] at hv
      cases hv
    rw [World.meets_iff, @World.meets_iff w v, w.parts_congr_data hr, hr, hparts,
      ← @World.meets_iff w x]
    simp [hdata]

end Forced

/-- A traversal of either value comes to the same queues. -/
def SameQueues (w : World) (v a : Value) : Prop :=
  ∀ id, w.Meets a (.queue id) ↔ w.Meets v (.queue id)

/-- The queues of a state are still there and hold what they held. -/
def HoldsQueues (w u : World) : Prop :=
  w.queues.size ≤ u.queues.size ∧ ∀ id : QueueId, id.index < w.queues.size → u.queueAt id = w.queueAt id

end World

/-! ## Computations that give a value -/

namespace Context

/-- The machine finds the results that lambdas keep. -/
def Recalls (ctx : Context) (w : World) : Prop :=
  ∀ ⦃id : LambdaId⦄ ⦃x : Value⦄, (w.lambdaAt id).fixable = true → (w.lambdaAt id).cache = .holding x →
    ∀ thread, ctx.force id thread w = .value x w

theorem recalls_ofBudget (budget : Nat) (thread : Thread) (w : World) :
    (ofBudget (budget + 1) thread).Recalls w :=
  fun _ _ hfix hc other => LambdaId.force_of_holding hfix hc (ofBudget budget other)

/-- The computation gives a value, or it runs out of budget, unless it is sure to end. That it ends shows
something. -/
def Returns {α : Type} (ctx : Context) (kept : World → Prop) (sure : Prop) (shown : Prop) (act : Eval α) :
    Prop :=
  ctx.Gives kept sure (fun r => (∃ a, r = .ok a) ∧ shown) act

variable {α β : Type} {ctx : Context} {kept : World → Prop} {w : World} {sure shown more : Prop}
  {act : Eval α} {v : Value}

theorem returns_pure {a : α} (h : shown) : ctx.Returns kept sure shown (pure a) :=
  gives_pure ⟨⟨a, rfl⟩, h⟩

theorem Returns.mono (h : ctx.Returns kept sure shown act) (himp : shown → more) : ctx.Returns kept sure more act :=
  Gives.mono h fun _ h => ⟨h.1, himp h.2⟩

theorem Returns.weaken {other : Prop} (h : ctx.Returns kept sure shown act) (hsure : other → sure) :
    ctx.Returns kept other shown act :=
  Gives.weaken h hsure

theorem Returns.bind {f : α → Eval β} (h : ctx.Returns kept sure shown act)
    (hf : shown → ∀ a, ctx.Returns kept sure more (f a)) : ctx.Returns kept sure more (act >>= f) :=
  Gives.bind h (fun a h => hf h.2 a) fun _ h => nomatch h.1

theorem Returns.andReturn {f : α → β} (h : ctx.Returns kept sure shown act) :
    ctx.Returns kept sure shown (do return f (← act)) :=
  h.bind fun hs _ => returns_pure hs

theorem returns_mapM {f : α → Eval β} {shown : α → Prop} {items : List α}
    (h : ∀ x ∈ items, ctx.Returns kept sure (shown x) (f x)) :
    ctx.Returns kept sure (∀ x ∈ items, shown x) (items.mapM f) := by
  induction items with
  | nil =>
    rw [List.mapM_nil]
    exact returns_pure (List.forall_mem_nil _)
  | cons x xs ih =>
    rw [List.mapM_cons]
    refine (h x List.mem_cons_self).bind fun hx _ => ?_
    refine (ih fun x hx => h x (List.mem_cons_of_mem _ hx)).bind fun hxs _ => ?_
    exact returns_pure (List.forall_mem_cons.2 ⟨hx, hxs⟩)

/-- The forced value of a ready one is at hand. -/
theorem Recalls.forced (hctx : ctx.Recalls w) (hv : w.Ready v) {id : LambdaId} (hl : v.lambda? = some id) :
    ctx.Gives (· = w) sure (fun r => ∃ x, r = .ok x ∧ w.Forced v x) v.forced := by
  have hdata : v.data = .lambda id := Value.data_of_lambda? hl
  obtain ⟨hfix, x, hcache, hx⟩ := (hv v (.refl v)).2 id hdata
  have hparts : w.parts v = [x] := by
    rw [World.parts, hdata]
    show (w.lambdaAt id).kept = [x]
    rw [LambdaRecord.kept, hcache]
  rw [Value.forced_of_lambda? hl]
  rintro thread - _ rfl
  rw [Eval.bind_apply, Eval.force_apply, hctx hfix hcache, Outcome.bind_value]
  refine .inr ⟨rfl, _, rfl, .result hparts hx ?_ (by rw [hl]; rfl)⟩
  unfold Value.overlaid
  split <;> rfl

/-- The machine sees through the values of a sort: what they are when they are forced is at hand and of the same
sort, and so are their parts. -/
structure Sees (ctx : Context) (w : World) (sort : Value → Prop) : Prop where
  part {v x : Value} (hv : sort v) (hx : x ∈ w.parts v) : sort x
  sort_of_forced {v r : Value} (hv : sort v) (h : w.Forced v r) : sort r
  forced {v : Value} {id : LambdaId} {sure : Prop} (hv : sort v) (hl : v.lambda? = some id) :
    ctx.Gives (· = w) sure (fun r => ∃ x, r = .ok x ∧ w.Forced v x) v.forced

theorem Recalls.sees (hctx : ctx.Recalls w) : ctx.Sees w w.Ready where
  part hv hx := hv.part hx
  sort_of_forced hv h := h.ready hv
  forced hv hl := hctx.forced hv hl

/-- Without lambdas there is nothing to force. -/
theorem sees_undeferred (ctx : Context) (w : World) : ctx.Sees w w.Undeferred where
  part hv hx := hv.part hx
  sort_of_forced hv h := by
    cases h with
    | self _ => exact hv
    | result _ _ _ hl =>
      rw [hv.lambda?_eq_none] at hl
      cases hl
  forced hv hl := by
    rw [hv.lambda?_eq_none] at hl
    cases hl

theorem Sees.onForced {sort : Value → Prop} (hctx : ctx.Sees w sort) (hv : sort v) {work : Value → Eval α}
    {Q : Except Error α → Prop} (h : ∀ r, w.Forced v r → ctx.Gives (· = w) sure Q (work r)) :
    ctx.Gives (· = w) sure Q (v.onForced work) := by
  unfold Value.onForced
  cases hl : v.lambda? with
  | none => exact h v (.self hl)
  | some id =>
    exact (hctx.forced hv hl).bindOk fun x hforced => (h x hforced).holding _

theorem Sees.onAttempt {sort : Value → Prop} (hctx : ctx.Sees w sort) (hv : sort v)
    {work : Except Error Value → Eval α}
    (h : ∀ r, w.Forced v r → ctx.Returns (· = w) sure shown (work (.ok r))) :
    ctx.Returns (· = w) sure shown (v.onAttempt work) := by
  unfold Value.onAttempt
  cases hl : v.lambda? with
  | none => exact h v (.self hl)
  | some id =>
    refine (hctx.forced hv hl).attempt ?_
    rintro _ ⟨x, rfl, hforced⟩
    exact (h x hforced).holding _

end Context

/-! ## Trees -/

namespace Value

open Context

variable {ctx : Context} {w : World} {a b v : Value}

/-- A value is written as a tree exactly if it unfolds to a number of levels. -/
theorem returns_toTreeAt {sort : Value → Prop} (hctx : ctx.Sees w sort) (budget : Nat) (hv : sort v) :
    ctx.Returns (· = w) (w.Flat budget v) (w.Flat (2 * budget) v) (toTreeAt budget v) := by
  induction budget generalizing v with
  | zero => exact gives_exhausted id
  | succ budget ih =>
    unfold toTreeAt
    refine hctx.onForced hv fun r hr => show ctx.Returns (· = w) _ _ _ from ?_
    have good := hctx.sort_of_forced hv hr
    have items {xs : List Value} (hxs : xs ⊆ w.parts r) :
        ctx.Returns (· = w) (w.Flat (budget + 1) v) (∀ x ∈ xs, w.Flat (2 * budget) x)
          (xs.mapM (toTreeAt budget)) :=
      returns_mapM fun x hx => (ih (hctx.part good (hxs hx))).weaken fun hflat => hr.flat hflat x (hxs hx)
    suffices ctx.Returns (· = w) (w.Flat (budget + 1) v) (∀ x ∈ w.parts r, w.Flat (2 * budget) x) _ from
      this.mono fun h => hr.flat_of_result (n := 2 * budget + 1) h
    obtain ⟨data, notes⟩ := r
    cases data with
    | list xs => exact (items (List.Subset.refl _)).andReturn
    | sequence xs => exact (items (List.Subset.refl _)).andReturn
    | map entries =>
      have members : ctx.Returns (· = w) (w.Flat (budget + 1) v) (∀ entry ∈ entries, w.Flat (2 * budget) entry.2)
          (entries.mapM fun entry => do return (entry.1, ← toTreeAt budget entry.2)) := by
        refine returns_mapM fun entry hentry => ?_
        have hpart : entry.2 ∈ w.parts (.mk (.map entries) notes) := List.mem_map_of_mem hentry
        exact ((ih (hctx.part good hpart)).weaken fun hflat =>
          (hr.flat hflat : w.Flat (budget + 1) _) entry.2 hpart).andReturn
      refine (members.bind fun hmembers _ => ?_).mono fun h => List.forall_mem_map.2 h
      split <;> exact returns_pure hmembers
    | range start stop =>
      have part {x : Value} (hx : x ∈ w.parts (.mk (.range start stop) notes)) :
          ctx.Returns (· = w) (w.Flat (budget + 1) v) (w.Flat (2 * budget) x) (toTreeAt budget x) :=
        (ih (hctx.part good hx)).weaken fun hflat => hr.flat hflat x hx
      refine (part List.mem_cons_self).bind fun hstart _ => ?_
      refine (part (List.mem_cons_of_mem _ List.mem_cons_self)).bind fun hstop _ => returns_pure ?_
      exact List.forall_mem_cons.2 ⟨hstart, List.forall_mem_singleton.2 hstop⟩
    | queue id =>
      refine (gives_gets_eq (a := (w.queueAt id).items) ?_).bindOk ?_
      · rintro _ rfl
        rfl
      · rintro _ rfl
        exact ((items (List.Subset.refl _)).andReturn).holding _
    | lambda id => cases hr.lambda?_eq_none
    | null of => cases of <;> exact returns_pure (List.forall_mem_nil _)
    | decimal x =>
      dsimp only [data_mk]
      split <;> exact returns_pure (List.forall_mem_nil _)
    | _ => exact returns_pure (List.forall_mem_nil _)

theorem returns_toTree {sort : Value → Prop} (hctx : ctx.Sees w sort) (hv : sort v) :
    ctx.Returns (· = w) (w.Flat ctx.budget v) (w.Flat (2 * ctx.budget) v) v.toTree :=
  gives_budget (returns_toTreeAt hctx ctx.budget hv)

/-! ## Equality -/

theorem returns_equalItems {equal : Value → Value → Eval Bool} {xs ys : List Value} {sure : Prop}
    (h : ∀ x ∈ xs, ∀ y ∈ ys, ctx.Returns (· = w) sure True (equal x y)) :
    ctx.Returns (· = w) sure True (equalItems equal xs ys) := by
  induction xs generalizing ys with
  | nil => cases ys <;> exact returns_pure trivial
  | cons x xs ih =>
    cases ys with
    | nil => exact returns_pure trivial
    | cons y ys =>
      refine (h x List.mem_cons_self y List.mem_cons_self).bind fun _ same => ?_
      split
      · exact ih fun x hx y hy => h x (List.mem_cons_of_mem _ hx) y (List.mem_cons_of_mem _ hy)
      · exact returns_pure trivial

theorem returns_equalEntries {equal : Value → Value → Eval Bool} {other entries : Entries String Value}
    {sure : Prop}
    (h : ∀ entry ∈ entries, ∀ y ∈ Entries.values other, ctx.Returns (· = w) sure True (equal entry.2 y)) :
    ctx.Returns (· = w) sure True (equalEntries equal other entries) := by
  induction entries with
  | nil => exact returns_pure trivial
  | cons entry entries ih =>
    unfold equalEntries
    cases hget : Entries.get? other entry.1 with
    | none => exact returns_pure trivial
    | some y =>
      have hy : y ∈ Entries.values other := List.mem_map_of_mem (Entries.mem_of_get?_eq_some hget)
      refine (h entry List.mem_cons_self y hy).bind fun _ same => ?_
      split
      · exact ih fun entry hentry => h entry (List.mem_cons_of_mem _ hentry)
      · exact returns_pure trivial

theorem parts_of_items? {data : Data} {xs : List Value} (hxs : items? data = some xs) (notes : Notes) :
    w.parts (.mk data notes) = xs := by
  cases data <;> cases hxs <;> rfl

/-- The comparison ends if the budget allows the levels of the first value. -/
theorem returns_equalsAt (hctx : ctx.Recalls w) (budget : Nat) (ha : w.Ready a) (hb : w.Ready b) :
    ctx.Returns (· = w) (w.Flat budget a) True (equalsAt budget a b) := by
  induction budget generalizing a b with
  | zero => exact gives_exhausted id
  | succ budget ih =>
    unfold equalsAt
    split
    · exact returns_pure trivial
    refine hctx.sees.onAttempt ha fun p hp => hctx.sees.onAttempt hb fun q hq => ?_
    dsimp only
    have parts {x y : Value} (hx : x ∈ w.parts p) (hy : y ∈ w.parts q) :
        ctx.Returns (· = w) (w.Flat (budget + 1) a) True (equalsAt budget x y) :=
      (ih ((hp.ready ha).part hx) ((hq.ready hb).part hy)).weaken fun hflat => hp.flat hflat x hx
    obtain ⟨pdata, pnotes⟩ := p
    obtain ⟨qdata, qnotes⟩ := q
    dsimp only [data_mk]
    split
    · refine (parts List.mem_cons_self List.mem_cons_self).bind fun _ same => ?_
      split
      · exact parts (List.mem_cons_of_mem _ List.mem_cons_self) (List.mem_cons_of_mem _ List.mem_cons_self)
      · exact returns_pure trivial
    · split
      · exact returns_equalEntries fun entry hentry y hy => parts (List.mem_map_of_mem hentry) hy
      · exact returns_pure trivial
    · split
      · exact returns_pure trivial
      · refine (gives_gets_eq (f := id) (a := w) ?_).bindOk ?_
        · rintro _ rfl
          rfl
        · rintro _ rfl
          split
          · exact (returns_equalItems fun x hx y hy => parts hx hy).holding _
          · exact returns_pure trivial
    · split
      · rename_i hxs hys
        split
        · refine returns_equalItems fun x hx y hy => parts ?_ ?_
          · rwa [parts_of_items? hxs]
          · rwa [parts_of_items? hys]
        · exact returns_pure trivial
      · exact returns_pure trivial

theorem returns_equals (hctx : ctx.Recalls w) (ha : w.Ready a) (hb : w.Ready b) :
    ctx.Returns (· = w) (w.Flat ctx.budget a) True (a.equals b) :=
  gives_budget (returns_equalsAt hctx ctx.budget ha hb)

/-! ## Fixing -/

/-- Values that are no queues come to the same queues if their parts do. -/
theorem sameQueues_of_parts (hv : ∀ id, v.data ≠ .queue id) (ha : ∀ id, a.data ≠ .queue id)
    (h : List.Forall₂ w.SameQueues (w.parts v) (w.parts a)) : w.SameQueues v a := by
  intro id
  rw [World.meets_iff, @World.meets_iff w v]
  simp only [hv id, ha id, false_or]
  generalize w.parts v = xs at h
  generalize w.parts a = ys at h
  induction h with
  | nil => simp
  | cons hsame _ ih => simp only [List.exists_mem_cons_iff, hsame id, ih]

theorem gives_fixEach_same {fix : Value → Eval Value} {items : List Value} {sure : Prop}
    (h : ∀ x ∈ items, ctx.Gives (· = w) sure (fun r => ∃ y, r = .ok y ∧ w.SameQueues x y) (fix x))
    (done : List Value) :
    ctx.Gives (· = w) sure
      (fun r => ∃ ys, r = .ok (done.reverse ++ ys) ∧ List.Forall₂ w.SameQueues items ys)
      (fixEach fix done items) := by
  induction items generalizing done with
  | nil => exact gives_pure ⟨[], by simp, .nil⟩
  | cons item items ih =>
    refine (h item List.mem_cons_self).bindOk fun y hy => ?_
    refine ((ih (fun x hx => h x (List.mem_cons_of_mem _ hx)) (y :: done)).mono ?_).holding _
    rintro _ ⟨ys, rfl, hys⟩
    exact ⟨y :: ys, by simp, .cons hy hys⟩

theorem gives_fixParts_same {fix : Value → Eval Value} {sure : Prop}
    (h : ∀ x ∈ w.parts v, ctx.Gives (· = w) sure (fun r => ∃ y, r = .ok y ∧ w.SameQueues x y) (fix x))
    (hv : v.lambda? = none) (depth : Nat) :
    ctx.Gives (· = w) sure (fun r => ∃ a, r = .ok a ∧ w.SameQueues v a) (fixParts fix depth false v) := by
  unfold fixParts
  split
  · exact gives_pure ⟨v, rfl, fun _ => Iff.rfl⟩
  have items {xs : List Value} (hxs : xs ⊆ w.parts v) :
      ctx.Gives (· = w) sure (fun r => ∃ ys, r = .ok ys ∧ List.Forall₂ w.SameQueues xs ys)
        (fixItems fix false xs) := by
    unfold fixItems
    refine (gives_parallelThreshold xs).bind (fun _ _ => ?_) fun e he => ?_
    · exact gives_fixEach_same (fun x hx => h x (hxs hx)) []
    · obtain ⟨_, ⟨⟩⟩ := he
  obtain ⟨data, notes⟩ := v
  cases data with
  | list xs =>
    refine (items (List.Subset.refl _)).bindOk fun ys hys => ?_
    exact gives_pure ⟨_, rfl, sameQueues_of_parts (by rintro _ ⟨⟩) (by rintro _ ⟨⟩) hys⟩
  | sequence xs =>
    refine (items (List.Subset.refl _)).bindOk fun ys hys => ?_
    exact gives_pure ⟨_, rfl, sameQueues_of_parts (by rintro _ ⟨⟩) (by rintro _ ⟨⟩) hys⟩
  | map entries =>
    refine (items (List.Subset.refl _)).bindOk fun ys hys => ?_
    refine gives_pure ⟨_, rfl, sameQueues_of_parts (by rintro _ ⟨⟩) (by rintro _ ⟨⟩) ?_⟩
    have hlength : ys.length ≤ (Entries.keys entries).length := by
      have same : (Entries.values entries).length = ys.length := hys.length_eq
      refine Nat.le_of_eq ?_
      rw [← same, Entries.keys, Entries.values, List.length_map, List.length_map]
    have values : Entries.values ((Entries.keys entries).zip ys) = ys := List.map_snd_zip hlength
    show List.Forall₂ _ (Entries.values entries) (Entries.values ((Entries.keys entries).zip ys))
    rw [values]
    exact hys
  | range start stop =>
    refine (h start List.mem_cons_self).bindOk fun first hfirst => ?_
    refine ((h stop (List.mem_cons_of_mem _ List.mem_cons_self)).holding _).bindOk fun last hlast => ?_
    exact gives_pure ⟨_, rfl, sameQueues_of_parts (by rintro _ ⟨⟩) (by rintro _ ⟨⟩) (.cons hfirst (.cons hlast .nil))⟩
  | lambda id => cases hv
  | _ => exact gives_pure ⟨_, rfl, fun _ => Iff.rfl⟩

/-- In the fixed value a traversal comes to the same queues. -/
theorem gives_fixAt_same (hctx : ctx.Recalls w) (budget depth : Nat) (hv : w.Ready v) :
    ctx.Gives (· = w) (w.Flat budget v) (fun r => ∃ a, r = .ok a ∧ w.SameQueues v a)
      (fixAt budget depth false v) := by
  induction budget generalizing depth v with
  | zero =>
    cases depth with
    | zero => exact gives_pure ⟨v, rfl, fun _ => Iff.rfl⟩
    | succ depth => exact gives_exhausted id
  | succ budget ih =>
    cases depth with
    | zero => exact gives_pure ⟨v, rfl, fun _ => Iff.rfl⟩
    | succ depth =>
      rw [fixAt_succ]
      refine Gives.bindOk (p := (· = true)) ?_ ?_
      · cases hl : v.lambda? with
        | none => exact gives_pure ⟨_, rfl, rfl⟩
        | some id =>
          refine gives_gets_eq ?_
          rintro _ rfl
          rw [((hv v (.refl v)).2 id (data_of_lambda? hl)).1]
      · rintro _ rfl
        refine hctx.sees.onForced hv fun r hr => ?_
        have ready := hr.ready hv
        have part (x : Value) (hx : x ∈ w.parts r) := (ih depth (ready.part hx)).weaken
          fun hflat => (hr.flat hflat : w.Flat (budget + 1) r) x hx
        refine (gives_fixParts_same part hr.lambda?_eq_none depth).mono ?_
        rintro _ ⟨a, rfl, ha⟩
        exact ⟨a, rfl, fun id => (ha id).trans (hr.meets_iff id)⟩

theorem gives_fixDeep_same (hctx : ctx.Recalls w) (hv : w.Ready v) :
    ctx.Gives (· = w) (w.Flat ctx.budget v) (fun r => ∃ a, r = .ok a ∧ w.SameQueues v a)
      (v.fixDeep false) :=
  gives_budget (gives_fixAt_same hctx ctx.budget maxDepth hv)

/-! ## Copies -/

theorem returns_newQueue (items : List Value) {sure : Prop} :
    ctx.Returns w.HoldsQueues sure True (Eval.newQueue items) := by
  rintro thread - u ⟨hsize, hsame⟩
  obtain ⟨shared, marks, run, -⟩ := exists_shareAll items { ctx with thread } u
  unfold Eval.newQueue
  rw [Eval.bind_apply, run, Outcome.bind_value, Eval.modifyGet_apply]
  refine .inr ⟨⟨?_, fun id hid => ?_⟩, ⟨_, rfl⟩, trivial⟩
  · rw [Array.size_push]
    exact Nat.le_succ_of_le hsize
  · rw [World.queueAt, World.getD_push, if_neg (Nat.ne_of_lt (Nat.lt_of_lt_of_le hid hsize))]
    exact hsame id hid

/-- A value is copied if the budget allows its levels. -/
theorem returns_copyAt (budget : Nat) (hv : w.Ready v) :
    ctx.Returns w.HoldsQueues (w.Flat budget v) True (copyAt budget v) := by
  induction budget generalizing v with
  | zero => exact gives_exhausted id
  | succ budget ih =>
    have part (x : Value) (hx : x ∈ w.parts v) :
        ctx.Returns w.HoldsQueues (w.Flat (budget + 1) v) True (copyAt budget x) :=
      (ih (hv.part hx)).weaken fun hflat => hflat x hx
    have items {xs : List Value} (hxs : xs ⊆ w.parts v) :
        ctx.Returns w.HoldsQueues (w.Flat (budget + 1) v) True (xs.mapM (copyAt budget)) :=
      (returns_mapM fun x hx => part x (hxs hx)).mono fun _ => trivial
    unfold copyAt
    obtain ⟨data, notes⟩ := v
    cases data with
    | list xs => exact (items (List.Subset.refl _)).andReturn
    | sequence xs => exact (items (List.Subset.refl _)).andReturn
    | map entries =>
      have copied : ctx.Returns w.HoldsQueues (w.Flat (budget + 1) (.mk (.map entries) notes))
          (∀ entry ∈ entries, True)
          (entries.mapM fun entry => do return (entry.1, ← copyAt budget entry.2)) :=
        returns_mapM fun entry hentry => (part entry.2 (List.mem_map_of_mem hentry)).andReturn
      exact (copied.mono fun _ => trivial).andReturn
    | range start stop =>
      refine (part start List.mem_cons_self).bind fun _ _ => ?_
      exact (part stop (List.mem_cons_of_mem _ List.mem_cons_self)).andReturn
    | queue id =>
      refine (gives_gets_eq (a := (w.queueAt id).items) fun u hu => ?_).bindOk ?_
      · rw [hu.2 id ((hv _ (.refl _)).1 id rfl)]
      · rintro _ rfl
        exact (items (List.Subset.refl _)).bind fun _ _ => (returns_newQueue _).andReturn
    | _ => exact returns_pure trivial

theorem returns_copy (hv : w.Ready v) :
    ctx.Returns w.HoldsQueues (w.Flat ctx.budget v) True v.copy :=
  gives_budget (returns_copyAt ctx.budget hv)

end Value

/-! ## All traversals -/

/-- The traversals of a value give a result, also its comparison with another one. -/
structure Value.TraversalsEnd (x y : Value) (ctx : Context) (w : World) : Prop where
  tree : (x.toTree ctx w).Yields fun r _ => ∃ tree, r = .ok tree
  equality : (x.equals y ctx w).Yields fun r _ => ∃ same, r = .ok same
  fixed : (x.fixDeep false ctx w).Yields fun r _ => ∃ a, r = .ok a
  copied : (x.copy ctx w).Yields fun r _ => ∃ a, r = .ok a

namespace World.Ready

variable {w : World} {x y : Value} {n budget : Nat}

/-- A value that unfolds to no more levels than the budget allows is traversed to the end. -/
theorem traversalsEnd (hx : w.Ready x) (hy : w.Ready y) (hflat : w.Flat n x) (hn : n ≤ budget)
    (thread : Thread) : x.TraversalsEnd y (.ofBudget budget thread) w := by
  obtain ⟨budget, rfl⟩ : ∃ b, budget = b + 1 := by
    cases budget with
    | zero => exact (hflat.mono hn).elim
    | succ budget => exact ⟨budget, rfl⟩
  have recalls := Context.recalls_ofBudget budget thread w
  have flat := hflat.mono hn
  refine ⟨?_, ?_, ?_, ?_⟩
  · exact (((Value.returns_toTree recalls.sees hx).here rfl).yields flat).mono fun _ _ h => h.2.1
  · exact (((Value.returns_equals recalls hx hy).here rfl).yields flat).mono fun _ _ h => h.2.1
  · refine (((Value.gives_fixDeep_same recalls hx).here rfl).yields flat).mono ?_
    rintro _ _ ⟨-, a, rfl, -⟩
    exact ⟨a, rfl⟩
  · exact (((Value.returns_copy hx).here ⟨Nat.le_refl _, fun _ _ => rfl⟩).yields flat).mono
      fun _ _ h => h.2.1

/-- A value that does not unfold to any number of levels is not written as a tree within any budget. -/
theorem toTree_eq_exhausted (hx : w.Ready x) (h : ∀ n, ¬w.Flat n x) (budget : Nat) (thread : Thread) :
    x.toTree (.ofBudget budget thread) w = .exhausted := by
  cases budget with
  | zero => rfl
  | succ budget =>
    have recalls := Context.recalls_ofBudget budget thread w
    rcases (Value.returns_toTree recalls.sees hx).here rfl with ⟨run, -⟩ | run
    · exact run
    · obtain ⟨r, _, -, -, -, hflat⟩ := Outcome.yields_iff.1 run
      exact absurd hflat (h _)

end World.Ready

end Reactor
