import Reactor.Engine.Force
import Reactor.Proofs.Purity.Nested
import Reactor.Proofs.Traits.Engine

/-!
# Computations that keep a discipline

A `Discipline` says which scripts may run, what holds of the state and where a state may lead in the
course of a run. Two states are related if that holds of the first one and the second differs from it
in the learner at most, or not at all (`Discipline.Rel`). A computation *keeps* the discipline
(`Discipline.Keeps`) if from related states it fares alike: the same value or failure, in related
states again, to which the first ones may lead. If it waits, it goes on alike from whatever related
states it is resumed in. So such a computation preserves an invariant, makes only the changes that the
discipline permits, and is not influenced by the learner.

The fields of `Discipline` say of each elementary change of the engine that it is permitted. Every
computation is put together from those by the rules of this module, so there is one lemma for each
function of the engine, which serves every discipline. What a context starts keeps the discipline by
assumption (`Discipline.Admits`).
-/

namespace Reactor

/-- A change of a lambda that brings allowed scripts only, and no deferred result. -/
structure LambdaRecord.Tame (allows : Expr → Prop) (old new : LambdaRecord) : Prop where
  body : new.body = old.body
  fixable : new.fixable = old.fixable
  callback {key : ListenerKey} {c : Callback} (h : (key, .callback c) ∈ new.listeners) :
    (key, .callback c) ∈ old.listeners ∨ allows c.body
  cache {v : Value} (h : new.cache = .holding v) : old.cache = .holding v ∨ v.lambda? = none

/-- What is noted of a lambda while threads work on it: which thread is computing it, and which ones are
notifying it. -/
inductive Mark where
  | computing (owner : ThreadId)
  | notifying (thread : ThreadId)

/-- The record has a mark. -/
def LambdaRecord.Bears (record : LambdaRecord) : Mark → Prop
  | .computing owner => record.cache = .computing owner
  | .notifying thread => thread ∈ record.notifying

/-- A change of a lambda that takes away no marks but certain ones. -/
def LambdaRecord.Marked (lets : Mark → Prop) (old new : LambdaRecord) : Prop :=
  ∀ mark, ¬ lets mark → old.Bears mark → new.Bears mark

/-- A lambda that has just been made of an allowed script. -/
structure LambdaRecord.Fresh (allows : Expr → Prop) (record : LambdaRecord) : Prop where
  body {e : Expr} (h : record.body = .script e) : allows e
  listeners : record.listeners = []
  cache : record.cache = .empty

/-- What computations keep. -/
structure Discipline where
  /-- The scripts that may run. -/
  allows : Expr → Prop
  /-- There is one run only: what it does may depend on the learner. -/
  single : Prop
  /-- What holds of the state. -/
  holds : World → Prop
  /-- The first state may become the second one. -/
  leads : World → World → Prop
  /-- The engine itself destroys no scope before this one. -/
  firstScope : Nat
  /-- The marks of a lambda that may be taken away. -/
  lets : LambdaId → Mark → Prop
  refl (w : World) : leads w w
  trans {u v w : World} (h : leads u v) (h' : leads v w) : leads u w
  -- what the state provides
  script {w : World} (hw : holds w) {id : LambdaId} {e : Expr}
    (h : (w.lambdaAt id).body = .script e) : allows e
  callback {w : World} (hw : holds w) {id : LambdaId} {key : ListenerKey} {c : Callback}
    (h : (key, .callback c) ∈ (w.lambdaAt id).listeners) : allows c.body
  settled {w : World} (hw : holds w) {id : LambdaId} {v : Value}
    (h : (w.lambdaAt id).cache = .holding v) : v.lambda? = none
  subscriber {w : World} (hw : holds w) {id : QueueId} {n : Nat} {c : Callback}
    (h : (n, c) ∈ (w.queueAt id).subscribers) : allows c.body
  forked {w : World} (hw : holds w) (id : ForkId) : allows (w.forkAt id).body
  firstScope_le {w : World} (hw : holds w) : firstScope ≤ w.scopes.size
  /-- Whoever sets a mark may take it away. -/
  lets_of_not_bears {w : World} (hw : holds w) {id : LambdaId} {mark : Mark}
    (h : ¬ (w.lambdaAt id).Bears mark) : lets id mark
  -- what may change
  aside {w v : World} (h : w.SameRecords v) (hw : holds w) : holds v ∧ leads w v
  lambda {w : World} (id : LambdaId) {f : LambdaRecord → LambdaRecord}
    (h : (w.lambdaAt id).Tame allows (f (w.lambdaAt id)))
    (hmarks : (w.lambdaAt id).Marked (lets id) (f (w.lambdaAt id))) (hw : holds w) :
    holds (w.modifyLambda id f) ∧ leads w (w.modifyLambda id f)
  newLambda {w : World} {record : LambdaRecord} (h : record.Fresh allows) (hw : holds w) :
    holds { w with lambdas := w.lambdas.push record } ∧
      leads w { w with lambdas := w.lambdas.push record }
  queue {w : World} (id : QueueId) {f : QueueRecord → QueueRecord}
    (h : ∀ entry ∈ (f (w.queueAt id)).subscribers,
      entry ∈ (w.queueAt id).subscribers ∨ allows entry.2.body) (hw : holds w) :
    holds (w.modifyQueue id f) ∧ leads w (w.modifyQueue id f)
  newQueue {w : World} (items : List Value) (hw : holds w) :
    holds { w with queues := w.queues.push { items } } ∧
      leads w { w with queues := w.queues.push { items } }
  newFork {w : World} {record : ForkRecord} (h : allows record.body) (hnew : record.outcome = none)
    (hw : holds w) :
    holds { w with forks := w.forks.push record } ∧ leads w { w with forks := w.forks.push record }
  scope {w : World} (id : ScopeId) {f : ScopeRecord → ScopeRecord} (h : ∀ r : ScopeRecord, r.Tame (f r))
    (hw : holds w) : holds (w.modifyScope id f) ∧ leads w (w.modifyScope id f)
  newScope {w : World} {record : ScopeRecord} (h : record.vars = []) (hopens : record.Opens w)
    (hw : holds w) :
    holds { w with scopes := w.scopes.push record } ∧
      leads w { w with scopes := w.scopes.push record }
  destroy {w : World} {id : ScopeId} (h : firstScope ≤ id.index) (hw : holds w) :
    holds (w.modifyScope id ScopeRecord.ended) ∧ leads w (w.modifyScope id ScopeRecord.ended)

namespace Discipline

variable (D : Discipline)

/-- Two states agree in all but the learner, and the discipline holds of the first. -/
structure Rel (w v : World) : Prop where
  same : v = w.withLearner v.learner
  alone (h : D.single) : v = w
  holds : D.holds w

/-- Two outcomes are alike: the same value, failure or wait, in related states to which a given state
may lead. -/
inductive Alike {α : Type} (P : α → World → Prop) : World → Outcome α → Outcome α → Prop
  | value {a : α} {u w v : World} (h : D.Rel w v) (hu : D.leads u w) (ha : P a w) :
    Alike P u (.value a w) (.value a v)
  | error {e : Error} {u w v : World} (h : D.Rel w v) (hu : D.leads u w) :
    Alike P u (.error e w) (.error e v)
  | panic {message : Option String} {u w v : World} (h : D.Rel w v) (hu : D.leads u w) :
    Alike P u (.panic message w) (.panic message v)
  | waiting {on : Wait} {u w v : World} {f g : World → Outcome α} (h : D.Rel w v)
    (hu : D.leads u w)
    (hfg : ∀ {w' v'}, D.Rel w' v' → D.leads w w' → Alike P w' (f w') (g v')) :
    Alike P u (.waiting on w f) (.waiting on v g)
  | exhausted {u : World} : Alike P u .exhausted .exhausted

/-- A result that is no lambda. -/
def Settled (v : Value) (_ : World) : Prop :=
  v.lambda? = none

/-- What a context starts keeps the discipline. -/
structure Admits (ctx : Context) : Prop where
  evaluate {e : Expr} (he : D.allows e) (scope : ScopeId) (item : Option Value) (thread : Thread)
    {w v : World} (h : D.Rel w v) :
    D.Alike (fun _ _ => True) w (ctx.evaluate e scope item thread w)
      (ctx.evaluate e scope item thread v)
  force (id : LambdaId) (thread : Thread) {w v : World} (h : D.Rel w v) :
    D.Alike Settled w (ctx.force id thread w) (ctx.force id thread v)

/-- The computation keeps the discipline, and its value is as given. -/
structure Gives {α : Type} (P : α → World → Prop) (act : Eval α) : Prop where
  run {ctx : Context} (hctx : D.Admits ctx) {w v : World} (h : D.Rel w v) :
    D.Alike P w (act ctx w) (act ctx v)

/-- The computation keeps the discipline. -/
abbrev Keeps {α : Type} (act : Eval α) : Prop :=
  D.Gives (fun _ _ => True) act

variable {D} {α β : Type} {P Q : α → World → Prop} {R : β → World → Prop}

/-! ## Outcomes -/

theorem Rel.refl {w : World} (hw : D.holds w) : D.Rel w w :=
  ⟨rfl, fun _ => rfl, hw⟩

theorem Admits.withThread {ctx : Context} (h : D.Admits ctx) (thread : Thread) :
    D.Admits { ctx with thread } :=
  ⟨h.evaluate, h.force⟩

theorem Alike.mono {u : World} {x y : Outcome α} (h : D.Alike P u x y)
    (hPQ : ∀ a w, D.holds w → P a w → Q a w) : D.Alike Q u x y := by
  induction h with
  | value h hu ha => exact .value h hu (hPQ _ _ h.holds ha)
  | error h hu => exact .error h hu
  | panic h hu => exact .panic h hu
  | waiting h hu _ ih => exact .waiting h hu fun h hl => ih h hl
  | exhausted => exact .exhausted

/-- What comes after a state comes after all that lead to it. -/
theorem Alike.after {t u : World} {x y : Outcome α} (h : D.Alike P u x y) (ht : D.leads t u) :
    D.Alike P t x y := by
  cases h with
  | value h hu ha => exact .value h (D.trans ht hu) ha
  | error h hu => exact .error h (D.trans ht hu)
  | panic h hu => exact .panic h (D.trans ht hu)
  | waiting h hu hfg => exact .waiting h (D.trans ht hu) hfg
  | exhausted => exact .exhausted

/-- The work goes on in a state to which the first one leads. -/
theorem Alike.bindFrom {u : World} {x y : Outcome α} {f g : α → World → Outcome β}
    (h : D.Alike P u x y)
    (hfg : ∀ a w v, D.Rel w v → D.leads u w → P a w → D.Alike R w (f a w) (g a v)) :
    D.Alike R u (x.bind f) (y.bind g) := by
  induction h with
  | value h hu ha => exact (hfg _ _ _ h hu ha).after hu
  | error h hu => exact .error h hu
  | panic h hu => exact .panic h hu
  | waiting h hu _ ih =>
    refine .waiting h hu fun h hl => ih h hl fun a w v h hl' ha => ?_
    exact hfg a w v h (D.trans hu (D.trans hl hl')) ha
  | exhausted => exact .exhausted

theorem Alike.bind {u : World} {x y : Outcome α} {f g : α → World → Outcome β}
    (h : D.Alike P u x y)
    (hfg : ∀ a w v, D.Rel w v → P a w → D.Alike R w (f a w) (g a v)) :
    D.Alike R u (x.bind f) (y.bind g) :=
  h.bindFrom fun a w v h _ ha => hfg a w v h ha

theorem Alike.monoFrom {u : World} {x y : Outcome α} (h : D.Alike P u x y)
    (hPQ : ∀ a w, D.holds w → D.leads u w → P a w → Q a w) : D.Alike Q u x y := by
  have same := h.bindFrom (f := .value) (g := .value) fun a w v h hl ha =>
    .value h (D.refl w) (hPQ a w h.holds hl ha)
  rwa [Outcome.bind_pure, Outcome.bind_pure] at same

/-- What is known of the value of an attempt. -/
def OnOk (P : α → World → Prop) (result : Except Error α) (w : World) : Prop :=
  ∀ a, result = .ok a → P a w

theorem Alike.attempt {u : World} {x y : Outcome α} (h : D.Alike P u x y) :
    D.Alike (OnOk P) u x.attempt y.attempt := by
  induction h with
  | value h hu ha => exact .value h hu fun _ e => by cases e; exact ha
  | error h hu => exact .value h hu fun _ e => nomatch e
  | panic h hu => exact .panic h hu
  | waiting h hu _ ih => exact .waiting h hu fun h hl => ih h hl
  | exhausted => exact .exhausted

/-! ## Rules -/

theorem Gives.mono {act : Eval α} (h : D.Gives P act)
    (hPQ : ∀ a w, D.holds w → P a w → Q a w) : D.Gives Q act :=
  ⟨fun hctx _ _ hw => (h.run hctx hw).mono hPQ⟩

theorem Gives.keeps {act : Eval α} (h : D.Gives P act) : D.Keeps act :=
  h.mono fun _ _ _ _ => trivial

theorem gives_pure {a : α} (h : ∀ w, D.holds w → P a w) : D.Gives P (pure a) :=
  ⟨fun _ _ _ hw => .value hw (D.refl _) (h _ hw.holds)⟩

theorem keeps_pure (a : α) : D.Keeps (pure a : Eval α) :=
  gives_pure fun _ _ => trivial

theorem gives_fail (e : Error) : D.Gives P (Eval.fail e : Eval α) :=
  ⟨fun _ _ _ hw => .error hw (D.refl _)⟩

theorem gives_exhausted : D.Gives P (Eval.exhausted : Eval α) :=
  ⟨fun _ _ _ _ => .exhausted⟩

theorem gives_panic (message : Option String) : D.Gives P (Eval.panic message : Eval α) :=
  ⟨fun _ _ _ hw => .panic hw (D.refl _)⟩

/-- The value of the first part and the state in which it was given are known to the second. -/
theorem Gives.bindIn {act : Eval α} {f : α → Eval β} (h : D.Gives P act)
    (hf : ∀ a {ctx : Context}, D.Admits ctx → ∀ {w v : World}, D.Rel w v → P a w →
      D.Alike R w (f a ctx w) (f a ctx v)) : D.Gives R (act >>= f) := by
  refine ⟨fun hctx w v hw => ?_⟩
  rw [Eval.bind_apply, Eval.bind_apply]
  exact (h.run hctx hw).bind fun a _ _ hw ha => hf a hctx hw ha

/-- What is known of the value of the first part for good is known to the second. -/
theorem Gives.bindOf {p : α → Prop} {act : Eval α} {f : α → Eval β}
    (h : D.Gives (fun a _ => p a) act) (hf : ∀ a, p a → D.Gives R (f a)) :
    D.Gives R (act >>= f) :=
  h.bindIn fun a _ hctx _ _ hw ha => (hf a ha).run hctx hw

theorem Gives.bind {act : Eval α} {f : α → Eval β} (h : D.Gives P act)
    (hf : ∀ a, D.Gives R (f a)) : D.Gives R (act >>= f) :=
  h.bindIn fun a _ hctx _ _ hw _ => (hf a).run hctx hw

theorem keeps_bind {act : Eval α} {f : α → Eval β} (h : D.Keeps act)
    (hf : ∀ a, D.Gives R (f a)) : D.Gives R (act >>= f) :=
  h.bind hf

/-- A result is made of the value. -/
theorem Gives.andReturn {act : Eval α} (h : D.Gives P act) (f : α → β) :
    D.Keeps (act >>= fun a => pure (f a)) :=
  h.bind fun _ => keeps_pure _

theorem Gives.ite {c : Prop} [Decidable c] {act other : Eval α} (h : D.Gives P act)
    (h' : D.Gives P other) : D.Gives P (if c then act else other) := by
  split
  · exact h
  · exact h'

theorem Gives.attempt {act : Eval α} (h : D.Gives P act) : D.Gives (OnOk P) act.attempt :=
  ⟨fun hctx _ _ hw => (h.run hctx hw).attempt⟩

theorem Gives.holding {act : Eval α} (h : D.Gives P act) (places : List Place) :
    D.Gives P (Eval.holding places act) :=
  ⟨fun hctx _ _ hw => h.run (hctx.withThread _) hw⟩

theorem Gives.onThread {act : Eval α} (h : D.Gives P act) (id : ThreadId) (pooled : Bool) :
    D.Gives P (Eval.onThread id pooled act) :=
  ⟨fun hctx _ _ hw => h.run (hctx.withThread _) hw⟩

theorem keeps_ofExcept (result : Except Error α) : D.Keeps (Eval.ofExcept result) := by
  cases result with
  | ok a => exact keeps_pure a
  | error e => exact gives_fail e

/-! ## Readings and changes -/

/-- A reading that does not look at the learner. -/
theorem gives_gets {f : World → α} (hf : ∀ w l, f (w.withLearner l) = f w)
    (h : ∀ w, D.holds w → P (f w) w) : D.Gives P (Eval.gets f) := by
  refine ⟨fun _ w v hw => ?_⟩
  rw [Eval.gets_apply, Eval.gets_apply, show f v = f w by rw [hw.same, hf]]
  exact .value hw (D.refl _) (h _ hw.holds)

theorem keeps_gets {f : World → α} (hf : ∀ w l, f (w.withLearner l) = f w) :
    D.Keeps (Eval.gets f) :=
  gives_gets hf fun _ _ => trivial

/-- The whole state is read, and what is done with it does not depend on the learner. -/
theorem gives_world {f : World → Eval β} (hf : ∀ w l, f (w.withLearner l) = f w)
    (h : ∀ w, D.holds w → D.Gives R (f w)) : D.Gives R (Eval.world >>= f) := by
  refine ⟨fun hctx w v hw => ?_⟩
  rw [Eval.bind_apply, Eval.bind_apply, Eval.world_apply, Eval.world_apply, Outcome.bind_value,
    Outcome.bind_value, show f v = f w by rw [hw.same, hf]]
  exact (h w hw.holds).run hctx hw

theorem keeps_thread : D.Keeps Eval.thread :=
  ⟨fun _ _ _ hw => .value hw (D.refl _) trivial⟩

theorem keeps_budget : D.Keeps Eval.budget :=
  ⟨fun _ _ _ hw => .value hw (D.refl _) trivial⟩

variable (D) in
/-- The change has nothing to do with the learner, and the discipline permits it. -/
structure Respects (g : World → World) : Prop where
  withLearner (w : World) (learner : Learner) : g (w.withLearner learner) = (g w).withLearner learner
  holds {w : World} (hw : D.holds w) : D.holds (g w) ∧ D.leads w (g w)

theorem Respects.rel {g : World → World} (hg : D.Respects g) {w v : World} (h : D.Rel w v) :
    D.Rel (g w) (g v) := by
  refine ⟨?_, fun hs => by rw [h.alone hs], (hg.holds h.holds).1⟩
  rw [h.same, hg.withLearner]
  rfl

theorem keeps_modify {g : World → World} (hg : D.Respects g) : D.Keeps (Eval.modify g) :=
  ⟨fun _ _ _ h => .value (hg.rel h) (hg.holds h.holds).2 trivial⟩

theorem Respects.aside {g : World → World} (hr : ∀ w : World, w.SameRecords (g w))
    (hg : ∀ w l, g (w.withLearner l) = (g w).withLearner l) : D.Respects g :=
  ⟨hg, fun {w} hw => D.aside (hr w) hw⟩

/-- A change that touches neither the learner nor a record that matters. -/
theorem keeps_modifyAside {g : World → World} (hr : ∀ w : World, w.SameRecords (g w))
    (hg : ∀ w l, g (w.withLearner l) = (g w).withLearner l) : D.Keeps (Eval.modify g) :=
  keeps_modify (.aside hr hg)

/-- A change with a result, neither of which depends on the learner. -/
theorem gives_modifyGet {f : World → α × World}
    (hf : ∀ w l, f (w.withLearner l) = ((f w).1, (f w).2.withLearner l))
    (hw : ∀ w, D.holds w → D.holds (f w).2 ∧ D.leads w (f w).2)
    (hP : ∀ w, D.holds w → P (f w).1 (f w).2) : D.Gives P (Eval.modifyGet f) := by
  refine ⟨fun _ w v h => ?_⟩
  have hv : f v = ((f w).1, (f w).2.withLearner v.learner) := (congrArg f h.same).trans (hf _ _)
  have alone (hs : D.single) : (f w).2.withLearner v.learner = (f w).2 := by
    rw [show f v = f w by rw [h.alone hs]] at hv
    exact (congrArg (·.2) hv).symm
  rw [Eval.modifyGet_apply, Eval.modifyGet_apply, hv]
  obtain ⟨hold, lead⟩ := hw _ h.holds
  exact .value ⟨rfl, alone, hold⟩ lead (hP _ h.holds)

theorem keeps_modifyGet {f : World → α × World}
    (hf : ∀ w l, f (w.withLearner l) = ((f w).1, (f w).2.withLearner l))
    (hw : ∀ w, D.holds w → D.holds (f w).2 ∧ D.leads w (f w).2) : D.Keeps (Eval.modifyGet f) :=
  gives_modifyGet hf hw fun _ _ => trivial

/-- A change with a result that touches neither the learner nor a record that matters. -/
theorem keeps_modifyGetAside {f : World → α × World}
    (hf : ∀ w l, f (w.withLearner l) = ((f w).1, (f w).2.withLearner l))
    (hr : ∀ w : World, w.SameRecords (f w).2) : D.Keeps (Eval.modifyGet f) :=
  keeps_modifyGet hf fun w hw => D.aside (hr w) hw

/-- A change after which the states still differ in the learner only. -/
theorem keeps_modifyLearner {g : World → World}
    (hg : ∀ w l, ∃ m, g (w.withLearner l) = (g w).withLearner m)
    (hr : ∀ w : World, w.SameRecords (g w)) : D.Keeps (Eval.modify g) := by
  refine ⟨fun _ w v h => ?_⟩
  obtain ⟨hold, lead⟩ := D.aside (hr w) h.holds
  obtain ⟨m, hm⟩ := hg w v.learner
  refine .value ⟨?_, fun hs => by rw [h.alone hs], hold⟩ lead trivial
  rw [h.same, hm]
  rfl

/-! ## What the context starts -/

theorem keeps_evaluate {e : Expr} (he : D.allows e) (scope : ScopeId) (item : Option Value) :
    D.Keeps (Eval.evaluate e scope item) :=
  ⟨fun hctx _ _ hw => hctx.evaluate he scope item _ hw⟩

theorem gives_force (id : LambdaId) : D.Gives Settled (Eval.force id) :=
  ⟨fun hctx _ _ hw => hctx.force id _ hw⟩

theorem keeps_wait (on : Wait) : D.Keeps (Eval.wait on) := by
  refine ⟨fun {ctx} _ w v hw => ?_⟩
  have park : D.Respects (World.park · ctx.thread.id ctx.thread.held) :=
    .aside (fun _ => ⟨⟨rfl, rfl, rfl, rfl⟩, rfl, rfl⟩) fun _ _ => rfl
  have unpark : D.Respects (World.unpark · ctx.thread.id) :=
    .aside (fun _ => ⟨⟨rfl, rfl, rfl, rfl⟩, rfl, rfl⟩) fun _ _ => rfl
  rw [Eval.wait_apply, Eval.wait_apply]
  refine .waiting (park.rel hw) (park.holds hw.holds).2 fun hw _ => ?_
  exact .value (unpark.rel hw) (unpark.holds hw.holds).2 trivial

theorem Gives.nested {act : Eval α} (h : D.Gives P act) : D.Gives P (Eval.nested act) := by
  refine ⟨fun hctx w v hw => ?_⟩
  have hconfig : v.config = w.config := by rw [hw.same]; rfl
  unfold Eval.nested
  rw [hconfig]
  split
  · exact .error hw (D.refl _)
  · exact h.run (hctx.withThread _) hw

/-! ## Loops -/

theorem keeps_inTurn {γ : Type} {work : α → γ → Eval α} {items : List γ}
    (h : ∀ a, ∀ item ∈ items, D.Keeps (work a item)) (named : α → List Place)
    (places : γ → List Place) (first : α) :
    D.Keeps (Eval.inTurn named places work first items) := by
  induction items generalizing first with
  | nil => exact keeps_pure first
  | cons item items ih =>
    rw [Eval.inTurn_cons]
    refine ((h first item List.mem_cons_self).holding _).bind fun result => ?_
    exact ih (fun a item hitem => h a item (List.mem_cons_of_mem _ hitem)) result

end Discipline

end Reactor
