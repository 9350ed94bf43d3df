import Reactor.Engine.Machine
import Reactor.Proofs.Discipline.Engine
import Reactor.Proofs.Traits.Scripts

/-!
# Scripts that do not predict

A script predicts if the operation `predict` occurs in it, be it in the body of a lambda that it
makes. Scripts that do not predict are a discipline (`Discipline.unpredicting`), which the
evaluation of scripts keeps: every other operation is indifferent to the learner. With that an
induction on the budget shows that the machine keeps the discipline too.
-/

namespace Reactor

/-- The records of the state hold no script that predicts, and no lambda keeps a deferred result. -/
structure World.Unpredicting (w : World) : Prop where
  script {id : LambdaId} {e : Expr} (h : (w.lambdaAt id).body = .script e) : e.predicts = false
  callback {id : LambdaId} {key : ListenerKey} {c : Callback}
    (h : (key, .callback c) ∈ (w.lambdaAt id).listeners) : c.body.predicts = false
  settled {id : LambdaId} {v : Value} (h : (w.lambdaAt id).cache = .holding v) : v.lambda? = none
  subscriber {id : QueueId} {n : Nat} {c : Callback}
    (h : (n, c) ∈ (w.queueAt id).subscribers) : c.body.predicts = false
  forked (id : ForkId) : (w.forkAt id).body.predicts = false
  defined {name : String} {e : Expr} (h : (name, e) ∈ w.desk.definitions) : e.predicts = false

namespace World.Unpredicting

variable {w : World} (hw : w.Unpredicting)
include hw

/-- A change of lambdas that brings no script that predicts. -/
theorem ofTame {v : World}
    (h : ∀ id, (w.lambdaAt id).Tame (·.predicts = false) (v.lambdaAt id))
    (hq : v.queues = w.queues) (hf : v.forks = w.forks)
    (hd : v.desk.definitions = w.desk.definitions) : v.Unpredicting where
  script hs := hw.script ((h _).body ▸ hs)
  callback hc := ((h _).callback hc).elim hw.callback id
  settled hv := ((h _).cache hv).elim hw.settled id
  subscriber hs := by
    simp only [queueAt, hq] at hs
    exact hw.subscriber hs
  forked fork := by simpa [forkAt, hf] using hw.forked fork
  defined hs := hw.defined (hd ▸ hs)

theorem ofSame {v : World} (h : w.SameScripts v) : v.Unpredicting := by
  refine hw.ofTame (fun id => ?_) h.queues h.forks h.definitions
  rw [show v.lambdaAt id = w.lambdaAt id by simp [lambdaAt, h.lambdas]]
  exact ⟨rfl, rfl, .inl, .inl⟩

theorem modifyLambda (lambda : LambdaId) {f : LambdaRecord → LambdaRecord}
    (h : (w.lambdaAt lambda).Tame (·.predicts = false) (f (w.lambdaAt lambda))) :
    (w.modifyLambda lambda f).Unpredicting := by
  refine hw.ofTame (fun id => ?_) rfl rfl rfl
  rw [lambdaAt_modifyLambda]
  split
  · rename_i found
    rw [← found.1]
    exact h
  · exact ⟨rfl, rfl, .inl, .inl⟩

theorem newLambda {record : LambdaRecord} (h : record.Fresh (·.predicts = false)) :
    ({ w with lambdas := w.lambdas.push record } : World).Unpredicting := by
  have at_or (id : LambdaId) :
      ({ w with lambdas := w.lambdas.push record } : World).lambdaAt id = record ∨
        ({ w with lambdas := w.lambdas.push record } : World).lambdaAt id = w.lambdaAt id := by
    unfold lambdaAt
    rw [getD_push]
    split
    · exact .inl rfl
    · exact .inr rfl
  refine { hw with script := fun {id _} hs => ?_, callback := fun {id _ _} hc => ?_, settled := fun {id _} hv => ?_ }
  · rcases at_or id with hid | hid
    · exact h.body (hid ▸ hs)
    · exact hw.script (hid ▸ hs)
  · rcases at_or id with hid | hid
    · rw [hid, h.listeners] at hc
      cases hc
    · exact hw.callback (hid ▸ hc)
  · rcases at_or id with hid | hid
    · rw [hid, h.cache] at hv
      cases hv
    · exact hw.settled (hid ▸ hv)

theorem modifyQueue (queue : QueueId) {f : QueueRecord → QueueRecord}
    (h : ∀ entry ∈ (f (w.queueAt queue)).subscribers,
      entry ∈ (w.queueAt queue).subscribers ∨ entry.2.body.predicts = false) :
    (w.modifyQueue queue f).Unpredicting := by
  refine { hw with subscriber := fun {other _ _} hc => ?_ }
  rw [queueAt_modifyQueue] at hc
  split at hc
  · rename_i found
    rw [← found.1] at hc
    exact (h _ hc).elim hw.subscriber id
  · exact hw.subscriber hc

theorem newQueue (items : List Value) :
    ({ w with queues := w.queues.push { items } } : World).Unpredicting := by
  refine { hw with subscriber := fun {other _ _} hc => ?_ }
  rw [queueAt, getD_push] at hc
  split at hc
  · cases hc
  · exact hw.subscriber hc

theorem newFork {record : ForkRecord} (h : record.body.predicts = false) :
    ({ w with forks := w.forks.push record } : World).Unpredicting := by
  refine { hw with forked := fun other => ?_ }
  rw [forkAt, getD_push]
  split
  · exact h
  · exact hw.forked other

theorem define (name : String) {body : Expr} (h : body.predicts = false) :
    (w.modifyDesk fun desk =>
      { desk with definitions := Entries.insert desk.definitions name body }).Unpredicting := by
  refine { hw with defined := fun hd => ?_ }
  rcases Entries.mem_insert hd with hd | hd
  · exact hw.defined hd
  · cases hd
    exact h

theorem finishFork (fork : ForkId) (outcome : Except Error Value) :
    (w.finishFork fork outcome).Unpredicting := by
  refine { hw with forked := fun other => ?_ }
  have body : ((w.finishFork fork outcome).forkAt other).body = (w.forkAt other).body := by
    unfold forkAt World.finishFork
    rw [getD_modify]
    split <;> rfl
  exact body ▸ hw.forked other

end World.Unpredicting

namespace Discipline

/-- Scripts that do not predict. Nothing else is asked of a run. -/
def unpredicting : Discipline where
  allows e := e.predicts = false
  single := False
  holds := World.Unpredicting
  leads _ _ := True
  firstScope := 0
  lets _ _ := True
  refl _ := trivial
  trans _ _ := trivial
  script hw _ _ h := hw.script h
  callback hw _ _ _ h := hw.callback h
  settled hw _ _ h := hw.settled h
  subscriber hw _ _ _ h := hw.subscriber h
  forked hw id := hw.forked id
  firstScope_le _ := Nat.zero_le _
  lets_of_not_bears _ _ _ _ := trivial
  aside h hw := ⟨hw.ofSame h.toSameScripts, trivial⟩
  lambda id _ h _ hw := ⟨hw.modifyLambda id h, trivial⟩
  newLambda h hw := ⟨hw.newLambda h, trivial⟩
  queue id _ h hw := ⟨hw.modifyQueue id h, trivial⟩
  newQueue items hw := ⟨hw.newQueue items, trivial⟩
  newFork h _ hw := ⟨hw.newFork h, trivial⟩
  scope _ _ _ hw := ⟨hw.ofSame ⟨rfl, rfl, rfl, rfl⟩, trivial⟩
  newScope _ _ hw := ⟨hw.ofSame ⟨rfl, rfl, rfl, rfl⟩, trivial⟩
  destroy _ hw := ⟨hw.ofSame ⟨rfl, rfl, rfl, rfl⟩, trivial⟩

/-- The discipline allows the scripts that do not predict, or all scripts if there is one run only. It
does not care for variables, nor for scopes as long as they make a tree. -/
structure Hosts (D : Discipline) : Prop extends D.Free where
  allows_iff {e : Expr} : D.allows e ↔ D.single ∨ e.predicts = false
  defined {w : World} (hw : D.holds w) {name : String} {e : Expr}
    (h : (name, e) ∈ w.desk.definitions) : D.allows e
  define {w : World} (hw : D.holds w) (name : String) {body : Expr} (h : D.allows body) :
    D.holds (w.modifyDesk fun desk =>
        { desk with definitions := Entries.insert desk.definitions name body }) ∧
      D.leads w (w.modifyDesk fun desk =>
        { desk with definitions := Entries.insert desk.definitions name body })

theorem hosts_unpredicting : unpredicting.Hosts where
  change h _ hw := ⟨World.Unpredicting.ofSame hw h, trivial⟩
  allows_iff := Iff.of_eq (false_or _).symm
  defined hw _ _ h := World.Unpredicting.defined hw h
  define hw name _ h := ⟨World.Unpredicting.define hw name h, trivial⟩

variable {D : Discipline}

/-- If there is one run only, it may read the learner. -/
theorem keeps_getsAlone {α : Type} (hs : D.single) (f : World → α) : D.Keeps (Eval.gets f) := by
  refine ⟨fun {ctx} _ {w v} hw => ?_⟩
  rw [hw.alone hs]
  exact .value (.refl hw.holds) (D.refl _) trivial

/-- If there is one run only, the learner may be changed on account of what it holds. -/
theorem keeps_modifyGetAlone {α : Type} (hs : D.single) {f : World → α × World}
    (hr : ∀ w : World, w.SameRecords (f w).2) : D.Keeps (Eval.modifyGet f) := by
  refine ⟨fun {ctx} _ {w v} hw => ?_⟩
  rw [hw.alone hs]
  obtain ⟨holds, leads⟩ := D.aside (hr w) hw.holds
  exact .value (.refl holds) leads trivial

/-! ## Evaluation -/

theorem keeps_ofScript (scope : ScopeId) (operation : String) (inputs : List Value) {body : Expr}
    (h : D.allows body) (source : Option Segment) (fixable : Bool) :
    D.Keeps (LambdaId.ofScript scope operation inputs body source fixable) := by
  refine (keeps_scopeRecord scope).bind fun _ => keeps_newLambda ⟨fun {_} hb => ?_, rfl, rfl⟩
  cases hb
  exact h

/-- Definitions that the state holds are allowed. -/
theorem gives_definition (hD : D.Hosts) (name : String) :
    D.Gives (fun e _ => D.allows e)
      (Eval.gets fun w => (Entries.get? w.desk.definitions name).getD .void) := by
  refine gives_gets (fun _ _ => rfl) fun w hw => ?_
  cases h : Entries.get? w.desk.definitions name with
  | none => exact hD.allows_iff.2 (.inr rfl)
  | some e => exact hD.defined hw (Entries.mem_of_get?_eq_some h)

/-- What scripts do beside working with values keeps the discipline. -/
theorem hosts (hD : D.Hosts) : D.trait.Hosts D.single where
  get := keeps_getName
  parameter := keeps_getParameter
  set := keeps_set hD.toFree
  declare scope name v := keeps_declare hD.toFree scope name v {}
  notify := keeps_notify
  predict hs _ := keeps_getsAlone hs _
  lambda scope operation inputs _ h source fixable :=
    keeps_ofScript scope operation inputs (hD.allows_iff.2 h) source fixable
  definition name _ h := (gives_definition hD name).bindOf fun e he => h e (hD.allows_iff.1 he)

theorem keeps_evalAll (hD : D.Hosts) (scope : ScopeId) (item : Option Value) (es : List Expr)
    (he : D.single ∨ Expr.anyPredicts es = false) : D.Keeps (Expr.evalAll scope item es) :=
  Trait.has_evalAll (hosts hD) scope item es he

theorem keeps_eval (hD : D.Hosts) (e : Expr) (he : D.single ∨ e.predicts = false) (scope : ScopeId)
    (item : Option Value) : D.Keeps (e.eval scope item) :=
  Trait.has_eval (hosts hD) e he scope item

/-! ## The machine -/

/-- What the machine starts keeps to scripts that are allowed, within every budget. -/
theorem admits_ofBudget (hD : D.Hosts) (budget : Nat) (thread : Thread) :
    D.Admits (Context.ofBudget budget thread) := by
  induction budget generalizing thread with
  | zero =>
    exact
      { evaluate := fun {_} _ _ _ _ {_ _} _ => .exhausted
        force := fun _ _ {_ _} _ => .exhausted }
  | succ budget ih =>
    exact
      { evaluate := fun {e} he scope item thread {_ _} h =>
          (keeps_eval hD e (hD.allows_iff.1 he) scope item).run (ih thread) h
        force := fun id thread {_ _} h => (gives_forceLambda id).run (ih thread) h }

end Discipline

end Reactor
