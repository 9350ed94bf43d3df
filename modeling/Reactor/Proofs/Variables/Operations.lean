import Reactor.Proofs.Variables.Acceptance

/-!
# Operations conduct themselves

Whatever the engine does beside writing variables is a conduct, if the scripts that it runs conduct
themselves (`Conduct.ofKept`). So is a declaration and an assignment as a whole, with the notification
of all who follow the variable, if scripts do not write the name meanwhile (`Conduct.ofDeclare`,
`Conduct.ofSet`). The conducts that `Conduct` puts together are the ones that operations make.

That a state can become another one by a conduct is a discipline (`Discipline.conducting`), which
every function of the engine keeps that keeps all disciplines.
-/

namespace Reactor

open Discipline

/-- Scripts conduct themselves under the terms. -/
def Host.Conducts (host : Host) (T : Terms) : Prop :=
  ∀ budget e scope item thread v, v.Sound → T.Fit v →
    Within T v (host budget e scope item thread v)

namespace Discipline

/-- A state becomes another one by a conduct. -/
def conducting (T : Terms) : Discipline where
  allows _ := True
  single := True
  holds w := w.Sound ∧ T.Fit w
  leads := Conduct T
  firstScope := T.firstFree
  lets _ _ := True
  refl _ := .refl
  trans := .trans
  script _ _ _ _ := trivial
  callback _ _ _ _ _ := trivial
  settled := @World.settled_of_fit T
  subscriber _ _ _ _ _ := trivial
  forked _ _ := trivial
  firstScope_le := @Terms.firstFree_le_of_fit T
  lets_of_not_bears _ _ _ _ := trivial
  aside h hw := ofAside (.ofSame h.scopes h.vars h.lambdas) hw
  lambda id _ h _ hw := ofAside (.modifyLambda id h) hw
  newLambda h hw := ofAside (.newLambda h) hw
  queue _ _ _ hw := ofAside (.ofSame rfl rfl rfl) hw
  newQueue _ hw := ofAside (.ofSame rfl rfl rfl) hw
  newFork _ _ hw := ofAside (.ofSame rfl rfl rfl) hw
  scope id _ h hw := ofAside (.modifyScope id h) hw
  newScope h _ hw := ofAside (.newScope h) hw
  destroy {w id} h hw := by
    have spared : id ∉ T.spared := fun hs => absurd (Terms.lt_firstFree hs) (Nat.not_lt.2 h)
    have run : id.destroy (.hosting .silent 0 default) w =
        .value () (w.modifyScope id ScopeRecord.ended) := rfl
    have conduct : Conduct T w (w.modifyScope id ScopeRecord.ended) := .destroy spared run
    exact ⟨(conduct.tends hw).1, conduct⟩
where
  ofAside {w v : World} (h : w.Aside v) (hw : w.Sound ∧ T.Fit w) :
      (v.Sound ∧ T.Fit v) ∧ Conduct T w v :=
    ⟨(h.tends hw).1, .aside h⟩

end Discipline

/-! ## Fewer names are being written -/

mutual

/-- A conduct that leaves more names alone is one that leaves these alone. -/
theorem Conduct.weaken {T T' : Terms} {u w : World} (h : Conduct T' u w)
    (hspared : T.spared = T'.spared) (hidle : T.idle = T'.idle)
    (hbusy : ∀ name ∈ T.busy, name ∈ T'.busy) : Conduct T u w := by
  have writing (name other : String) (h : other ∈ (T.writing name).busy) :
      other ∈ (T'.writing name).busy := by
    rcases List.mem_cons.1 h with rfl | h
    · exact List.mem_cons_self
    · exact List.mem_cons_of_mem _ (hbusy other h)
  have fit {v : World} (h : T.Fit v) : T'.Fit v := by
    unfold Terms.Fit
    rw [← hspared]
    exact h
  match h with
  | .refl => exact .refl
  | .trans h h' => exact .trans (h.weaken hspared hidle hbusy) (h'.weaken hspared hidle hbusy)
  | .aside h => exact .aside h
  | .twin h => exact .twin h
  | .clear hscope h => exact .clear (hspared ▸ hscope) h
  | .destroy hscope h => exact .destroy (hspared ▸ hscope) h
  | .declare hname hbudget hhost h =>
    refine .declare (fun hb => hname (hbusy _ hb)) hbudget (fun budget e scope item thread v hv hT => ?_)
      (h.weaken hspared hidle (writing _))
    exact (hhost budget e scope item thread v hv (fit hT)).weaken hspared hidle (writing _)
  | .assign hname hbudget hfound howner hhost h =>
    refine .assign (fun hb => hname (hbusy _ hb)) hbudget hfound (hidle ▸ howner)
      (fun budget e scope item thread v hv hT => ?_) (h.weaken hspared hidle (writing _))
    exact (hhost budget e scope item thread v hv (fit hT)).weaken hspared hidle (writing _)

theorem Within.weaken {T T' : Terms} {u : World} {x : Outcome Value} (h : Within T' u x)
    (hspared : T.spared = T'.spared) (hidle : T.idle = T'.idle)
    (hbusy : ∀ name ∈ T.busy, name ∈ T'.busy) : Within T u x := by
  match h with
  | .value h => exact .value (h.weaken hspared hidle hbusy)
  | .error h => exact .error (h.weaken hspared hidle hbusy)
  | .panic h => exact .panic (h.weaken hspared hidle hbusy)
  | .waiting h hf =>
    refine .waiting (h.weaken hspared hidle hbusy) fun v hv hT => ?_
    have fit : T'.Fit v := by
      unfold Terms.Fit
      rw [← hspared]
      exact hT
    exact (hf v hv fit).weaken hspared hidle hbusy
  | .exhausted => exact .exhausted

theorem Ends.weaken {α : Type} {T T' : Terms} {x : Outcome α} {result : Except Error α} {w : World}
    (h : Ends T' x result w) (hspared : T.spared = T'.spared) (hidle : T.idle = T'.idle)
    (hbusy : ∀ name ∈ T.busy, name ∈ T'.busy) : Ends T x result w := by
  match h with
  | .value => exact .value
  | .error => exact .error
  | .waiting h h' =>
    exact .waiting (h.weaken hspared hidle hbusy) (h'.weaken hspared hidle hbusy)

end

theorem Conduct.ofWriting {T : Terms} {name : String} {u w : World}
    (h : Conduct (T.writing name) u w) : Conduct T u w :=
  h.weaken rfl rfl fun _ hn => List.mem_cons_of_mem _ hn

/-! ## Computations that keep every discipline -/

/-- What scripts do under the terms keeps the discipline. -/
theorem Within.alikeConducting {T : Terms} {u : World} {x : Outcome Value} (h : Within T u x)
    (hu : u.Sound ∧ T.Fit u) : (conducting T).Alike (fun _ _ => True) u x x := by
  match h with
  | .value h => exact .value (.refl (h.tends hu).1) h trivial
  | .error h => exact .error (.refl (h.tends hu).1) h
  | .panic h => exact .panic (.refl (h.tends hu).1) h
  | .waiting h hf =>
    refine .waiting (.refl (h.tends hu).1) h fun {v v'} hv _ => ?_
    rw [hv.alone trivial]
    exact (hf v hv.holds.1 hv.holds.2).alikeConducting hv.holds
  | .exhausted => exact .exhausted

/-- A computation that keeps the discipline has conducted itself when it ends. -/
theorem Ends.conduct {α : Type} {T : Terms} {x : Outcome α} {result : Except Error α} {u w : World}
    {P : α → World → Prop} (h : Ends T x result w) (hx : (conducting T).Alike P u x x) :
    (w.Sound ∧ T.Fit w) ∧ Conduct T u w := by
  match h with
  | .value =>
    cases hx with
    | value hw lead _ => exact ⟨hw.holds, lead⟩
  | .error =>
    cases hx with
    | error hw lead => exact ⟨hw.holds, lead⟩
  | .waiting h h' =>
    cases hx with
    | waiting hw lead hf =>
      have hv := (h.tends hw.holds).1
      obtain ⟨hw, lead'⟩ := h'.conduct (hf (.refl hv) h)
      exact ⟨hw, lead.trans (h.trans lead')⟩

section Kept

variable {T : Terms} {host : Host} {budget : Nat} {thread : Thread} {w w' : World}

/-- Scripts that conduct themselves keep the discipline. -/
theorem Host.Conducts.admitsConducting (h : host.Conducts T) (budget : Nat) (thread : Thread) :
    (conducting T).Admits (.hosting host budget thread) :=
  admits_hosting (D := conducting T) trivial (fun budget e scope item thread v hv =>
    (h budget e scope item thread v hv.1 hv.2).alikeConducting hv) budget thread

/-- Whatever keeps every discipline is a conduct: readings, parameters, new scopes and lambdas,
forced lambdas, notifications. -/
theorem Conduct.ofKept {α : Type} {act : Eval α} (hact : (conducting T).Keeps act)
    (hhost : host.Conducts T) (hw : w.Sound ∧ T.Fit w) {result : Except Error α}
    (h : Ends T (act (.hosting host budget thread) w) result w') :
    (w'.Sound ∧ T.Fit w') ∧ Conduct T w w' :=
  h.conduct (hact.run (hhost.admitsConducting budget thread) (.refl hw))

/-! ## Declarations and assignments as a whole -/

variable {name : String} {result : Except Error Value}

/-- What comes after a write: all who follow the variable are notified. -/
theorem Conduct.ofTold {scope : ScopeId} {held : List Place} {value : Value}
    (hhost : host.Conducts (T.writing name)) (hw : w.Sound ∧ T.Fit w)
    (h : Ends (T.writing name) ((do
      Eval.holding held (scope.notify name)
      return value) (Context.hosting host budget thread) w) result w') : Conduct T w w' := by
  have kept : (conducting (T.writing name)).Keeps (do
      Eval.holding held (scope.notify name)
      return value) :=
    ((keeps_notifyName scope name).holding held).bind fun _ => keeps_pure value
  exact (ofKept kept hhost hw h).2.ofWriting

theorem Conduct.ofDeclare {scope : ScopeId} {value : Value} {declaration : Declaration}
    (hname : name ∉ T.busy) (hbudget : budget < Value.maxDepth)
    (hhost : host.Conducts (T.writing name)) (hw : w.Sound ∧ T.Fit w)
    (h : Ends (T.writing name)
      (scope.declare name value declaration (.hosting host budget thread) w) result w') :
    Conduct T w w' := by
  unfold ScopeId.declare at h
  rw [Eval.bind_apply] at h
  rcases h.bind_cases with ⟨e, rfl, failed⟩ | ⟨proposal, v, proposed, h₁⟩
  · exact (ofKept (keeps_propose scope name value declaration) hhost hw failed).2.ofWriting
  · have bound : Conduct T w (v.bindVariable scope name proposal.record) :=
      .declare hname hbudget hhost proposed
    rw [Eval.bind_apply, Eval.modify_apply, Outcome.bind_value] at h₁
    exact bound.trans (ofTold hhost (bound.tends hw).1 h₁)

theorem Conduct.ofAssign {scope owner : ScopeId} {id : VariableId} {value : Value}
    (hname : name ∉ T.busy) (hbudget : budget < Value.maxDepth)
    (hhost : host.Conducts (T.writing name)) (hw : w.Sound ∧ T.Fit w)
    (hfound : w.findVariable? scope name = some (owner, id))
    (hidle : id ∈ T.idle → thread.id ≠ (w.variableAt id).thread)
    (h : Ends (T.writing name)
      (scope.assign owner id name value (.hosting host budget thread) w) result w') :
    Conduct T w w' := by
  unfold ScopeId.assign at h
  rw [Eval.bind_apply] at h
  rcases h.bind_cases with ⟨e, rfl, failed⟩ | ⟨stored, v, proposed, h₁⟩
  · exact (ofKept (keeps_proposeValue scope owner id name value) hhost hw failed).2.ofWriting
  · have assigned : Conduct T w (v.storeValue id stored) :=
      .assign hname hbudget hfound hidle hhost proposed
    rw [Eval.bind_apply, Eval.modify_apply, Outcome.bind_value] at h₁
    exact assigned.trans (ofTold hhost (assigned.tends hw).1 h₁)

/-- A thread other than the one that declared the variable assigns it. -/
theorem Conduct.ofSet {scope : ScopeId} {value : Value} (hname : name ∉ T.busy)
    (hbudget : budget < Value.maxDepth) (hhost : host.Conducts (T.writing name))
    (hw : w.Sound ∧ T.Fit w)
    (hidle : ∀ owner id, w.findVariable? scope name = some (owner, id) → id ∈ T.idle →
      thread.id ≠ (w.variableAt id).thread)
    (h : Ends (T.writing name) (scope.set name value (.hosting host budget thread) w) result w') :
    Conduct T w w' := by
  unfold ScopeId.set at h
  rw [Eval.bind_apply] at h
  rcases ScopeId.checkAlive_cases scope (.hosting host budget thread) w with ⟨e, run⟩ | ⟨-, run⟩
  · rw [run] at h
    cases h
    exact .refl
  rw [run, Outcome.bind_value] at h
  cases hp : isPositional name with
  | true =>
    rw [hp] at h
    cases h
    exact .refl
  | false =>
    rw [hp, if_neg nofun, Eval.bind_apply, Eval.gets_apply, Outcome.bind_value] at h
    cases hf : w.findVariable? scope name with
    | none =>
      rw [hf] at h
      exact ofDeclare hname hbudget hhost hw h
    | some found =>
      rw [hf] at h
      exact ofAssign hname hbudget hhost hw hf (hidle found.1 found.2 hf) h

end Kept

end Reactor
