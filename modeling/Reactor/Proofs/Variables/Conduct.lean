import Reactor.Engine.Machine
import Reactor.Proofs.Variables.Writes

/-!
# Runs that declare and assign variables

A `Host` says what scripts do. A machine with a host (`Context.hosting`) forces lambdas as the engine
does and leaves the evaluation of scripts to the host. Initialisers, conditions, handlers and
callbacks are such scripts.

`Conduct T u w` says that a state can become another one under some terms: by declarations and
assignments, by any thread and in any order, by copies of scopes, by clearing and destroying them, and
by whatever else leaves the variables alone. While a variable is being written, the scripts of its
initialiser and of its condition run. They conduct themselves under the same terms, except that they
do not write that name (`Within`), and so do other threads while they wait (`Ends`).

Every conduct keeps what holds of variables, and a state leads on to those after it
(`Conduct.tends`). The proof is by induction on the conduct. A write is made of a computation
(`Discipline.alike_storable`), whose scripts keep the discipline by the hypothesis of the induction,
and of a change of the state (`World.Sound.bind`, `World.Sound.store`).
-/

namespace Reactor

/-- What scripts do when they are evaluated, for each budget. -/
abbrev Host :=
  Nat → Expr → ScopeId → Option Value → Thread → World → Outcome Value

/-- No script is evaluated. -/
def Host.silent : Host :=
  fun _ _ _ _ _ _ => .exhausted

/-- A thread of a machine on which a host says what scripts do. -/
def Context.hosting (host : Host) : Nat → Thread → Context
  | 0, thread =>
    { thread
      budget := 0
      evaluate := fun _ _ _ _ _ => .exhausted
      force := fun _ _ _ => .exhausted }
  | budget + 1, thread =>
    { thread
      budget := budget + 1
      evaluate := host budget
      force := fun lambda thread w => lambda.force (hosting host budget thread) w }

@[simp] theorem Context.thread_hosting (host : Host) (budget : Nat) (thread : Thread) :
    (hosting host budget thread).thread = thread := by
  cases budget <;> rfl

@[simp] theorem Context.budget_hosting (host : Host) (budget : Nat) (thread : Thread) :
    (hosting host budget thread).budget = budget := by
  cases budget <;> rfl

/-- The machine is one whose scripts do what the evaluation of expressions says. -/
theorem Context.ofBudget_eq_hosting (budget : Nat) (thread : Thread) :
    ofBudget budget thread =
      hosting (fun budget e scope item thread => e.eval scope item (ofBudget budget thread))
        budget thread := by
  induction budget generalizing thread with
  | zero => rfl
  | succ budget ih =>
    have force : (fun (lambda : LambdaId) thread w => lambda.force (ofBudget budget thread) w) =
        fun lambda thread w => lambda.force (hosting (fun budget e scope item thread =>
          e.eval scope item (ofBudget budget thread)) budget thread) w := by
      funext lambda thread w
      rw [ih]
    exact congrArg (Context.mk thread (budget + 1) _) force

mutual

/-- The first state can become the second one under the terms. -/
inductive Conduct : Terms → World → World → Prop
  | refl {T : Terms} {w : World} : Conduct T w w
  | trans {T : Terms} {u v w : World} (h : Conduct T u v) (h' : Conduct T v w) : Conduct T u w
  | aside {T : Terms} {w w' : World} (h : w.Aside w') : Conduct T w w'
  | twin {T : Terms} {w w' : World} {ctx : Context} {scope copy : ScopeId}
    (h : scope.twin ctx w = .value copy w') : Conduct T w w'
  | clear {T : Terms} {w w' : World} {ctx : Context} {scope : ScopeId} (hscope : scope ∉ T.spared)
    (h : scope.clear ctx w = .value () w') : Conduct T w w'
  | destroy {T : Terms} {w w' : World} {ctx : Context} {scope : ScopeId}
    (hscope : scope ∉ T.spared) (h : scope.destroy ctx w = .value () w') : Conduct T w w'
  /-- A declaration, which ends when the variable has been bound. -/
  | declare {T : Terms} {w w' : World} {host : Host} {budget : Nat} {thread : Thread}
    {scope : ScopeId} {name : String} {value : Value} {declaration : Declaration}
    {proposal : ScopeId.Proposal} (hname : name ∉ T.busy) (hbudget : budget < Value.maxDepth)
    (hhost : ∀ budget e scope item thread v, v.Sound → T.Fit v →
      Within (T.writing name) v (host budget e scope item thread v))
    (h : Ends (T.writing name)
      (scope.propose name value declaration (.hosting host budget thread) w) (.ok proposal) w') :
    Conduct T w (w'.bindVariable scope name proposal.record)
  /-- An assignment, which ends when the value has been stored. -/
  | assign {T : Terms} {w w' : World} {host : Host} {budget : Nat} {thread : Thread}
    {scope owner : ScopeId} {id : VariableId} {name : String} {value stored : Value}
    (hname : name ∉ T.busy) (hbudget : budget < Value.maxDepth)
    (hfound : w.findVariable? scope name = some (owner, id))
    (hidle : id ∈ T.idle → thread.id ≠ (w.variableAt id).thread)
    (hhost : ∀ budget e scope item thread v, v.Sound → T.Fit v →
      Within (T.writing name) v (host budget e scope item thread v))
    (h : Ends (T.writing name)
      (scope.proposeValue owner id name value (.hosting host budget thread) w) (.ok stored) w') :
    Conduct T w (w'.storeValue id stored)

/-- The outcome of a computation that is begun in a state comes about under the terms, in whatever
states it is resumed. -/
inductive Within : Terms → World → Outcome Value → Prop
  | value {T : Terms} {u w : World} {v : Value} (h : Conduct T u w) : Within T u (.value v w)
  | error {T : Terms} {u w : World} {e : Error} (h : Conduct T u w) : Within T u (.error e w)
  | panic {T : Terms} {u w : World} {message : Option String} (h : Conduct T u w) :
    Within T u (.panic message w)
  | waiting {T : Terms} {on : Wait} {u w : World} {f : World → Outcome Value} (h : Conduct T u w)
    (hf : ∀ v, v.Sound → T.Fit v → Within T v (f v)) : Within T u (.waiting on w f)
  | exhausted {T : Terms} {u : World} : Within T u .exhausted

/-- The computation comes to an end, with a result and in a state, if others go on under the terms
while it waits. -/
inductive Ends : {α : Type} → Terms → Outcome α → Except Error α → World → Prop
  | value {α : Type} {T : Terms} {a : α} {w : World} : Ends T (.value a w) (.ok a) w
  | error {α : Type} {T : Terms} {e : Error} {w : World} :
    Ends T (.error e w : Outcome α) (.error e) w
  | waiting {α : Type} {T : Terms} {on : Wait} {u v w : World} {f : World → Outcome α}
    {result : Except Error α} (h : Conduct T u v) (h' : Ends T (f v) result w) :
    Ends T (.waiting on u f) result w

end

/-! ## What a machine with a host keeps -/

namespace Discipline

/-- If scripts keep the discipline, so does the machine. -/
theorem admits_hosting {D : Discipline} (hD : D.single) {host : Host}
    (hhost : ∀ budget e scope item thread v, D.holds v →
      D.Alike (fun _ _ => True) v (host budget e scope item thread v)
        (host budget e scope item thread v)) (budget : Nat) (thread : Thread) :
    D.Admits (.hosting host budget thread) := by
  induction budget generalizing thread with
  | zero =>
    exact
      { evaluate := fun {_} _ _ _ _ {_ _} _ => .exhausted
        force := fun _ _ {_ _} _ => .exhausted }
  | succ budget ih =>
    exact
      { evaluate := fun {e} _ scope item thread {w v} h => by
          rw [h.alone hD]
          exact hhost budget e scope item thread w h.holds
        force := fun id thread {_ _} h => (gives_forceLambda id).run (ih thread) h }

end Discipline

open Discipline

/-! ## Steps -/

theorem ScopeId.rescoped_of_twin {T : Terms} {ctx : Context} {w w' : World} {scope copy : ScopeId}
    (hT : T.Fit w) (h : scope.twin ctx w = .value copy w') : World.Rescoped T w w' := by
  unfold ScopeId.twin at h
  rw [Eval.bind_apply] at h
  rcases checkAlive_cases scope ctx w with ⟨e, run⟩ | ⟨-, run⟩
  · rw [run] at h
    cases h
  · rw [run] at h
    cases h
    exact .ofCopied hT scope rfl rfl

theorem ScopeId.rescoped_of_clear {T : Terms} {ctx : Context} {w w' : World} {scope : ScopeId}
    (hscope : scope ∉ T.spared) (h : scope.clear ctx w = .value () w') : World.Rescoped T w w' := by
  unfold ScopeId.clear ScopeId.record at h
  rw [Eval.bind_apply, Eval.gets_apply, Outcome.bind_value] at h
  cases hp : (w.scopeAt scope).pure with
  | true =>
    rw [hp] at h
    cases h
  | false =>
    rw [hp, if_neg nofun, Eval.bind_apply] at h
    rcases checkAlive_cases scope ctx w with ⟨e, run⟩ | ⟨-, run⟩
    · rw [run] at h
      cases h
    · rw [run] at h
      cases h
      exact .ofEmptied hscope ScopeRecord.pure_emptied fun r => .inr (ScopeRecord.vars_emptied r)

theorem ScopeId.rescoped_of_destroy {T : Terms} {ctx : Context} {w w' : World} {scope : ScopeId}
    (hscope : scope ∉ T.spared) (h : scope.destroy ctx w = .value () w') : World.Rescoped T w w' := by
  cases h
  exact .ofEmptied hscope ScopeRecord.pure_ended ScopeRecord.vars_ended

namespace World

variable {T : Terms} {w w' : World} {scope owner : ScopeId} {name : String} {id : VariableId}

theorem named_of_findVariable? (h : w.findVariable? scope name = some (owner, id)) :
    w.Named id name := by
  obtain ⟨other, -, hother⟩ := List.exists_of_findSome?_eq_some h
  obtain ⟨found, hfound, heq⟩ := Option.map_eq_some_iff.1 hother
  cases heq
  exact ⟨_, hfound⟩

/-- What has been checked when a declaration goes on still holds when the variable is bound. -/
theorem Declares.declarable {flags : VariableFlags} {constraint : Option Constraint}
    (h : w.Declares scope name flags constraint) (hw : w.Sound)
    (lead : Leads (T.writing name) w w') {value : Value}
    (hvalue : Storable flags constraint value w') (thread : ThreadId) :
    w'.Declarable scope name { value, flags, constraint, thread } := by
  have hscope : scope.index < w.scopes.size := lt_of_alive h.alive
  have old {id : VariableId} (hid : w'.own? scope name = some id) :
      w.own? scope name = some id ∧ id.index < w.vars.size := by
    have hold := lead.fresh hscope List.mem_cons_self hid
    exact ⟨hold, hw.bound ⟨scope, hold⟩⟩
  refine ⟨⟨hvalue.suits.numeric, hvalue.suits.fixed, hvalue.marked⟩, fun hp => ?_, fun hid => ?_,
    fun hid c hc => ?_⟩
  · rw [lead.pure hscope] at hp
    exact h.pure hp
  · obtain ⟨hold, hlt⟩ := old hid
    rw [lead.record hlt]
    exact h.writable hold
  · obtain ⟨hold, hlt⟩ := old hid
    rw [lead.record hlt] at hc
    exact h.constraint hold hc

theorem Leads.ofWriting (h : Leads (T.writing name) w w') : Leads T w w' :=
  h.weaken rfl rfl fun _ hn => List.mem_cons_of_mem _ hn

end World

/-! ## The induction -/

section Writes

variable {T : Terms} {host : Host} {w : World} {name : String}

/-- What is known of a declaration when it ends. -/
def Proposed (w : World) (scope : ScopeId) (name : String) (p : ScopeId.Proposal) (w' : World) :
    Prop :=
  w.Declares scope name p.record.flags p.record.constraint ∧
    Storable p.record.flags p.record.constraint p.record.value w'

theorem alike_propose {ctx : Context} (hctx : (tending T).Admits ctx)
    (hbudget : ctx.budget < Value.maxDepth) (hw : w.Sound ∧ T.Fit w) (scope : ScopeId)
    (value : Value) (declaration : Declaration) :
    (tending T).Alike (Proposed w scope name) w (scope.propose name value declaration ctx w)
      (scope.propose name value declaration ctx w) := by
  rcases ScopeId.propose_cases scope name ctx w value declaration with ⟨e, run⟩ |
    ⟨flags, constraint, held, checked, run⟩
  · rw [run]
    exact .error (.refl hw) (.refl w)
  · rw [run]
    have stored : (tending T).Alike (Storable flags constraint) w
        (Eval.holding held (scope.storable name value flags constraint fun _ =>
          w.valueUnder scope name) ctx w)
        (Eval.holding held (scope.storable name value flags constraint fun _ =>
          w.valueUnder scope name) ctx w) :=
      alike_storable World.Leads.fixable (hctx.withThread _) (by exact hbudget) (.refl hw) _ _ _ _ _
        fun _ _ => rfl
    refine stored.bind fun value v v' h hvalue => ?_
    exact .value h (.refl v) ⟨checked, hvalue⟩

theorem alike_proposeValue {ctx : Context} (hctx : (tending T).Admits ctx)
    (hbudget : ctx.budget < Value.maxDepth) (hw : w.Sound ∧ T.Fit w) (scope owner : ScopeId)
    (id : VariableId) (value : Value) :
    (tending T).Alike (fun v w' => ((w.variableAt id).flags.readonly = false ∧
        ((w.variableAt id).flags.volatile = true ∨ (w.variableAt id).thread = ctx.thread.id)) ∧
        Storable (w.variableAt id).flags (w.variableAt id).constraint v w') w
      (scope.proposeValue owner id name value ctx w)
      (scope.proposeValue owner id name value ctx w) := by
  rcases ScopeId.proposeValue_cases scope name ctx w owner id value with ⟨e, run⟩ |
    ⟨writable, owned, run⟩
  · rw [run]
    exact .error (.refl hw) (.refl w)
  · rw [run]
    have stored : (tending T).Alike
        (Storable (w.variableAt id).flags (w.variableAt id).constraint) w
        (Eval.holding [.variable id] (scope.storable name value (w.variableAt id).flags
          (w.variableAt id).constraint fun w => (w.variableAt id).value) ctx w)
        (Eval.holding [.variable id] (scope.storable name value (w.variableAt id).flags
          (w.variableAt id).constraint fun w => (w.variableAt id).value) ctx w) :=
      alike_storable World.Leads.fixable (hctx.withThread _) (by exact hbudget) (.refl hw) _ _ _ _ _
        fun _ _ => rfl
    exact stored.mono fun v w' _ hv => ⟨⟨writable, owned⟩, hv⟩

end Writes

theorem Terms.Fit.later {T : Terms} {u w : World} (h : T.Fit u) (lead : World.Leads T u w) :
    T.Fit w :=
  fun scope hscope => Nat.lt_of_lt_of_le (h scope hscope) lead.scopes

mutual

/-- What holds of variables is kept, and the state leads on. -/
theorem Conduct.tends {T : Terms} {u w : World} (h : Conduct T u w) (hu : u.Sound ∧ T.Fit u) :
    (w.Sound ∧ T.Fit w) ∧ World.Leads T u w := by
  match h with
  | .refl => exact ⟨hu, .refl _⟩
  | .trans h h' =>
    obtain ⟨hv, lead⟩ := h.tends hu
    obtain ⟨hw, lead'⟩ := h'.tends hv
    exact ⟨hw, lead.trans lead'⟩
  | .aside h => exact h.tends hu
  | .twin h => exact (ScopeId.rescoped_of_twin hu.2 h).tends hu
  | .clear hscope h => exact (ScopeId.rescoped_of_clear hscope h).tends hu
  | .destroy hscope h => exact (ScopeId.rescoped_of_destroy hscope h).tends hu
  | @Conduct.declare _ _ v host budget thread scope name _ _ proposal hname hbudget hhost h =>
    have admits : (tending (T.writing name)).Admits (.hosting host budget thread) :=
      admits_hosting (D := tending (T.writing name)) trivial (fun budget e scope item thread v hv =>
        (hhost budget e scope item thread v hv.1 hv.2).alike hv) budget thread
    obtain ⟨⟨hv, lead⟩, hp⟩ := h.gives (alike_propose admits (by simpa using hbudget) hu _ _ _)
    obtain ⟨checked, stored⟩ := hp _ rfl
    have bound : v.Declarable scope name proposal.record :=
      checked.declarable hu.1 lead stored proposal.record.thread
    have lead' := lead.ofWriting.trans (.bind bound hname)
    exact ⟨⟨hv.1.bind bound, hu.2.later lead'⟩, lead'⟩
  | @Conduct.assign _ _ v host budget thread scope owner id name _ value hname hbudget hfound hidle
      hhost h =>
    have admits : (tending (T.writing name)).Admits (.hosting host budget thread) :=
      admits_hosting (D := tending (T.writing name)) trivial (fun budget e scope item thread v hv =>
        (hhost budget e scope item thread v hv.1 hv.2).alike hv) budget thread
    obtain ⟨⟨hv, lead⟩, hp⟩ := h.gives (alike_proposeValue admits (by simpa using hbudget) hu _ _ _ _)
    obtain ⟨⟨writable, owned⟩, stored⟩ := hp _ rfl
    have named := World.named_of_findVariable? hfound
    have hrecord := lead.record (hu.1.bound named)
    have sound : ({ v.variableAt id with value } : VariableRecord).Sound v := by
      rw [hrecord]
      exact ⟨stored.suits.numeric, stored.suits.fixed, stored.marked⟩
    have assigned : World.Assigned T u id name := by
      refine ⟨writable, ?_, named, hname⟩
      by_cases idle : id ∈ T.idle
      · refine .inl (owned.resolve_right fun same => hidle idle ?_)
        rw [same, Context.thread_hosting]
      · exact .inr idle
    have lead' : World.Leads T u (v.storeValue id value) := lead.ofWriting.store assigned
    exact ⟨⟨hv.1.store sound, hu.2.later lead'⟩, lead'⟩

/-- Scripts keep the discipline. -/
theorem Within.alike {T : Terms} {u : World} {x : Outcome Value} (h : Within T u x)
    (hu : u.Sound ∧ T.Fit u) : (tending T).Alike (fun _ _ => True) u x x := by
  match h with
  | .value h =>
    obtain ⟨hw, lead⟩ := h.tends hu
    exact .value (.refl hw) lead trivial
  | .error h =>
    obtain ⟨hw, lead⟩ := h.tends hu
    exact .error (.refl hw) lead
  | .panic h =>
    obtain ⟨hw, lead⟩ := h.tends hu
    exact .panic (.refl hw) lead
  | .waiting h hf =>
    obtain ⟨hw, lead⟩ := h.tends hu
    refine .waiting (.refl hw) lead fun {v v'} hv _ => ?_
    rw [hv.alone trivial]
    exact (hf v hv.holds.1 hv.holds.2).alike hv.holds
  | .exhausted => exact .exhausted

/-- What is known of a computation is known of its result in the end. -/
theorem Ends.gives {α : Type} {T : Terms} {x : Outcome α} {result : Except Error α} {w : World}
    (h : Ends T x result w) {P : α → World → Prop} {u : World} (hx : (tending T).Alike P u x x) :
    ((w.Sound ∧ T.Fit w) ∧ World.Leads T u w) ∧ ∀ a, result = .ok a → P a w := by
  match h with
  | .value =>
    cases hx with
    | value hw lead ha => exact ⟨⟨hw.holds, lead⟩, fun _ e => by cases e; exact ha⟩
  | .error =>
    cases hx with
    | error hw lead => exact ⟨⟨hw.holds, lead⟩, nofun⟩
  | .waiting h h' =>
    cases hx with
    | waiting hw lead hf =>
      obtain ⟨hv, lead'⟩ := h.tends hw.holds
      obtain ⟨⟨hw, lead''⟩, hP⟩ := h'.gives (hf (.refl hv) lead')
      exact ⟨⟨hw, lead.trans (lead'.trans lead'')⟩, hP⟩

end

end Reactor
