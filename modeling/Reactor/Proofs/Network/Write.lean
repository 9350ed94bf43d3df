import Reactor.Proofs.Network.Pass
import Reactor.Proofs.Purity.Steady
import Reactor.Proofs.Variables.Writes

/-!
# Writes to the variables of a network

A write stores a plain value in a variable and notifies those who follow it. Between the two only the
lambdas that the notification reaches keep results that are out of date, since all others read other
variables (`InOrder.changed`). So the network is in order after a declaration (`declare_inOrder`) and
after an assignment (`set_inOrder`).
-/

namespace Reactor

namespace Eval

variable {α : Type} {ctx : Context} {w : World}

theorem Steady.leaves {P : α → Prop} {act : Eval α} (h : Steady P act) :
    (act ctx w).Leaves fun r v => w.Beside v ∧ ∀ a, r = .ok a → P a := by
  rcases h ctx with run | ⟨r, hr, run⟩
  · exact .inl (run w)
  · rw [run]
    cases r with
    | ok a => exact .value ⟨.refl w, hr⟩
    | error e => exact .error ⟨.refl w, hr⟩

end Eval

/-! ## Values to be stored -/

namespace ScopeId

variable {scope : ScopeId} {name : String} {value : Value} {ctx : Context} {w : World}

/-- What a write leaves before it stores anything: the state as it was, and a plain value. -/
abbrev Kept (w : World) (r : Except Error Value) (v : World) : Prop :=
  w.Beside v ∧ ∀ a, r = .ok a → a.Plain

theorem share_leaves (hvalue : value.Plain) : (value.share ctx w).Leaves (Kept w) := by
  rw [Value.share_apply]
  refine .value ⟨⟨rfl, rfl, rfl, rfl, rfl⟩, fun a ha => ?_⟩
  cases ha
  exact hvalue.of_unmark_eq (Value.unmark_markFrom _ _)

theorem fail_leaves {α : Type} {P : α → Prop} (e : Error) :
    ((Eval.fail e : Eval α) ctx w).Leaves fun r v => w.Beside v ∧ ∀ a, r = .ok a → P a :=
  (Eval.steady_fail e).leaves

theorem prepare_leaves (hvalue : value.Plain) (flags : VariableFlags) :
    (prepare name value flags ctx w).Leaves (Kept w) := by
  have checked {value : Value} (hvalue : value.Plain) {ctx : Context} {w : World} :
      ((if flags.numeric && !value.isLambda && !value.tag.isNumeric then
        Eval.fail (.new .invalidCast
          ("Variable '" ++ name ++ "' is numeric and cannot hold " ++ value.tag.name))
        else value.share) ctx w).Leaves (Kept w) := by
    split
    · exact fail_leaves _
    · exact share_leaves hvalue
  unfold prepare
  split
  · refine Eval.leaves_bind ((Value.steady_fixDeep hvalue).holding _).leaves ?_ ?_
    · rintro fixed v ⟨hv, hfixed⟩
      exact (checked (hfixed fixed rfl)).mono fun r v' h => ⟨hv.trans h.1, h.2⟩
    · exact fun e v h => ⟨h.1, fun a ha => by cases ha⟩
  · exact checked hvalue

theorem checkConstraint_leaves {constraint : Constraint} (hc : constraint.predicate.Plain)
    (hvalue : value.Plain) (previous : Value) :
    (scope.checkConstraint name constraint value previous ctx w).Leaves fun _ v => w.Beside v := by
  have verdict : scope.verdict name constraint value previous = pure constraint.predicate := by
    unfold ScopeId.verdict
    rw [hc.lambda?_eq_none]
  unfold checkConstraint
  rw [verdict, pure_bind]
  have steady : Eval.Steady (fun _ => True) (do
      if !(← constraint.predicate.isTrue) then
        Eval.fail (constraintFailed name constraint.source ((← value.human) ++ " is not allowed"))) := by
    refine (Value.steady_isTrue hc).bind fun holds _ => ?_
    split
    · exact (Value.steady_human hvalue).bind fun _ _ => Eval.steady_fail _
    · exact Eval.steady_pure trivial
  exact (steady.holding _).leaves.mono fun _ _ h => h.1

theorem storable_leaves (hvalue : value.Plain) (flags : VariableFlags) {constraint : Option Constraint}
    (hc : ∀ c, constraint = some c → c.predicate.Plain) (previous : World → Value) :
    (scope.storable name value flags constraint previous ctx w).Leaves (Kept w) := by
  refine Eval.leaves_bind (prepare_leaves hvalue flags) ?_ fun e v h => ⟨h.1, fun a ha => by cases ha⟩
  rintro value v ⟨hv, hvalue⟩
  have hvalue := hvalue value rfl
  unfold constrain
  cases constraint with
  | none =>
    refine Outcome.Leaves.value ⟨hv, fun a ha => ?_⟩
    cases ha
    exact hvalue
  | some c =>
    dsimp only
    rw [Eval.bind_apply, Eval.gets_apply, Outcome.bind_value]
    refine Eval.leaves_bind (checkConstraint_leaves (hc c rfl) hvalue (previous v)) ?_
      fun e v' h => ⟨hv.trans h, fun a ha => by cases ha⟩
    intro _ v' hv'
    rw [Eval.bind_apply]
    cases hmarked : value.constrain c.source with
    | error e =>
      exact Outcome.Leaves.error ⟨hv.trans hv', fun a ha => by cases ha⟩
    | ok marked =>
      have plain : marked.Plain := by
        obtain ⟨data, notes⟩ := value
        obtain ⟨data', notes'⟩ := marked
        cases (Value.constrain_eq_ok hmarked).1
        exact hvalue
      exact (share_leaves plain).mono fun r x h => ⟨(hv.trans hv').trans h.1, h.2⟩

end ScopeId

/-! ## Those who follow a variable -/

namespace World

variable {scope owner : ScopeId} {plan : Plan} {need : Nat} {calm : Prop} {u v w : World}
  {name : String} {k : LambdaId} {budget : Nat} {thread : Thread} {ctx : Context}

theorem modifyScope_of_eq {f : ScopeRecord → ScopeRecord} (h : f (w.scopeAt scope) = w.scopeAt scope) :
    w.modifyScope scope f = w := by
  have same : w.scopes.modify scope.index f = w.scopes := by
    refine Array.ext (Array.size_modify ..) fun i hi hi' => ?_
    rw [Array.getElem_modify]
    split
    · rename_i hk
      subst hk
      simpa [scopeAt, Array.getD, hi'] using h
    · rfl
  rw [modifyScope, same]

/-- If all who follow a name live, they stay registered, and all of them are notified. -/
theorem notify_eq_propagate {followers : List LambdaId}
    (hfollowers : (Entries.get? (w.scopeAt owner).listeners name).getD [] = followers)
    (hkeys : (Entries.keys (w.scopeAt owner).listeners).Nodup)
    (halive : ∀ k ∈ followers, (w.liveness ctx.thread.held).hasLambda k = true) :
    owner.notify name ctx w = LambdaId.propagate followers ctx w := by
  have live : owner.liveListeners name ctx w = .value followers w := by
    unfold ScopeId.liveListeners ScopeId.record
    rw [Eval.bind_apply, Eval.gets_apply, Outcome.bind_value, hfollowers]
    cases followers with
    | nil => rfl
    | cons first rest =>
      dsimp only
      rw [Eval.bind_apply, Eval.liveness, Outcome.bind_value, List.filter_eq_self.2 halive]
      rfl
  have kept : (Entries.modify (w.scopeAt owner).listeners name fun _ => followers) =
      (w.scopeAt owner).listeners := by
    unfold Entries.modify
    conv_rhs => rw [← List.map_id (w.scopeAt owner).listeners]
    refine List.map_congr_left fun entry hentry => ?_
    obtain ⟨key, listeners⟩ := entry
    dsimp only
    split
    · rename_i hkey
      subst hkey
      rw [← hfollowers, Entries.get?_of_mem hkeys hentry]
      rfl
    · rfl
  have same : (w.modifyScope owner fun record => { record with
      listeners := Entries.modify record.listeners name fun _ => followers }) = w :=
    modifyScope_of_eq (congrArg (fun listeners => { w.scopeAt owner with listeners }) kept)
  unfold ScopeId.notify
  rw [Eval.bind_apply, live, Outcome.bind_value, Eval.bind_apply, Eval.modify_apply,
    Outcome.bind_value, same]

/-- All who follow a variable of a network live. -/
theorem Wired.notify_eq (hw : w.Wired scope plan need calm) (hhome : w.home scope name = owner) :
    owner.notify name ctx w = LambdaId.propagate (w.followers scope name) ctx w := by
  refine notify_eq_propagate ?_ (hw.keys owner) fun k hk => hw.hasLambda (hw.reader hk).1 _
  rw [followers, hhome]

/-- The lambdas are as they were, and so are those who follow each name. -/
structure Revalued (scope : ScopeId) (w u : World) : Prop where
  config : u.config = w.config
  lambdas : u.lambdas = w.lambdas
  registers : u.desk.registers = w.desk.registers
  listeners (id : ScopeId) : (u.scopeAt id).listeners = (w.scopeAt id).listeners
  home (name : String) : u.home scope name = w.home scope name

theorem Revalued.wired (h : Revalued scope w u) (hw : w.Wired scope plan need calm)
    (hu : u.Readable scope) : u.Wired scope plan need calm := by
  have lambdaAt (k : LambdaId) : u.lambdaAt k = w.lambdaAt k := by
    rw [World.lambdaAt, World.lambdaAt, h.lambdas]
  have followers (name : String) : u.followers scope name = w.followers scope name := by
    rw [World.followers, World.followers, h.home, h.listeners]
  have shallow {n : Nat} {k : LambdaId} (hk : w.Shallow n k) : u.Shallow n k := by
    induction n generalizing k with
    | zero => exact hk
    | succ n ih =>
      intro id hid
      rw [lambdaAt] at hid
      exact ih (hk id hid)
  have size : u.lambdas.size = w.lambdas.size := congrArg Array.size h.lambdas
  refine ⟨hu, fun hc => ?_, fun id => ?_, fun {k} hk => ?_, fun {k} hk name hb => ?_,
    fun {name k} hk => ?_⟩
  · rw [h.config]
    exact hw.failFast hc
  · rw [h.listeners]
    exact hw.keys id
  · have wired := hw.lambda (size ▸ hk)
    refine ⟨?_, ?_, ?_, ?_, wired.older, fun hid => ?_, fun hl => ?_, ?_⟩
    · rw [lambdaAt, h.registers]
      exact wired.follows
    · rw [lambdaAt]
      exact wired.scope
    · rw [lambdaAt]
      exact wired.followed
    · rw [h.registers]
      exact wired.held
    · rw [lambdaAt]
      exact wired.edge hid
    · rw [lambdaAt] at hl
      cases wired.registered hl with
      | dependent hid hin => exact .dependent (size ▸ hid) hin
      | callback hkey ho => exact .callback hkey (h.registers ▸ ho)
    · rw [h.config]
      exact shallow wired.shallow
  · rw [followers]
    rw [lambdaAt] at hb
    exact hw.follower (size ▸ hk) hb
  · rw [followers] at hk
    obtain ⟨hlt, hb⟩ := hw.reader hk
    exact ⟨size ▸ hlt, (lambdaAt k).symm ▸ hb⟩

/-- A lambda that does not depend on the followers of a name gives the same whatever the name means. -/
theorem Wired.answer_of_not_reached (hu : u.Wired scope plan need calm) (hconfig : u.config = w.config)
    (hmeans : ∀ other, other ≠ name → u.means scope other = w.means scope other)
    (hk : k.index < u.lambdas.size) (hnot : ¬u.Reached (u.followers scope name) k) :
    u.answer scope plan k = w.answer scope plan k := by
  rw [World.answer, World.answer, hconfig]
  refine Plan.answer_congr (P := fun j => j < u.lambdas.size ∧
    ¬u.Reached (u.followers scope name) ⟨j⟩) (fun _ _ => rfl) ?_ ?_ ⟨hk, hnot⟩
  · rintro j ⟨hj, hnot⟩ ds
    have follows := (hu.lambda (k := ⟨j⟩) hj).follows
    generalize plan j = node at follows
    cases follows with
    | @lookup other hbody _ =>
      refine hmeans other fun h => hnot (.root ?_)
      exact h ▸ hu.follower hj hbody
    | script _ _ _ => rfl
  · rintro j ⟨hj, hnot⟩ id hid hlt
    refine ⟨Nat.lt_trans hlt hj, fun h => hnot (.dependent h ?_)⟩
    exact (hu.mem_dependents_iff (Nat.lt_trans hlt hj)).2 ⟨hj, hid⟩

/-- A name may have come to mean something else. -/
structure Changed (scope : ScopeId) (name : String) (w u : World) : Prop where
  revalued : w.Revalued scope u
  readable : u.Readable scope
  means {other : String} (h : other ≠ name) : u.means scope other = w.means scope other

/-- A variable of the name is found, and it holds the value. -/
def Stores (scope : ScopeId) (name : String) (x : Value) (w : World) : Prop :=
  ∃ owner id, w.findVariable? scope name = some (owner, id) ∧ (w.variableAt id).value = x

/-- Only lambdas that depend on the name may keep results that are out of date. -/
theorem InOrder.changed (hw : w.InOrder scope plan need calm) (h : w.Changed scope name u) :
    u.Wired scope plan need calm ∧ u.Idle ∧ ∀ {k : LambdaId} {x : Value},
      (u.lambdaAt k).cache = .holding x → ¬u.Reached (u.followers scope name) k →
        Answers (.ok x) (u.answer scope plan k) := by
  have hu := h.revalued.wired hw.wired h.readable
  have lambdaAt (k : LambdaId) : u.lambdaAt k = w.lambdaAt k := by
    rw [World.lambdaAt, World.lambdaAt, h.revalued.lambdas]
  refine ⟨hu, ⟨fun k id => ?_, fun k => ?_⟩, fun {k x} hc hnot => ?_⟩
  · rw [lambdaAt]
    exact hw.idle.computed k id
  · rw [lambdaAt]
    exact hw.idle.notified k
  · have hk : k.index < u.lambdas.size := by
      apply Nat.lt_of_not_le
      intro hle
      rw [lambdaAt_of_size_le hle] at hc
      cases hc
    rw [hu.answer_of_not_reached h.revalued.config (fun _ hne => h.means hne) hk hnot]
    rw [lambdaAt] at hc
    exact hw.coherent hc

/-- When the followers of a name that has changed its meaning have been notified, the network is in
order. -/
theorem InOrder.notify_yields (hw : w.InOrder scope plan need calm) (h : w.Changed scope name u)
    (hhome : u.home scope name = owner) (hthread : thread.depth = 0)
    (hbudget : 2 * w.config.maxDepth + need ≤ budget) :
    (owner.notify name (.ofBudget budget thread) u).Yields fun _ v =>
      u.Similar v ∧ v.InOrder scope plan need calm := by
  obtain ⟨hu, hidle, hcoherent⟩ := hw.changed h
  rw [hu.notify_eq hhome]
  exact propagate_yields hu hidle (fun k hk => (hu.reader hk).1) hthread
    (h.revalued.config ▸ hbudget) hcoherent

/-! ## Changed variables -/

theorem InOrder.beside (hw : w.InOrder scope plan need calm) (h : w.Beside v) :
    v.InOrder scope plan need calm := by
  have lambdaAt (k : LambdaId) : v.lambdaAt k = w.lambdaAt k := by
    rw [World.lambdaAt, World.lambdaAt, h.lambdas]
  have similar := h.recached.similar
  refine ⟨similar.wired hw.wired, ⟨fun k id => ?_, fun k => ?_⟩, fun {k x} hc => ?_⟩
  · rw [lambdaAt]
    exact hw.idle.computed k id
  · rw [lambdaAt]
    exact hw.idle.notified k
  · rw [lambdaAt] at hc
    rw [similar.answer]
    exact hw.coherent hc

/-- A name that a scope itself declares is found there. -/
theorem findVariable?_of_get? {id : VariableId}
    (h : Entries.get? (w.scopeAt scope).vars name = some id) :
    w.findVariable? scope name = some (scope, id) := by
  rw [findVariable?, ancestors, ancestorsUpTo, List.findSome?_cons, h]
  rfl

section Store

variable {id : VariableId} {x : Value} (hw : w.Readable scope)
  (hfound : w.findVariable? scope name = some (owner, id))
include hw

omit hw in
theorem revalued_storeValue (id : VariableId) (x : Value) :
    w.Revalued scope (w.storeValue id x) :=
  have scopes : (w.storeValue id x).scopes = w.scopes := rfl
  ⟨rfl, rfl, rfl, fun _ => rfl, fun other => home_congr scopes scope other⟩

theorem readable_storeValue (hx : x.Plain) : (w.storeValue id x).Readable scope := by
  have size : (w.storeValue id x).vars.size = w.vars.size := Array.size_modify ..
  have stored (other : VariableId) : (w.storeValue id x).variableAt other =
      if id = other ∧ other.index < w.vars.size then { w.variableAt other with value := x }
      else w.variableAt other :=
    variableAt_modifyVariable w id other _
  have scopes : (w.storeValue id x).scopes = w.scopes := rfl
  have find (name : String) := findVariable?_congr scopes scope name
  refine ⟨hw.alive, fun h => hw.unhandled (ancestors_congr scopes scope ▸ h), fun h => ?_,
    fun h => ?_, fun h c hc => ?_, fun h h' => hw.distinct (find _ ▸ h) (find _ ▸ h'),
    fun h => hw.parameter (findParameter?_congr scopes scope _ ▸ h)⟩
  · rw [size]
    exact hw.bound (find _ ▸ h)
  · rw [stored]
    split
    · exact hx
    · exact hw.plain (find _ ▸ h)
  · rw [stored] at hc
    split at hc
    · exact hw.condition (find _ ▸ h) hc
    · exact hw.condition (find _ ▸ h) hc

include hfound

theorem means_storeValue {other : String} (hne : other ≠ name) :
    (w.storeValue id x).means scope other = w.means scope other := by
  have scopes : (w.storeValue id x).scopes = w.scopes := rfl
  refine means_eq_of_found rfl ?_ (findParameter?_congr scopes scope other)
  rw [findVariable?_congr scopes]
  cases hother : w.findVariable? scope other with
  | none => rfl
  | some found =>
    refine congrArg some ?_
    refine (variableAt_modifyVariable w id found.2 _).trans (if_neg ?_)
    rintro ⟨hid, -⟩
    obtain ⟨owner', id'⟩ := found
    cases hid
    exact hne (hw.distinct hfound hother)

end Store

section Bind

variable {record : VariableRecord} (hw : w.Readable scope)
include hw

theorem findVariable?_bindVariable : (w.bindVariable scope name record).findVariable? scope name =
    some (scope, ⟨w.vars.size⟩) := by
  refine findVariable?_of_get? ?_
  rw [scopeAt_bindVariable, if_pos ⟨rfl, lt_of_alive hw.alive⟩]
  exact (Entries.get?_insert ..).trans (if_pos rfl)

omit hw in
theorem ancestors_bindVariable : (w.bindVariable scope name record).ancestors = w.ancestors := by
  funext id
  refine ancestors_of_parents (fun other => ?_) id
  rw [scopeAt_bindVariable]
  split <;> rfl

omit hw in
theorem findVariable?_bindVariable_of_ne {other : String} (hne : other ≠ name) :
    (w.bindVariable scope name record).findVariable? scope other = w.findVariable? scope other := by
  have vars (id : ScopeId) : Entries.get? ((w.bindVariable scope name record).scopeAt id).vars other =
      Entries.get? (w.scopeAt id).vars other := by
    rw [scopeAt_bindVariable]
    split
    · exact (Entries.get?_insert ..).trans (if_neg hne.symm)
    · rfl
  rw [findVariable?, findVariable?, ancestors_bindVariable]
  simp only [vars]

omit hw in
theorem findParameter?_bindVariable (key : String) :
    (w.bindVariable scope name record).findParameter? scope key = w.findParameter? scope key := by
  have parameters (id : ScopeId) : ((w.bindVariable scope name record).scopeAt id).parameters =
      (w.scopeAt id).parameters := by
    rw [scopeAt_bindVariable]
    split <;> rfl
  have parameterScope (id : ScopeId) :
      ((w.bindVariable scope name record).scopeAt id).parameterScope =
        (w.scopeAt id).parameterScope := by
    rw [scopeAt_bindVariable]
    split <;> rfl
  unfold findParameter? parameterScopes
  rw [ancestors_bindVariable]
  simp only [parameters, parameterScope]

theorem revalued_bindVariable (hhome : w.home scope name = scope) :
    w.Revalued scope (w.bindVariable scope name record) := by
  refine ⟨rfl, rfl, rfl, fun id => ?_, fun other => ?_⟩
  · rw [scopeAt_bindVariable]
    split <;> rfl
  · by_cases hother : other = name
    · rw [hother, hhome, home, findVariable?_bindVariable hw]
      rfl
    · rw [home, home, findVariable?_bindVariable_of_ne hother]

theorem home_bindVariable : (w.bindVariable scope name record).home scope name = scope := by
  rw [home, findVariable?_bindVariable hw]
  rfl

theorem readable_bindVariable (hvalue : record.value.Plain)
    (hc : ∀ c, record.constraint = some c → c.predicate.Plain) :
    (w.bindVariable scope name record).Readable scope := by
  have size : (w.bindVariable scope name record).vars.size = w.vars.size + 1 := Array.size_push _
  -- a name stands for the new variable or for the one that it stood for
  have find {other : String} {owner : ScopeId} {id : VariableId}
      (h : (w.bindVariable scope name record).findVariable? scope other = some (owner, id)) :
      (other = name ∧ id.index = w.vars.size) ∨
        (other ≠ name ∧ w.findVariable? scope other = some (owner, id) ∧ id.index < w.vars.size) := by
    by_cases hother : other = name
    · subst hother
      rw [findVariable?_bindVariable hw] at h
      cases h
      exact .inl ⟨rfl, rfl⟩
    · rw [findVariable?_bindVariable_of_ne hother] at h
      exact .inr ⟨hother, h, hw.bound h⟩
  refine ⟨?_, fun {above} h => ?_, fun h => ?_, fun h => ?_, fun h c hc' => ?_, fun h h' => ?_,
    fun h => ?_⟩
  · rw [scopeAt_bindVariable]
    split
    · exact hw.alive
    · exact hw.alive
  · rw [ancestors_bindVariable] at h
    rw [scopeAt_bindVariable]
    split
    · exact hw.unhandled h
    · exact hw.unhandled h
  · rw [size]
    rcases find h with ⟨-, hid⟩ | ⟨-, -, hid⟩ <;> omega
  · rw [variableAt_bindVariable]
    rcases find h with ⟨-, hid⟩ | ⟨-, hfound, hid⟩
    · rw [if_pos hid]
      exact hvalue
    · rw [if_neg (Nat.ne_of_lt hid)]
      exact hw.plain hfound
  · rw [variableAt_bindVariable] at hc'
    rcases find h with ⟨-, hid⟩ | ⟨-, hfound, hid⟩
    · rw [if_pos hid] at hc'
      exact hc c hc'
    · rw [if_neg (Nat.ne_of_lt hid)] at hc'
      exact hw.condition hfound hc'
  · rcases find h with ⟨hname, hid⟩ | ⟨-, hfound, hid⟩
    · rcases find h' with ⟨hname', -⟩ | ⟨-, -, hid'⟩
      · rw [hname, hname']
      · exact absurd hid (Nat.ne_of_lt hid')
    · rcases find h' with ⟨-, hid'⟩ | ⟨-, hfound', -⟩
      · exact absurd hid' (Nat.ne_of_lt hid)
      · exact hw.distinct hfound hfound'
  · rw [findParameter?_bindVariable] at h
    exact hw.parameter h

theorem means_bindVariable {other : String} (hne : other ≠ name) :
    (w.bindVariable scope name record).means scope other = w.means scope other := by
  refine means_eq_of_found ?_ ?_ (findParameter?_bindVariable other)
  · rw [scopeAt_bindVariable]
    split <;> rfl
  · rw [findVariable?_bindVariable_of_ne hne]
    cases hother : w.findVariable? scope other with
    | none => rfl
    | some found =>
      refine congrArg some ?_
      exact (variableAt_bindVariable ..).trans (if_neg (Nat.ne_of_lt (hw.bound hother)))

end Bind

end World

/-! ## Declarations and assignments -/

namespace ScopeId

variable {scope owner : ScopeId} {plan : Plan} {need : Nat} {calm : Prop} {v w : World}
  {name : String} {value : Value} {budget : Nat} {thread : Thread} {ctx : Context}

theorem checkThread_leaves (record : VariableRecord) :
    (checkThread name record ctx w).Leaves fun _ v => w.Beside v := by
  rcases checkThread_cases name ctx w record with ⟨e, run⟩ | ⟨-, run⟩
  · rw [run]
    exact .error (.refl w)
  · rw [run]
    exact .value (.refl w)

/-- A proposal holds a plain value, under a condition that is not deferred. -/
def Proposal.Calm (proposal : Proposal) : Prop :=
  proposal.record.value.Plain ∧ ∀ c, proposal.record.constraint = some c → c.predicate.Plain

theorem keepConstraint_plain {old new result : Option Constraint}
    (hold : ∀ c, old = some c → c.predicate.Plain) (hnew : ∀ c, new = some c → c.predicate.Plain)
    (h : keepConstraint name old new = .ok result) : ∀ c, result = some c → c.predicate.Plain := by
  unfold keepConstraint at h
  split at h
  · split at h
    · cases h
      exact hnew
    · cases h
  · cases h
    exact hold
  · cases h
    exact hnew

theorem propose_leaves (hw : w.Readable scope) (hvalue : value.Plain) {declaration : Declaration}
    (hc : ∀ c, declaration.constraint = some c → c.predicate.Plain) :
    (scope.propose name value declaration ctx w).Leaves fun r v =>
      w.Beside v ∧ ∀ a, r = .ok a → a.Calm := by
  have failed {α : Type} {e : Error} {u : World} {P : α → Prop} (hu : w.Beside u) :
      w.Beside u ∧ ∀ a, (.error e : Except Error α) = .ok a → P a :=
    ⟨hu, fun a ha => by cases ha⟩
  unfold propose
  rw [Eval.bind_apply, World.checkAlive_apply hw.alive, Outcome.bind_value]
  split
  · exact fail_leaves _
  rw [Eval.bind_apply]
  rcases declaredFlags_cases scope name ctx w declaration.flags with ⟨e, run⟩ | ⟨flags, -, run⟩
  · rw [run]
    exact .error (failed (.refl w))
  rw [run, Outcome.bind_value, Eval.bind_apply, Eval.gets_apply, Outcome.bind_value]
  have old : ∀ record, (Entries.get? (w.scopeAt scope).vars name).map w.variableAt = some record →
      ∀ c, record.constraint = some c → c.predicate.Plain := by
    intro record hrecord c hcond
    obtain ⟨id, hid, rfl⟩ := Option.map_eq_some_iff.1 hrecord
    exact hw.condition (World.findVariable?_of_get? hid) hcond
  generalize (Entries.get? (w.scopeAt scope).vars name).map w.variableAt = found at old
  refine Eval.leaves_bind (P := fun r v => w.Beside v ∧
    ∀ a, r = .ok a → ∀ c, a = some c → c.predicate.Plain) ?_ ?_ fun e v h => failed h.1
  · cases found with
    | none =>
      refine Outcome.Leaves.value ⟨.refl w, fun a ha => ?_⟩
      cases ha
      exact hc
    | some record =>
      dsimp only
      split
      · exact fail_leaves _
      · refine Eval.leaves_bind (checkThread_leaves record) ?_ fun e v h => failed h
        intro _ v hv
        cases hkept : keepConstraint name record.constraint declaration.constraint with
        | error e => exact Outcome.Leaves.error (failed hv)
        | ok constraint =>
          refine Outcome.Leaves.value ⟨hv, fun a ha => ?_⟩
          cases ha
          exact keepConstraint_plain (old record rfl) hc hkept
  · rintro constraint v ⟨hv, hconstraint⟩
    have hconstraint := hconstraint constraint rfl
    dsimp only
    rw [proposal_apply, Eval.holding_apply]
    refine (storable_leaves hvalue flags hconstraint _).bind ?_
      fun e v' h => failed (hv.trans h.1)
    rintro stored v' ⟨hv', hstored⟩
    refine .value ⟨hv.trans hv', fun a ha => ?_⟩
    cases ha
    exact ⟨hstored stored rfl, hconstraint⟩

section Writes

variable {Q : Except Error Value → World → Prop} (hw : w.InOrder scope plan need calm)
  (hvalue : value.Plain) (hfail : ∀ e v, w.Beside v → Q (.error e) v)
  (htell : ∀ {owner : ScopeId} {v u : World} {a : Value} {other : Thread}, w.Beside v →
    v.Changed scope name u → u.Stores scope name a → u.home scope name = owner →
    other.depth = thread.depth → other.id = thread.id →
    (owner.notify name (.ofBudget budget other) u).Leaves fun r x => Q (r.map fun _ => a) x)
include hw hvalue hfail htell

/-- A declaration fails, or changes what the name means and notifies those who follow it. The name is not
one of a scope above, so they are registered here. -/
theorem declare_leaves {declaration : Declaration}
    (hc : ∀ c, declaration.constraint = some c → c.predicate.Plain)
    (hhome : w.home scope name = scope) :
    (scope.declare name value declaration (.ofBudget budget thread) w).Leaves Q := by
  unfold declare
  refine Eval.leaves_bind (propose_leaves hw.wired.readable hvalue hc) ?_ fun e v h => hfail e v h.1
  rintro proposal v ⟨hv, hproposal⟩
  obtain ⟨hplain, hcondition⟩ := hproposal proposal rfl
  have hread := (hw.beside hv).wired.readable
  have hhome' : v.home scope name = scope := (World.home_congr hv.scopes scope name).trans hhome
  have changed : v.Changed scope name (v.bindVariable scope name proposal.record) :=
    ⟨World.revalued_bindVariable hread hhome', World.readable_bindVariable hread hplain hcondition,
      World.means_bindVariable hread⟩
  rw [Eval.bind_apply, Eval.modify_apply, Outcome.bind_value]
  have stores : (v.bindVariable scope name proposal.record).Stores scope name proposal.record.value := by
    refine ⟨_, _, World.findVariable?_bindVariable hread, ?_⟩
    rw [World.variableAt_bindVariable, if_pos rfl]
  refine Eval.leaves_bind (P := fun r x => Q (r.map fun _ => proposal.record.value) x) ?_
    (fun _ x hx => .value hx) fun e x hx => hx
  rw [Eval.holding_apply, Context.ofBudget_eq_machine, Context.machine_withThread,
    Context.thread_machine, ← Context.ofBudget_eq_machine]
  exact htell hv changed stores (World.home_bindVariable hread) rfl rfl

/-- An assignment to a variable that is found fails, or changes what the name means and notifies those who
follow it. -/
theorem assign_leaves {id : VariableId} (hfound : w.findVariable? scope name = some (owner, id)) :
    (scope.assign owner id name value (.ofBudget budget thread) w).Leaves Q := by
  have proposed : (scope.proposeValue owner id name value (.ofBudget budget thread) w).Leaves
      (Kept w) := by
    rcases proposeValue_cases scope name (.ofBudget budget thread) w owner id value with
      ⟨e, run⟩ | ⟨-, -, run⟩
    · rw [run]
      exact .error ⟨.refl w, fun a ha => by cases ha⟩
    · rw [run, Eval.holding_apply]
      exact storable_leaves hvalue _ (fun c hc => hw.wired.readable.condition hfound hc) _
  unfold assign
  refine Eval.leaves_bind proposed ?_ fun e v h => hfail e v h.1
  rintro stored v ⟨hv, hstored⟩
  have hplain := hstored stored rfl
  have hread := (hw.beside hv).wired.readable
  have hfound' : v.findVariable? scope name = some (owner, id) :=
    (World.findVariable?_congr hv.scopes scope name).trans hfound
  have hhome : (v.storeValue id stored).home scope name = owner := by
    have scopes : (v.storeValue id stored).scopes = v.scopes := rfl
    rw [World.home_congr scopes, World.home, hfound']
    rfl
  have changed : v.Changed scope name (v.storeValue id stored) :=
    ⟨World.revalued_storeValue id stored, World.readable_storeValue hread hplain,
      World.means_storeValue hread hfound'⟩
  rw [Eval.bind_apply, Eval.modify_apply, Outcome.bind_value]
  have stores : (v.storeValue id stored).Stores scope name stored := by
    refine ⟨owner, id, ?_, ?_⟩
    · have scopes : (v.storeValue id stored).scopes = v.scopes := rfl
      exact (World.findVariable?_congr scopes scope name).trans hfound'
    · refine congrArg VariableRecord.value ((World.variableAt_modifyVariable ..).trans (if_pos ?_))
      exact ⟨rfl, hread.bound hfound'⟩
  refine Eval.leaves_bind (P := fun r x => Q (r.map fun _ => stored) x) ?_
    (fun _ x hx => .value hx) fun e x hx => hx
  rw [Eval.holding_apply, Context.ofBudget_eq_machine, Context.machine_withThread,
    Context.thread_machine, ← Context.ofBudget_eq_machine]
  exact htell hv changed stores hhome rfl rfl

/-- So does any assignment. -/
theorem set_leaves : (scope.set name value (.ofBudget budget thread) w).Leaves Q := by
  unfold ScopeId.set
  rw [Eval.bind_apply, World.checkAlive_apply hw.wired.readable.alive, Outcome.bind_value]
  split
  · exact .error (hfail _ _ (.refl w))
  rw [Eval.bind_apply, Eval.gets_apply, Outcome.bind_value]
  cases hfound : w.findVariable? scope name with
  | some found => exact assign_leaves hw hvalue hfail htell hfound
  | none =>
    refine declare_leaves hw hvalue hfail htell (fun c hc => ?_) ?_
    · cases hc
    · rw [World.home, hfound]
      rfl

end Writes

section Moves

variable (hw : w.InOrder scope plan need calm) (hvalue : value.Plain) (hthread : thread.depth = 0)
  (hbudget : 2 * w.config.maxDepth + need ≤ budget)
include hw hthread hbudget

theorem notify_leaves {u : World} {other : Thread} (hv : w.Beside v) (h : v.Changed scope name u)
    (hhome : u.home scope name = owner) (hother : other.depth = thread.depth) :
    (owner.notify name (.ofBudget budget other) u).Leaves fun _ x =>
      x.config = w.config ∧ x.InOrder scope plan need calm := by
  have told := (hw.beside hv).notify_yields h hhome (hother.trans hthread) (hv.config ▸ hbudget)
  refine told.leaves.mono fun _ x hx => ⟨?_, hx.2⟩
  exact hx.1.config.trans (h.revalued.config.trans hv.config)

include hvalue

/-- After a declaration the network is in order. -/
theorem declare_inOrder {declaration : Declaration}
    (hc : ∀ c, declaration.constraint = some c → c.predicate.Plain)
    (hhome : w.home scope name = scope) :
    (scope.declare name value declaration (.ofBudget budget thread) w).Leaves fun _ v =>
      v.config = w.config ∧ v.InOrder scope plan need calm :=
  declare_leaves hw hvalue (fun _ _ hv => ⟨hv.config, hw.beside hv⟩)
    (fun hv h _ hhome hother _ => notify_leaves hw hthread hbudget hv h hhome hother) hc hhome

/-- After an assignment the network is in order. -/
theorem set_inOrder :
    (scope.set name value (.ofBudget budget thread) w).Leaves fun _ v =>
      v.config = w.config ∧ v.InOrder scope plan need calm :=
  set_leaves hw hvalue (fun _ _ hv => ⟨hv.config, hw.beside hv⟩)
    fun hv h _ hhome hother _ => notify_leaves hw hthread hbudget hv h hhome hother

end Moves

end ScopeId

end Reactor
