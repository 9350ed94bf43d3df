import Reactor.Proofs.Network.Write
import Reactor.Proofs.Tracking.Quiet

/-!
# Changes of scopes

`Change` lists what a host does with the names of scopes: it declares, assigns and clears, and makes scopes
beside and below others. A change has three effects on those who read names (`Change.effect`):

* It tells those who follow the name that it writes, at the scope where it is written (`Change.Tells`).
* It may give another meaning to a name from where that is read (`Change.Touches`), which depends on the
  scopes that are asked for the name.
* It may empty a scope, which then forgets who follows its names.

`Change.leaves` says that lambdas which are told forget what they keep, and that there are no other effects on
them, on names and on registrations. A change that fails has none at all.
-/

namespace Reactor

/-- What a host does with the names of scopes. -/
inductive Change where
  | declare (scope : ScopeId) (name : String) (value : Value) (declaration : Declaration)
  | set (scope : ScopeId) (name : String) (value : Value)
  | clear (scope : ScopeId)
  | twin (scope : ScopeId)
  | child (scope : ScopeId) (pure : Bool) (label : String)

namespace Change

/-- What a change does. -/
def act : Change → Eval Unit
  | .declare scope name value declaration => do let _ ← scope.declare name value declaration
  | .set scope name value => do let _ ← scope.set name value
  | .clear scope => scope.clear
  | .twin scope => do let _ ← scope.twin
  | .child scope pure label => do let _ ← scope.child pure label

/-- Variables come to hold plain values, under conditions that are not deferred. -/
def Plain : Change → Prop
  | .declare _ _ value declaration =>
    value.Plain ∧ ∀ c, declaration.constraint = some c → c.predicate.Plain
  | .set _ _ value => value.Plain
  | _ => True

/-- A lambda follows the name that a change writes, at the scope where it is written. -/
def Tells (w : World) (k : LambdaId) : Change → Prop
  | .declare scope name _ _ => k ∈ w.followersAt scope name
  | .set scope name _ => k ∈ w.followers scope name
  | _ => False

/-- The change writes the name at the scope. -/
def WritesAt (w : World) (owner : ScopeId) (name : String) : Change → Prop
  | .declare scope other _ _ => other = name ∧ scope = owner
  | .set scope other _ => other = name ∧ w.home scope name = owner
  | _ => False

/-- A name may mean something else afterwards from where it is read: it is declared or cleared where it is
looked up, or the variable that it means is assigned. -/
def Touches (w : World) (reader : ScopeId) (name : String) : Change → Prop
  | .declare scope other _ _ => other = name ∧ w.Asks reader scope name
  | .set scope other _ =>
    match w.findVariable? scope other with
    | some (_, id) => ∃ owner, w.findVariable? reader name = some (owner, id)
    | none => other = name ∧ w.Asks reader scope name
  | .clear scope =>
    scope ∈ w.ancestors reader ∧ (isPositional name = true ∨
      ∀ owner id, w.findVariable? reader name = some (owner, id) → owner = scope)
  | _ => False

theorem tells_of_writesAt {w : World} {k : LambdaId} {owner : ScopeId} {name : String} {c : Change}
    (hk : k ∈ w.followersAt owner name) (h : c.WritesAt w owner name) : c.Tells w k := by
  cases c with
  | declare scope other value declaration =>
    obtain ⟨rfl, rfl⟩ := h
    exact hk
  | set scope other value =>
    obtain ⟨rfl, rfl⟩ := h
    exact hk
  | clear | twin | child => exact h.elim

end Change

/-- What a change does to those who read names: the lambdas that it tells, the names that it touches from
where they are read, and the scopes that it empties. -/
structure Effect where
  told : LambdaId → Prop := fun _ => False
  touched : ScopeId → String → Prop := fun _ _ => False
  emptied : ScopeId → Prop := fun _ => False

namespace Effect

/-- The effect, if a condition holds. -/
def onlyIf (e : Effect) (p : Prop) : Effect where
  told k := p ∧ e.told k
  touched reader name := p ∧ e.touched reader name
  emptied scope := p ∧ e.emptied scope

theorem onlyIf_of_not {e : Effect} {p : Prop} (h : ¬ p) : e.onlyIf p = {} := by
  simp [onlyIf, h]

theorem onlyIf_of {e : Effect} {p : Prop} (h : p) : e.onlyIf p = e := by
  simp [onlyIf, h]

end Effect

/-- What a change does to those who read names. -/
def Change.effect (c : Change) (w : World) : Effect where
  told k := c.Tells w k
  touched reader name := c.Touches w reader name
  emptied scope := c = .clear scope

namespace World

/-- Lambdas that are told keep no result, and all others keep what they kept. Names that are not touched
mean the same, and who follows a name in a scope that is not emptied still follows it. -/
structure Turned (w : World) (e : Effect) (v : World) : Prop where
  quiet : v.Quiet
  config : v.config = w.config
  registers : v.desk.registers = w.desk.registers
  lambdas : v.lambdas.size = w.lambdas.size
  record (k : LambdaId) :
    (w.lambdaAt k).Cools (e.told k ∨ ∃ j, k ∈ w.dependents j) (v.lambdaAt k)
  forgotten {k : LambdaId} (held : Place.lambda k ∈ entriesPlaces w.desk.registers) (h : e.told k)
    (x : Value) : (v.lambdaAt k).cache ≠ .holding x
  scopes : w.scopes.size ≤ v.scopes.size
  meansSame {reader : ScopeId} {name : String} (hr : reader.index < w.scopes.size)
    (h : ¬ e.touched reader name) : w.MeansSame v reader name
  following {k : LambdaId} (held : Place.lambda k ∈ entriesPlaces w.desk.registers) {scope : ScopeId}
    {name : String} (hk : k ∈ w.followersAt scope name) (h : ¬ e.emptied scope) :
    k ∈ v.followersAt scope name

variable {u v w : World} {owner : ScopeId} {name : String} {id : VariableId} {x : Value} {e : Effect}

/-- Where lambdas, registers and settings are as they were, nothing has been forgotten. -/
theorem Turned.ofSame (hv : v.Quiet) (hc : v.config = w.config) (hr : v.desk.registers = w.desk.registers)
    (hl : v.lambdas = w.lambdas) (hs : w.scopes.size ≤ v.scopes.size) (htold : ∀ k, ¬ e.told k)
    (hsame : ∀ {reader : ScopeId} {name : String}, reader.index < w.scopes.size →
      ¬ e.touched reader name → w.MeansSame v reader name)
    (hfollowers : ∀ {k : LambdaId} {scope : ScopeId} {name : String}, k ∈ w.followersAt scope name →
      ¬ e.emptied scope → k ∈ v.followersAt scope name) : w.Turned e v where
  quiet := hv
  config := hc
  registers := hr
  lambdas := congrArg Array.size hl
  record k := by
    rw [show v.lambdaAt k = w.lambdaAt k from congrArg (fun lambdas => lambdas.getD k.index default) hl]
    exact .refl _ _
  forgotten _ h := absurd h (htold _)
  scopes := hs
  meansSame := hsame
  following _ _ _ := hfollowers

/-- A variable has been written, and those who follow the name have been told. -/
theorem Turned.ofWrote (wrote : w.Wrote u owner name id x) (hu : u.Quiet) (hc : u.config = w.config)
    (hr : u.desk.registers = w.desk.registers) (hl : u.lambdas = w.lambdas)
    (hf : ∀ scope key, u.followersAt scope key = w.followersAt scope key) (h : u.Heard owner name v)
    (htold : ∀ k, e.told k ↔ k ∈ w.followersAt owner name)
    (hsame : ∀ {reader : ScopeId} {key : String}, reader.index < w.scopes.size → ¬ e.touched reader key →
      w.Wrote v owner name id x → w.MeansSame v reader key) : w.Turned e v := by
  have lambdaAt (k : LambdaId) : u.lambdaAt k = w.lambdaAt k := by
    rw [World.lambdaAt, World.lambdaAt, hl]
  have later := wrote.heard h
  refine ⟨hu.ofScopes h.silent h.scope (by rw [h.rest]), ?_, ?_,
    h.lambdas.trans (congrArg Array.size hl), fun k => ?_, fun held hk => ?_, later.stands.size,
    fun hr hnot => hsame hr hnot later, fun {k} held {scope name} hk _ => ?_⟩
  · rw [h.rest]
    exact hc
  · rw [h.rest]
    exact hr
  · have cools := h.record k
    rw [lambdaAt] at cools
    refine cools.mono fun within => within.imp (fun hk => (htold k).2 (hf owner name ▸ hk)) ?_
    rintro ⟨j, hj⟩
    rw [dependents, lambdaAt] at hj
    exact ⟨j, hj⟩
  · exact h.forgotten (hr ▸ held) (hf owner name ▸ (htold _).1 hk)
  · exact h.kept (hr ▸ held) (hf scope name ▸ hk)

end World

/-! ## What changes do -/

namespace ScopeId

open World

variable {scope owner : ScopeId} {name : String} {id : VariableId} {value x : Value} {u v w : World}
  {budget : Nat} {thread : Thread}

/-- A change that goes through has an effect, and one that fails has none. -/
abbrev Turns {α : Type} (w : World) (e : Effect) (r : Except Error α) (v : World) : Prop :=
  w.Turned (e.onlyIf (r.isOk = true)) v

theorem turns_ok {α : Type} {a : α} {e : Effect} (h : w.Turned e v) : Turns w e (.ok a) v := by
  have ok : (Except.ok a : Except Error α).isOk = true := rfl
  rwa [Turns, Effect.onlyIf_of ok]

section Writes

variable {effect : Effect} (hw : w.Quiet) (hvalue : value.Plain)
  (hdepth : thread.depth < w.config.maxDepth)
include hw

theorem turns_of_beside {α : Type} {e : Error} (h : w.Beside v) :
    Turns w effect (.error e : Except Error α) v := by
  have failed : ¬ (Except.error e : Except Error α).isOk = true := Bool.false_ne_true
  rw [Turns, Effect.onlyIf_of_not failed]
  refine .ofSame (hw.recached h.recached) h.config h.registers h.lambdas
    (Nat.le_of_eq (congrArg Array.size h.scopes.symm)) (fun _ => id)
    (fun hr _ => h.recached.meansSame hw.nested hr) fun hk _ => ?_
  rwa [followersAt_congr h.scopes]

omit hw in
/-- What has been stored is told. -/
theorem notify_turns {α : Type} {ctx : Context} (places : List Place) (a : α) (hu : u.Quiet)
    (h : ctx.thread.depth < u.config.maxDepth) (hheard : ∀ v, u.Heard owner name v → w.Turned effect v) :
    ((do Eval.holding places (owner.notify name); return a : Eval α) ctx u).Leaves (Turns w effect) := by
  have deeper : ({ ctx with thread := { ctx.thread with held := places ++ ctx.thread.held } } :
      Context).thread.depth < u.config.maxDepth := h
  obtain ⟨v, run, heard⟩ := notify_silent hu.silent deeper owner name
  rw [Eval.bind_apply, Eval.holding_apply, run, Outcome.bind_value]
  exact .value (turns_ok (hheard v heard))

include hvalue hdepth

/-- A declaration tells those who follow the name at the scope. -/
theorem declare_turns {declaration : Declaration}
    (hc : ∀ c, declaration.constraint = some c → c.predicate.Plain) :
    (scope.declare name value declaration (.ofBudget budget thread) w).Leaves (Turns w
      { told := fun k => k ∈ w.followersAt scope name
        touched := fun reader key => name = key ∧ w.Asks reader scope key }) := by
  rcases checkAlive_cases scope (.ofBudget budget thread) w with ⟨e, run⟩ | ⟨alive, -⟩
  · unfold declare propose
    rw [Eval.bind_apply, Eval.bind_apply, run]
    exact .error (turns_of_beside hw (.refl w))
  unfold declare
  refine Eval.leaves_bind (propose_leaves (hw.readable alive) hvalue hc) ?_
    fun e v h => turns_of_beside hw h.1
  rintro proposal v ⟨hv, hproposal⟩
  obtain ⟨hplain, hcondition⟩ := hproposal proposal rfl
  rw [Eval.bind_apply, Eval.modify_apply, Outcome.bind_value]
  have quiet := (hw.recached hv.recached).bindVariable hplain hcondition scope name
  have followers (other : ScopeId) (key : String) :
      (v.bindVariable scope name proposal.record).followersAt other key = w.followersAt other key :=
    (followersAt_bindVariable v scope other name key proposal.record).trans
      (followersAt_congr hv.scopes other key)
  have wrote : w.Wrote (v.bindVariable scope name proposal.record) scope name ⟨v.vars.size⟩ _ :=
    .ofBind hv.recached.keeps (lt_of_alive alive) rfl
  refine notify_turns _ _ quiet ?_ fun x heard => .ofWrote wrote quiet hv.config hv.registers
    hv.lambdas followers heard (fun _ => .rfl) fun {reader key} hr hnot wrote => ?_
  · rw [Context.ofBudget_eq_machine, Context.thread_machine]
    exact hv.config ▸ hdepth
  · by_cases hkey : name = key
    · subst hkey
      exact wrote.meansSame_of_not_asks hw.nested hr hv.recached.keeps.vars fun asks => hnot ⟨rfl, asks⟩
    · exact wrote.meansSame_of_ne hw.nested hr (.inr hv.recached.keeps.vars) fun h => hkey h.symm

/-- An assignment to a variable tells those who follow the name at its scope. -/
theorem assign_turns (halive : (w.scopeAt scope).destroyed = false)
    (hfound : w.findVariable? scope name = some (owner, id)) :
    (scope.assign owner id name value (.ofBudget budget thread) w).Leaves (Turns w
      { told := fun k => k ∈ w.followersAt owner name
        touched := fun reader key => ∃ owner, w.findVariable? reader key = some (owner, id) }) := by
  obtain ⟨hmem, hown⟩ := own?_of_findVariable? hfound
  have howner := Nat.lt_of_le_of_lt (hw.nested.index_le hmem) (lt_of_alive halive)
  have proposed : (scope.proposeValue owner id name value (.ofBudget budget thread) w).Leaves (Kept w) := by
    rcases proposeValue_cases scope name (.ofBudget budget thread) w owner id value with
      ⟨e, run⟩ | ⟨-, -, run⟩
    · rw [run]
      exact .error ⟨.refl w, fun a ha => by cases ha⟩
    · rw [run, Eval.holding_apply]
      exact storable_leaves hvalue _ (fun c hc => hw.condition id hc) _
  unfold assign
  refine Eval.leaves_bind proposed ?_ fun e v h => turns_of_beside hw h.1
  rintro stored v ⟨hv, hstored⟩
  rw [Eval.bind_apply, Eval.modify_apply, Outcome.bind_value]
  have quiet := (hw.recached hv.recached).storeValue (hstored stored rfl) id
  have scopes : (v.storeValue id stored).scopes = w.scopes := hv.scopes
  have wrote := Wrote.ofStore (x := stored) hw.nested hv.recached.keeps hown howner
  refine notify_turns _ _ quiet ?_ fun x heard => .ofWrote wrote quiet hv.config hv.registers
    hv.lambdas (followersAt_congr scopes) heard (fun _ => .rfl) fun {reader key} hr hnot wrote => ?_
  · rw [Context.ofBudget_eq_machine, Context.thread_machine]
    exact hv.config ▸ hdepth
  · refine wrote.meansSame hw.nested hr (wrote.find_of_own hw.nested hr hown key) ?_
    rintro o j found rfl
    exact hnot ⟨o, found⟩

/-- An assignment tells those who follow the name at the scope that declares it. -/
theorem set_turns : (scope.set name value (.ofBudget budget thread) w).Leaves
    (Turns w ((Change.set scope name value).effect w)) := by
  unfold ScopeId.set
  rw [Eval.bind_apply]
  rcases checkAlive_cases scope (.ofBudget budget thread) w with ⟨e, run⟩ | ⟨alive, run⟩
  · rw [run]
    exact .error (turns_of_beside hw (.refl w))
  rw [run, Outcome.bind_value]
  split
  · exact .error (turns_of_beside hw (.refl w))
  rw [Eval.bind_apply, Eval.gets_apply, Outcome.bind_value]
  cases hfound : w.findVariable? scope name with
  | none =>
    have home : w.home scope name = scope := by
      rw [World.home, hfound]
      rfl
    have effect : (Change.set scope name value).effect w =
        { told := fun k => k ∈ w.followersAt scope name
          touched := fun reader key => name = key ∧ w.Asks reader scope key } := by
      simp [Change.effect, Change.Tells, Change.Touches, hfound, followers_eq, home]
    have free (c : Constraint) (hc : (none : Option Constraint) = some c) : c.predicate.Plain := by
      cases hc
    rw [effect]
    exact declare_turns hw hvalue hdepth free
  | some found =>
    have home : w.home scope name = found.1 := by
      rw [World.home, hfound]
      rfl
    have effect : (Change.set scope name value).effect w =
        { told := fun k => k ∈ w.followersAt found.1 name
          touched := fun reader key => ∃ owner, w.findVariable? reader key = some (owner, found.2) } := by
      simp [Change.effect, Change.Tells, Change.Touches, hfound, followers_eq, home]
    rw [effect]
    exact assign_turns hw hvalue hdepth alive hfound

omit hvalue in
/-- An assignment goes through if the value is accepted, and the name then shows what has been stored. -/
theorem set_goes_through (halive : (w.scopeAt scope).destroyed = false) (hname : isPositional name = false)
    (hfound : w.findVariable? scope name = some (owner, id)) (hpure : (w.scopeAt scope).pure = false)
    (proposed : scope.proposeValue owner id name value (.ofBudget budget thread) w = .value x u)
    (hx : x.Plain) (hu : w.Beside u) :
    ∃ v, scope.set name value (.ofBudget budget thread) w = .value x v ∧ v.config = w.config ∧
      v.Shows scope name x := by
  obtain ⟨hmem, hown⟩ := own?_of_findVariable? hfound
  have hr := lt_of_alive halive
  have wrote : w.Wrote (u.storeValue id x) owner name id x :=
    .ofStore hw.nested hu.recached.keeps hown (Nat.lt_of_le_of_lt (hw.nested.index_le hmem) hr)
  have quiet := (hw.recached hu.recached).storeValue hx id
  have shallow : (Context.ofBudget budget { thread with
      held := x.places ++ [.variable id] ++ thread.held }).thread.depth < u.config.maxDepth := by
    rw [Context.ofBudget_eq_machine, Context.thread_machine]
    exact hu.config ▸ hdepth
  obtain ⟨v, notified, heard⟩ := notify_silent (w := u.storeValue id x) quiet.silent shallow owner name
  have later := wrote.heard heard
  refine ⟨v, ?_, ?_, ?_⟩
  · unfold ScopeId.set
    rw [Eval.bind_apply, checkAlive_apply halive, Outcome.bind_value, hname, if_neg nofun,
      Eval.bind_apply, Eval.gets_apply, Outcome.bind_value, hfound]
    show scope.assign owner id name value (.ofBudget budget thread) w = _
    unfold assign
    rw [Eval.bind_apply, proposed, Outcome.bind_value, Eval.bind_apply, Eval.modify_apply,
      Outcome.bind_value, Eval.bind_apply, Eval.holding_apply, Context.ofBudget_withThread,
      Context.ofBudget_eq_machine, Context.thread_machine, ← Context.ofBudget_eq_machine, notified]
    rfl
  · rw [heard.rest]
    exact hu.config
  · exact later.shows hr hname halive ((later.find_of_own hw.nested hr hown name).trans hfound) (.inl hpure)

end Writes

section Scopes

variable {ctx : Context} (hw : w.Quiet)
include hw

theorem clear_turns (scope : ScopeId) :
    (scope.clear ctx w).Leaves (Turns w ((Change.clear scope).effect w)) := by
  unfold clear ScopeId.record
  rw [Eval.bind_apply, Eval.gets_apply, Outcome.bind_value]
  split
  · exact .error (turns_of_beside hw (.refl w))
  rw [Eval.bind_apply]
  rcases checkAlive_cases scope ctx w with ⟨e, run⟩ | ⟨-, run⟩
  · rw [run]
    exact .error (turns_of_beside hw (.refl w))
  rw [run]
  refine .value (turns_ok (.ofSame (hw.emptied scope) rfl rfl rfl
    (Nat.le_of_eq (Array.size_modify ..).symm) (fun _ => id) (fun {reader key} hr hnot => ?_)
    fun {k other key} hk hne => ?_))
  · refine meansSame_emptied hw.nested hr (fun owner id found hs => hnot ⟨?_, .inr ?_⟩)
      fun hp hmem => hnot ⟨hmem, ?_⟩
    · exact hs ▸ (own?_of_findVariable? found).1
    · intro owner' id' found'
      rw [found] at found'
      cases found'
      exact hs
    · refine hp.imp_right fun none owner id found => ?_
      rw [none] at found
      cases found
  · have aside : scope ≠ other := fun h => hne (h ▸ rfl)
    rwa [followersAt, scopeAt_modifyScope, if_neg fun found => aside found.1]

/-- A scope that fits in is made, and nobody is told. -/
theorem turns_of_push {α : Type} {a : α} {record : ScopeRecord} (hopens : record.Opens w)
    (hhandlers : record.handlers = [])
    (hparameters : ∀ {key value}, Entries.get? record.parameters key = some value → value.Plain) :
    Turns w {} (.ok a : Except Error α) { w with scopes := w.scopes.push record } := by
  refine turns_ok (.ofSame (hw.push hopens hhandlers hparameters) rfl rfl rfl
    (Nat.le_trans (Nat.le_succ _) (Nat.le_of_eq (Array.size_push _).symm)) (fun _ => id)
    (fun hr _ => meansSame_push hw.nested record hr) fun {k other key} hk _ => ?_)
  have known : other.index ≠ w.scopes.size := fun h => by
    rw [followersAt, scopeAt_of_le (Nat.le_of_eq h.symm)] at hk
    cases hk
  rwa [followersAt, scopeAt_push, if_neg known]

theorem twin_turns (scope : ScopeId) :
    (scope.twin ctx w).Leaves (Turns w {}) := by
  unfold twin
  rw [Eval.bind_apply]
  rcases checkAlive_cases scope ctx w with ⟨e, run⟩ | ⟨alive, run⟩
  · rw [run]
    exact .error (turns_of_beside hw (.refl w))
  · rw [run]
    exact .value (turns_of_push hw (hw.nested.opens (lt_of_alive alive) rfl rfl fun _ h => h)
      (hw.handlers scope) (hw.parameter scope))

theorem child_turns (scope : ScopeId) (pure : Bool) (label : String) :
    (scope.child pure label ctx w).Leaves (Turns w {}) := by
  unfold child
  rw [Eval.bind_apply]
  rcases checkAlive_cases scope ctx w with ⟨e, run⟩ | ⟨alive, run⟩
  · rw [run]
    exact .error (turns_of_beside hw (.refl w))
  rw [run, Outcome.bind_value]
  unfold ScopeId.record
  rw [Eval.bind_apply, Eval.gets_apply, Outcome.bind_value]
  split
  · exact .error (turns_of_beside hw (.refl w))
  · rename_i allowed
    refine .value (turns_of_push hw ⟨?_, ?_, fun h => nomatch h⟩ rfl fun h => nomatch h)
    · rintro above ⟨⟩
      exact lt_of_alive alive
    · rintro above ⟨⟩ hpure
      simpa [hpure] using allowed

end Scopes

end ScopeId

/-- A change that goes through has its effect, and one that fails has none. -/
theorem Change.leaves {c : Change} {w : World} {budget : Nat} {thread : Thread} (hw : w.Quiet)
    (hc : c.Plain) (hdepth : thread.depth < w.config.maxDepth) :
    (c.act (.ofBudget budget thread) w).Leaves (ScopeId.Turns w (c.effect w)) := by
  have only {α : Type} {act : Eval α} {effect : Effect}
      (h : (act (.ofBudget budget thread) w).Leaves (ScopeId.Turns w effect)) :
      ((do let _ ← act : Eval Unit) (.ofBudget budget thread) w).Leaves (ScopeId.Turns w effect) :=
    Eval.leaves_bind h (fun _ v hv => .value hv) fun _ v hv => hv
  have effect (h : ∀ scope, c ≠ .clear scope) : c.effect w =
      { told := fun k => c.Tells w k, touched := fun reader name => c.Touches w reader name } := by
    simp [Change.effect, h]
  cases c with
  | declare scope name value declaration =>
    rw [effect nofun]
    exact only (ScopeId.declare_turns hw hc.1 hdepth hc.2)
  | set scope name value => exact only (ScopeId.set_turns hw hc hdepth)
  | clear scope => exact ScopeId.clear_turns hw scope
  | twin scope =>
    rw [effect nofun]
    exact only (ScopeId.twin_turns hw scope)
  | child scope pure label =>
    rw [effect nofun]
    exact only (ScopeId.child_turns hw scope pure label)

theorem Change.turned {c : Change} {v w : World} {budget : Nat} {thread : Thread} {r : Except Error Unit}
    (hw : w.Quiet) (hc : c.Plain) (hdepth : thread.depth < w.config.maxDepth)
    (run : c.act (.ofBudget budget thread) w = .done r v) : ScopeId.Turns w (c.effect w) r v := by
  have turned : (c.act (.ofBudget budget thread) w).Leaves _ := leaves hw hc hdepth
  rw [run] at turned
  exact turned.of_done

end Reactor
