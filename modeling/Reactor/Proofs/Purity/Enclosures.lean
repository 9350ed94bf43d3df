import Reactor.Proofs.Purity.Steady
import Reactor.Script.Evaluate
import Reactor.Proofs.Purity.Nested

/-!
# What a pure scope sees and changes

A computation *uses* certain scopes (`Eval.Uses`) if it is put together from calls on these scopes and
on those that it makes below them, and from computations on plain values. A script that uses nothing
but the scope that it runs in may be a condition on the variables of a scope (`Constraint.Local`).

An enclosure (`Enclosure`) is a pure scope with the variables that belong to it: those bound at or below
it, and all that are yet to come.

* `Enclosure.Secluded` : what is asked of a state in which calls are made at or below the scope. Nobody
  follows a variable there, what can be read from there is plain, and conditions run in the scope that
  they are applied in.
* `Enclosure.LooksAlike` : two states have the same scopes, as far as names and parameters go, and
  differ in variables at most that are outside, and of these in all but the values of the readable
  ones.
* `Enclosure.Changes` : a state has become another one by changes of scopes at or below the scope and of
  variables that belong to it.
* `Enclosure.Twins`, `Enclosure.GoOn` : what holds of two runs side by side. Each way in which calls
  change the state keeps it.
-/

namespace Reactor

/-- What is done with the names of a scope. -/
inductive Call where
  | get (name : String) (must : Bool)
  | set (name : String) (value : Value)
  | declare (name : String) (value : Value) (declaration : Declaration)
  | getParameter (key : String)

/-- What a call on a scope does. -/
def Call.run (scope : ScopeId) : Call → Eval Value
  | get name must => scope.get name must
  | set name value => scope.set name value
  | declare name value declaration => scope.declare name value declaration
  | getParameter key => scope.getParameter key

/-- The condition is a plain value, or it looks a name up or runs a script of a certain kind, in the
scope that it is applied in. -/
def Constraint.Local (own : Expr → Prop) (bodies : LambdaId → Body) (c : Constraint) : Prop :=
  match c.predicate.lambda? with
  | none => c.predicate.Plain
  | some lambda =>
    match bodies lambda with
    | .script e => own e
    | .lookup _ => True
    | .await _ => False

/-- The values of the call are plain, and a condition uses only the scope that it is applied in. -/
def Call.Plain (own : Expr → Prop) (bodies : LambdaId → Body) : Call → Prop
  | set _ value => value.Plain
  | declare _ value declaration =>
    value.Plain ∧ ∀ c, declaration.constraint = some c → c.Local own bodies
  | _ => True

/-- The computation uses nothing but the scopes at hand and those that it makes below them, and what it
gives has a property. Conditions are scripts of a certain kind. -/
inductive Eval.Uses (own : Expr → Prop) (bodies : LambdaId → Body) :
    List ScopeId → {α : Type} → (α → Prop) → Eval α → Prop
  /-- It does not look at the state at all. -/
  | steady {mine : List ScopeId} {α : Type} {P : α → Prop} {act : Eval α} (h : Steady P act) :
    Uses own bodies mine P act
  /-- A plain value is marked before it is copied. -/
  | share {mine : List ScopeId} {value : Value} (h : value.Plain) :
    Uses own bodies mine Value.Plain value.share
  | call {mine : List ScopeId} {scope : ScopeId} {c : Call} (hscope : scope ∈ mine)
    (hc : c.Plain own bodies) : Uses own bodies mine Value.Plain (c.run scope)
  /-- It makes a scope and uses that one too. -/
  | child {mine : List ScopeId} {α : Type} {Q : α → Prop} {scope : ScopeId} {pure : Bool}
    {name : String} {next : Except Error ScopeId → Eval α} (hscope : scope ∈ mine)
    (hmade : ∀ new, Uses own bodies (new :: mine) Q (next (.ok new)))
    (hfailed : ∀ e, Uses own bodies mine Q (next (.error e))) :
    Uses own bodies mine Q ((scope.child pure name).attempt >>= next)
  | bind {mine : List ScopeId} {α β : Type} {P : α → Prop} {Q : β → Prop} {act : Eval α}
    {next : α → Eval β} (h : Uses own bodies mine P act)
    (hnext : ∀ a, P a → Uses own bodies mine Q (next a)) : Uses own bodies mine Q (act >>= next)
  | attempt {mine : List ScopeId} {α : Type} {P : α → Prop} {act : Eval α}
    (h : Uses own bodies mine P act) :
    Uses own bodies mine (fun r : Except Error α => ∀ a, r = .ok a → P a) act.attempt
  | holding {mine : List ScopeId} {α : Type} {P : α → Prop} {act : Eval α} (places : List Place)
    (h : Uses own bodies mine P act) : Uses own bodies mine P (Eval.holding places act)

/-- The variable is bound at the scope or below it. -/
def World.Bears (w : World) (top : ScopeId) (id : VariableId) : Prop :=
  ∃ scope name, top ∈ w.ancestors scope ∧ (name, id) ∈ (w.scopeAt scope).vars

/-- Without those who follow its variables and without handlers. -/
def ScopeRecord.unattended (record : ScopeRecord) : ScopeRecord :=
  { record with listeners := [], handlers := [] }

/-- The scope is above one that is at or below the top one, so names may be found there. -/
def World.Near (w : World) (top above : ScopeId) : Prop :=
  ∃ scope, top ∈ w.ancestors scope ∧ above ∈ w.ancestors scope

/-- A pure scope, with what the lambdas compute, the scripts that its conditions may run and the
variables that belong to it. -/
structure Enclosure where
  top : ScopeId
  bodies : LambdaId → Body
  own : Expr → Prop
  inside : VariableId → Prop

/-- A scope with all variables that are bound at or below it or are yet to come. -/
def World.enclosure (w : World) (top : ScopeId) (own : Expr → Prop) : Enclosure where
  top
  bodies lambda := (w.lambdaAt lambda).body
  own
  inside id := w.Bears top id ∨ w.vars.size ≤ id.index

namespace Enclosure

/-- What is asked of a state in which calls are made at or below the scope. -/
structure Secluded (E : Enclosure) (w : World) : Prop where
  pure : (w.scopeAt E.top).pure = true
  -- nobody follows a variable there
  quiet {scope : ScopeId} (h : E.top ∈ w.ancestors scope) :
    ∀ entry ∈ (w.scopeAt scope).listeners, entry.2 = []
  -- what can be read from there is plain
  kept {id : VariableId} (h : E.inside id) : (w.variableAt id).value.Plain
  readable {above : ScopeId} (h : w.Near E.top above) :
    ∀ entry ∈ (w.scopeAt above).vars, (w.variableAt entry.2).isPureReadable = true →
      (w.variableAt entry.2).value.Plain
  parameter {above : ScopeId} (h : w.Near E.top above) :
    ∀ entry ∈ (w.scopeAt above).parameters, entry.2.Plain
  -- conditions run in the scope that they are applied in
  condition {id : VariableId} (h : E.inside id) {c : Constraint}
    (hc : (w.variableAt id).constraint = some c) : c.Local E.own E.bodies

/-- Two states look alike from the scope. -/
structure LooksAlike (E : Enclosure) (w v : World) : Prop where
  maxDepth : v.config.maxDepth = w.config.maxDepth
  scopes : v.scopes.size = w.scopes.size
  vars : v.vars.size = w.vars.size
  marks : v.marks = w.marks
  body (lambda : LambdaId) : (v.lambdaAt lambda).body = (w.lambdaAt lambda).body
  scope (id : ScopeId) : (v.scopeAt id).unattended = (w.scopeAt id).unattended
  inside {id : VariableId} (h : E.inside id) : v.variableAt id = w.variableAt id
  readable (id : VariableId) : (v.variableAt id).isPureReadable = (w.variableAt id).isPureReadable
  value {id : VariableId} (h : (w.variableAt id).isPureReadable = true) :
    (v.variableAt id).value = (w.variableAt id).value

/-- The state has become another one by changes of scopes at or below the scope and of variables that
belong to it. -/
structure Changes (E : Enclosure) (w w' : World) : Prop where
  rest : w' = { w with scopes := w'.scopes, vars := w'.vars, marks := w'.marks }
  scopes_le : w.scopes.size ≤ w'.scopes.size
  vars_le : w.vars.size ≤ w'.vars.size
  parent {scope : ScopeId} (h : scope.index < w.scopes.size) :
    (w'.scopeAt scope).parent = (w.scopeAt scope).parent
  apart {scope : ScopeId} (h : scope.index < w.scopes.size) (hout : E.top ∉ w.ancestors scope) :
    w'.scopeAt scope = w.scopeAt scope
  outside {id : VariableId} (hout : ¬E.inside id) : w'.variableAt id = w.variableAt id

/-- What holds of a state in which calls are made at or below the scope. -/
structure Holds (E : Enclosure) (w : World) : Prop where
  nested : w.Nested
  body (lambda : LambdaId) : (w.lambdaAt lambda).body = E.bodies lambda
  bound {scope : ScopeId} (h : E.top ∈ w.ancestors scope) :
    ∀ entry ∈ (w.scopeAt scope).vars, E.inside entry.2
  fresh {id : VariableId} (h : w.vars.size ≤ id.index) : E.inside id
  secluded : E.Secluded w

/-- Two such states that look alike from the scope. -/
structure Twins (E : Enclosure) (w v : World) : Prop where
  left : E.Holds w
  right : E.Holds v
  alike : E.LooksAlike w v

/-- Two states go on to two others that look alike. -/
structure GoOn (E : Enclosure) (w v w' v' : World) : Prop where
  twins : E.Twins w' v'
  left : E.Changes w w'
  right : E.Changes v v'

variable {E : Enclosure} {scope : ScopeId} {w w' w'' v v' v'' : World}

/-! ## One state -/

/-- A pure scope has a record. -/
theorem lt_of_pure (h : (w.scopeAt scope).pure = true) : scope.index < w.scopes.size := by
  apply Nat.lt_of_not_le
  intro hle
  rw [World.scopeAt_of_le hle] at h
  cases h

theorem Holds.pure (h : E.Holds w) (hscope : E.top ∈ w.ancestors scope) :
    (w.scopeAt scope).pure = true :=
  h.nested.pure_of_mem_ancestors hscope h.secluded.pure

theorem Holds.lt (h : E.Holds w) (hscope : E.top ∈ w.ancestors scope) :
    scope.index < w.scopes.size :=
  lt_of_pure (h.pure hscope)

theorem Holds.enclosure {top : ScopeId} {own : Expr → Prop} (hw : w.Nested)
    (h : (w.enclosure top own).Secluded w) : (w.enclosure top own).Holds w where
  nested := hw
  body _ := rfl
  bound hscope _ hentry := .inl ⟨_, _, hscope, hentry⟩
  fresh h := .inr h
  secluded := h

/-- If places and listeners stay and no parameters come, and a variable that has come or changed belongs
to the scope and is plain, then what is asked of the state goes on to hold. -/
theorem Holds.ofSame (h : E.Holds w) (hnested : w'.Nested) (hlambdas : w'.lambdas = w.lambdas)
    (hsize : w.vars.size ≤ w'.vars.size)
    (hparent : ∀ id, (w'.scopeAt id).parent = (w.scopeAt id).parent)
    (hpure : (w'.scopeAt E.top).pure = (w.scopeAt E.top).pure)
    (hlisteners : ∀ id, ∀ entry ∈ (w'.scopeAt id).listeners,
      entry ∈ (w.scopeAt id).listeners ∨ entry.2 = [])
    (hparameters : ∀ id, ∀ entry ∈ (w'.scopeAt id).parameters,
      entry ∈ (w.scopeAt id).parameters ∨ entry.2.Plain)
    (hvars : ∀ id, ∀ entry ∈ (w'.scopeAt id).vars,
      entry ∈ (w.scopeAt id).vars ∨ E.inside entry.2)
    (hrecords : ∀ id, w'.variableAt id = w.variableAt id ∨
      E.inside id ∧ (w'.variableAt id).value.Plain ∧
        ∀ c, (w'.variableAt id).constraint = some c → c.Local E.own E.bodies) :
    E.Holds w' := by
  have ancestors (id : ScopeId) : w'.ancestors id = w.ancestors id := by
    exact World.ancestors_of_parents hparent id
  have near {above : ScopeId} (hnear : w'.Near E.top above) : w.Near E.top above := by
    unfold World.Near at hnear
    simp only [ancestors] at hnear
    exact hnear
  have kept {id : VariableId} (hid : E.inside id) : (w'.variableAt id).value.Plain := by
    rcases hrecords id with same | ⟨-, plain, -⟩
    · rw [same]
      exact h.secluded.kept hid
    · exact plain
  refine ⟨hnested, fun lambda => ?_, fun hscope entry hentry => ?_, fun hid => ?_, ?_,
    fun hscope entry hentry => ?_, kept, fun hnear entry hentry hread => ?_,
    fun hnear entry hentry => ?_, fun hid c hc => ?_⟩
  · rw [World.lambdaAt, hlambdas]
    exact h.body lambda
  · rw [ancestors] at hscope
    exact (hvars _ entry hentry).elim (h.bound hscope entry) fun new => new
  · exact h.fresh (Nat.le_trans hsize hid)
  · exact hpure.trans h.secluded.pure
  · rw [ancestors] at hscope
    exact (hlisteners _ entry hentry).elim (h.secluded.quiet hscope entry) fun none => none
  · rcases hrecords entry.2 with same | ⟨-, plain, -⟩
    · rcases hvars _ entry hentry with old | new
      · rw [same] at hread ⊢
        exact h.secluded.readable (near hnear) entry old hread
      · exact kept new
    · exact plain
  · exact (hparameters _ entry hentry).elim (h.secluded.parameter (near hnear) entry)
      fun plain => plain
  · rcases hrecords _ with same | ⟨-, -, condition⟩
    · rw [same] at hc
      exact h.secluded.condition hid hc
    · exact condition c hc

/-- A scope changes, but keeps its place and binds nothing new. -/
theorem Holds.modifyScope (h : E.Holds w) (scope : ScopeId) {f : ScopeRecord → ScopeRecord}
    (hparent : ∀ r, (f r).parent = r.parent) (hpure : ∀ r, (f r).pure = r.pure)
    (hvars : ∀ r, ∀ entry ∈ (f r).vars, entry ∈ r.vars)
    (hlisteners : ∀ r, ∀ entry ∈ (f r).listeners, entry ∈ r.listeners ∨ entry.2 = [])
    (hparameters : ∀ r, ∀ entry ∈ (f r).parameters, entry ∈ r.parameters ∨ entry.2.Plain) :
    E.Holds (w.modifyScope scope f) := by
  refine h.ofSame (h.nested.modifyScope scope hparent hpure hvars) rfl (Nat.le_refl _)
    (fun id => ?_) ?_ (fun id entry hentry => ?_) (fun id entry hentry => ?_)
    (fun id entry hentry => ?_) fun id => .inl rfl
  · rw [World.scopeAt_modifyScope]
    split
    · exact hparent _
    · rfl
  · rw [World.scopeAt_modifyScope]
    split
    · exact hpure _
    · rfl
  · rw [World.scopeAt_modifyScope] at hentry
    split at hentry
    · exact hlisteners _ _ hentry
    · exact .inl hentry
  · rw [World.scopeAt_modifyScope] at hentry
    split at hentry
    · exact hparameters _ _ hentry
    · exact .inl hentry
  · rw [World.scopeAt_modifyScope] at hentry
    split at hentry
    · exact .inl (hvars _ _ hentry)
    · exact .inl hentry

/-- A scope without variables fits in at or below the pure one. -/
theorem Holds.opens (h : E.Holds w) (hscope : E.top ∈ w.ancestors scope) {record : ScopeRecord}
    (hparent : record.parent = some scope) (hpure : record.pure = true) (hvars : record.vars = []) :
    record.Opens w := by
  refine ⟨fun habove => ?_, fun _ _ => hpure, fun hknown => ?_⟩
  · rw [hparent] at habove
    cases habove
    exact h.lt hscope
  · rw [hvars] at hknown
    cases hknown

theorem Holds.below_push (h : E.Holds w) (hscope : E.top ∈ w.ancestors scope) {record : ScopeRecord}
    (hparent : record.parent = some scope) (hpure : record.pure = true) (hvars : record.vars = []) :
    E.top ∈ ({ w with scopes := w.scopes.push record } : World).ancestors ⟨w.scopes.size⟩ := by
  have new : (⟨w.scopes.size⟩ : ScopeId).index = w.scopes.size := rfl
  rw [h.nested.ancestors_push (h.opens hscope hparent hpure hvars) hparent new]
  exact List.mem_cons_of_mem _ hscope

/-- A new scope, at or below the pure one. -/
theorem Holds.push (h : E.Holds w) (hscope : E.top ∈ w.ancestors scope) {record : ScopeRecord}
    (hparent : record.parent = some scope) (hpure : record.pure = true)
    (hvars : record.vars = []) (hlisteners : record.listeners = [])
    (hparameters : record.parameters = []) :
    E.Holds { w with scopes := w.scopes.push record } := by
  have hopens := h.opens hscope hparent hpure hvars
  have nested := h.nested.push hopens
  have older {id : ScopeId} (hid : id.index < w.scopes.size) :
      ({ w with scopes := w.scopes.push record } : World).ancestors id = w.ancestors id :=
    h.nested.ancestors_push_of_lt hid
  have pure : (({ w with scopes := w.scopes.push record } : World).scopeAt E.top).pure = true := by
    rw [World.scopeAt_push, if_neg (Nat.ne_of_lt (lt_of_pure h.secluded.pure))]
    exact h.secluded.pure
  -- the new scope is the only one that has come below the pure one
  have inside (id : ScopeId)
      (hin : E.top ∈ ({ w with scopes := w.scopes.push record } : World).ancestors id) :
      id.index = w.scopes.size ∨ id.index < w.scopes.size ∧ E.top ∈ w.ancestors id := by
    have hid := lt_of_pure (nested.pure_of_mem_ancestors hin pure)
    rw [Array.size_push] at hid
    by_cases hlt : id.index < w.scopes.size
    · exact .inr ⟨hlt, older hlt ▸ hin⟩
    · exact .inl (by omega)
  have near (above : ScopeId)
      (hnear : ({ w with scopes := w.scopes.push record } : World).Near E.top above) :
      above.index = w.scopes.size ∨ w.Near E.top above := by
    obtain ⟨id, hin, habove⟩ := hnear
    rcases inside id hin with hid | ⟨hlt, hold⟩
    · rw [h.nested.ancestors_push hopens hparent hid] at habove
      rcases List.mem_cons.1 habove with rfl | habove
      · exact .inl hid
      · exact .inr ⟨scope, hscope, habove⟩
    · rw [older hlt] at habove
      exact .inr ⟨id, hold, habove⟩
  refine ⟨nested, h.body, fun hother entry hentry => ?_, h.fresh, pure,
    fun hother entry hentry => ?_, h.secluded.kept, fun hnear entry hentry => ?_,
    fun hnear entry hentry => ?_, h.secluded.condition⟩
  · rw [World.scopeAt_push] at hentry
    split at hentry
    · rw [hvars] at hentry
      cases hentry
    · rename_i hne
      exact h.bound ((inside _ hother).resolve_left hne).2 entry hentry
  · rw [World.scopeAt_push] at hentry
    split at hentry
    · rw [hlisteners] at hentry
      cases hentry
    · rename_i hne
      exact h.secluded.quiet ((inside _ hother).resolve_left hne).2 entry hentry
  · rw [World.scopeAt_push] at hentry
    split at hentry
    · rw [hvars] at hentry
      cases hentry
    · rename_i hne
      exact h.secluded.readable ((near _ hnear).resolve_left hne) entry hentry
  · rw [World.scopeAt_push] at hentry
    split at hentry
    · rw [hparameters] at hentry
      cases hentry
    · rename_i hne
      exact h.secluded.parameter ((near _ hnear).resolve_left hne) entry hentry

/-- A scope binds a name to a new variable. -/
theorem Holds.bindVariable (h : E.Holds w) (scope : ScopeId) (name : String)
    {record : VariableRecord} (hvalue : record.value.Plain)
    (hcondition : ∀ c, record.constraint = some c → c.Local E.own E.bodies) :
    E.Holds (w.bindVariable scope name record) := by
  have scopeAt (id : ScopeId) : (w.bindVariable scope name record).scopeAt id =
      { w.scopeAt id with vars := ((w.bindVariable scope name record).scopeAt id).vars } := by
    rw [World.scopeAt_bindVariable]
    split <;> rfl
  have new : E.inside ⟨w.vars.size⟩ := h.fresh (Nat.le_refl _)
  refine h.ofSame (h.nested.bindVariable scope name record) rfl ?_ (fun id => by rw [scopeAt])
    (by rw [scopeAt]) (fun id entry hentry => ?_) (fun id entry hentry => ?_)
    (fun id entry hentry => ?_) fun id => ?_
  · simp [World.bindVariable, World.modifyScope]
  · rw [scopeAt] at hentry
    exact .inl hentry
  · rw [scopeAt] at hentry
    exact .inl hentry
  · rw [World.scopeAt_bindVariable] at hentry
    split at hentry
    · rcases Entries.mem_insert hentry with old | rfl
      · exact .inl old
      · exact .inr new
    · exact .inl hentry
  · rw [World.variableAt_bindVariable]
    split
    · rename_i hid
      exact .inr ⟨h.fresh (Nat.le_of_eq hid.symm), hvalue, hcondition⟩
    · exact .inl rfl

/-- A variable that belongs to the scope takes a value. -/
theorem Holds.storeValue (h : E.Holds w) {id : VariableId} (hid : E.inside id) {value : Value}
    (hvalue : value.Plain) : E.Holds (w.storeValue id value) := by
  refine h.ofSame (h.nested.storeValue id value) rfl ?_ (fun _ => rfl) rfl (fun _ _ => .inl)
    (fun _ _ => .inl) (fun _ _ => .inl) fun other => ?_
  · simp [World.storeValue, World.modifyVariable]
  · rw [World.storeValue, World.variableAt_modifyVariable]
    split
    · rename_i found
      exact .inr ⟨found.1 ▸ hid, hvalue, fun c hc => h.secluded.condition (found.1 ▸ hid) hc⟩
    · exact .inl rfl

/-- Copied values take marks. -/
theorem Holds.marks (h : E.Holds w) (n : Nat) : E.Holds { w with marks := n } :=
  h.ofSame (h.nested.ofScopes rfl (Nat.le_refl _)) rfl (Nat.le_refl _) (fun _ => rfl) rfl
    (fun _ _ => .inl) (fun _ _ => .inl) (fun _ _ => .inl) fun _ => .inl rfl

/-! ## Changes -/

namespace Changes

theorem refl (E : Enclosure) (w : World) : E.Changes w w :=
  ⟨rfl, Nat.le_refl _, Nat.le_refl _, fun _ => rfl, fun _ _ => rfl, fun _ => rfl⟩

theorem ancestors (h : E.Changes w w') (hw : w.Nested) (hscope : scope.index < w.scopes.size) :
    w'.ancestors scope = w.ancestors scope :=
  hw.ancestors_of_older fun _ hid => h.parent (Nat.lt_of_le_of_lt hid hscope)

theorem trans (h : E.Changes w w') (h' : E.Changes w' w'') (hw : w.Nested) : E.Changes w w'' where
  rest := by
    rw [h'.rest, h.rest]
  scopes_le := Nat.le_trans h.scopes_le h'.scopes_le
  vars_le := Nat.le_trans h.vars_le h'.vars_le
  parent hscope :=
    (h'.parent (Nat.lt_of_lt_of_le hscope h.scopes_le)).trans (h.parent hscope)
  apart hscope hout := by
    have later := h'.apart (Nat.lt_of_lt_of_le hscope h.scopes_le) (h.ancestors hw hscope ▸ hout)
    exact later.trans (h.apart hscope hout)
  outside hout := (h'.outside hout).trans (h.outside hout)

theorem modifyScope (hscope : E.top ∈ w.ancestors scope) {f : ScopeRecord → ScopeRecord}
    (hparent : ∀ r, (f r).parent = r.parent) : E.Changes w (w.modifyScope scope f) := by
  have size : (w.modifyScope scope f).scopes.size = w.scopes.size := Array.size_modify ..
  refine ⟨rfl, Nat.le_of_eq size.symm, Nat.le_refl _, fun _ => ?_, fun _ hout => ?_, fun _ => rfl⟩
  · rw [World.scopeAt_modifyScope]
    split
    · exact hparent _
    · rfl
  · rw [World.scopeAt_modifyScope, if_neg]
    intro found
    exact hout (found.1 ▸ hscope)

theorem push (E : Enclosure) (w : World) (record : ScopeRecord) :
    E.Changes w { w with scopes := w.scopes.push record } := by
  have older {id : ScopeId} (h : id.index < w.scopes.size) :
      ({ w with scopes := w.scopes.push record } : World).scopeAt id = w.scopeAt id := by
    rw [World.scopeAt_push, if_neg (Nat.ne_of_lt h)]
  exact ⟨rfl, by simp, Nat.le_refl _, fun h => by rw [older h], fun h _ => older h, fun _ => rfl⟩

theorem bindVariable (hscope : E.top ∈ w.ancestors scope) (hnew : E.inside ⟨w.vars.size⟩)
    (name : String) (record : VariableRecord) :
    E.Changes w (w.bindVariable scope name record) := by
  have scopes : (w.bindVariable scope name record).scopes.size = w.scopes.size :=
    Array.size_modify ..
  have vars : (w.bindVariable scope name record).vars.size = w.vars.size + 1 := Array.size_push _
  refine ⟨rfl, Nat.le_of_eq scopes.symm, by omega, fun _ => ?_, fun _ hout => ?_,
    fun {id} hout => ?_⟩
  · rw [World.scopeAt_bindVariable]
    split <;> rfl
  · rw [World.scopeAt_bindVariable, if_neg]
    intro found
    exact hout (found.1 ▸ hscope)
  · rw [World.variableAt_bindVariable, if_neg]
    intro hid
    obtain ⟨index⟩ := id
    cases hid
    exact hout hnew

theorem storeValue {id : VariableId} (hid : E.inside id) (w : World) (value : Value) :
    E.Changes w (w.storeValue id value) := by
  have size : (w.storeValue id value).vars.size = w.vars.size := Array.size_modify ..
  refine ⟨rfl, Nat.le_refl _, Nat.le_of_eq size.symm, fun _ => rfl, fun _ _ => rfl, fun hout => ?_⟩
  rw [World.storeValue, World.variableAt_modifyVariable, if_neg]
  intro found
  exact hout (found.1 ▸ hid)

theorem marks (E : Enclosure) (w : World) (n : Nat) : E.Changes w { w with marks := n } :=
  ⟨rfl, Nat.le_refl _, Nat.le_refl _, fun _ => rfl, fun _ _ => rfl, fun _ => rfl⟩

end Changes

/-! ## Two states side by side -/

namespace LooksAlike

variable (h : E.LooksAlike w v)
include h

/-- What does not depend on followers and handlers is the same. -/
theorem part {α : Type} {f : ScopeRecord → α} (hf : ∀ r, f r.unattended = f r) (id : ScopeId) :
    f (v.scopeAt id) = f (w.scopeAt id) := by
  rw [← hf, h.scope, hf]

theorem parent (id : ScopeId) : (v.scopeAt id).parent = (w.scopeAt id).parent :=
  h.part (fun _ => rfl) id

theorem pure (id : ScopeId) : (v.scopeAt id).pure = (w.scopeAt id).pure :=
  h.part (fun _ => rfl) id

theorem destroyed (id : ScopeId) : (v.scopeAt id).destroyed = (w.scopeAt id).destroyed :=
  h.part (fun _ => rfl) id

theorem source (id : ScopeId) : (v.scopeAt id).source = (w.scopeAt id).source :=
  h.part (fun _ => rfl) id

theorem bound (id : ScopeId) : (v.scopeAt id).vars = (w.scopeAt id).vars :=
  h.part (fun _ => rfl) id

theorem parameters (id : ScopeId) : (v.scopeAt id).parameters = (w.scopeAt id).parameters :=
  h.part (fun _ => rfl) id

theorem text (id : ScopeId) : v.scopeText id = w.scopeText id := by
  have name : (v.scopeAt id).name = (w.scopeAt id).name := h.part (fun _ => rfl) id
  rw [World.scopeText, World.scopeText, name]

theorem ancestors (id : ScopeId) : v.ancestors id = w.ancestors id :=
  World.ancestors_of_parents h.parent id

theorem findVariable? (id : ScopeId) (name : String) :
    v.findVariable? id name = w.findVariable? id name := by
  rw [World.findVariable?, World.findVariable?, h.ancestors]
  simp only [h.bound]

theorem findParameter? (id : ScopeId) (key : String) :
    v.findParameter? id key = w.findParameter? id key := by
  have scopes : v.parameterScopes id = w.parameterScopes id := by
    rw [World.parameterScopes, World.parameterScopes, h.ancestors]
    exact List.filter_congr fun above _ => h.part (fun _ => rfl) above
  rw [World.findParameter?, World.findParameter?, scopes]
  simp only [h.parameters]

/-- What holds of one state holds of the other if nobody follows a variable there either. -/
theorem holds (hw : E.Holds w) (hquiet : ∀ {scope : ScopeId}, E.top ∈ v.ancestors scope →
    ∀ entry ∈ (v.scopeAt scope).listeners, entry.2 = []) : E.Holds v where
  nested := {
    parent_lt hparent := hw.nested.parent_lt (h.parent _ ▸ hparent)
    pure hparent hpure := by
      rw [h.parent] at hparent
      rw [h.pure] at hpure ⊢
      exact hw.nested.pure hparent hpure
    bound hvar := h.vars ▸ hw.nested.bound (h.bound _ ▸ hvar)
    named hvar hvar' := hw.nested.named (h.bound _ ▸ hvar) (h.bound _ ▸ hvar') }
  body lambda := (h.body lambda).trans (hw.body lambda)
  bound hscope entry hentry := by
    rw [h.ancestors] at hscope
    exact hw.bound hscope entry (h.bound _ ▸ hentry)
  fresh hid := hw.fresh (h.vars ▸ hid)
  secluded := {
    pure := (h.pure _).trans hw.secluded.pure
    quiet := hquiet
    kept hid := h.inside hid ▸ hw.secluded.kept hid
    readable hnear entry hentry hread := by
      obtain ⟨scope, hscope, habove⟩ := hnear
      rw [h.ancestors] at hscope habove
      rw [h.readable] at hread
      rw [h.value hread]
      exact hw.secluded.readable ⟨scope, hscope, habove⟩ entry (h.bound _ ▸ hentry) hread
    parameter hnear entry hentry := by
      obtain ⟨scope, hscope, habove⟩ := hnear
      rw [h.ancestors] at hscope habove
      exact hw.secluded.parameter ⟨scope, hscope, habove⟩ entry (h.parameters _ ▸ hentry)
    condition hid c hc := hw.secluded.condition hid (h.inside hid ▸ hc) }

theorem modifyScope (scope : ScopeId) {f : ScopeRecord → ScopeRecord}
    (hf : ∀ r, (f r).unattended = (f r.unattended).unattended) :
    E.LooksAlike (w.modifyScope scope f) (v.modifyScope scope f) := by
  have size (u : World) : (u.modifyScope scope f).scopes.size = u.scopes.size :=
    Array.size_modify ..
  refine { h with scopes := ?_, scope := fun id => ?_ }
  · rw [size, size, h.scopes]
  · rw [World.scopeAt_modifyScope, World.scopeAt_modifyScope, h.scopes]
    split
    · rw [hf, h.scope, ← hf]
    · exact h.scope id

theorem push (record : ScopeRecord) :
    E.LooksAlike { w with scopes := w.scopes.push record }
      { v with scopes := v.scopes.push record } := by
  refine { h with scopes := ?_, scope := fun id => ?_ }
  · simp [h.scopes]
  · rw [World.scopeAt_push, World.scopeAt_push, h.scopes]
    split
    · rfl
    · exact h.scope id

theorem bindVariable (scope : ScopeId) (name : String) (record : VariableRecord) :
    E.LooksAlike (w.bindVariable scope name record) (v.bindVariable scope name record) := by
  have vars (u : World) : (u.bindVariable scope name record).vars.size = u.vars.size + 1 :=
    Array.size_push _
  have scopes (u : World) : (u.bindVariable scope name record).scopes.size = u.scopes.size :=
    Array.size_modify ..
  have variableAt (id : VariableId) : (v.bindVariable scope name record).variableAt id =
      if id.index = w.vars.size then record else v.variableAt id := by
    rw [World.variableAt_bindVariable, h.vars]
  refine ⟨h.maxDepth, ?_, ?_, h.marks, h.body, fun id => ?_, fun hid => ?_, fun id => ?_,
    fun {id} hr => ?_⟩
  · rw [scopes, scopes, h.scopes]
  · rw [vars, vars, h.vars]
  · rw [World.scopeAt_bindVariable, World.scopeAt_bindVariable, h.scopes, h.vars]
    split
    · exact congrArg (fun r : ScopeRecord =>
        { r with vars := Entries.insert r.vars name ⟨w.vars.size⟩ }) (h.scope id)
    · exact h.scope id
  · rw [variableAt, World.variableAt_bindVariable, h.inside hid]
  · rw [variableAt, World.variableAt_bindVariable]
    split
    · rfl
    · exact h.readable id
  · rw [World.variableAt_bindVariable] at hr
    rw [variableAt, World.variableAt_bindVariable]
    by_cases hid : id.index = w.vars.size
    · rw [if_pos hid, if_pos hid]
    · rw [if_neg hid] at hr
      rw [if_neg hid, if_neg hid]
      exact h.value hr

theorem storeValue (id : VariableId) (value : Value) :
    E.LooksAlike (w.storeValue id value) (v.storeValue id value) := by
  have vars (u : World) : (u.storeValue id value).vars.size = u.vars.size := Array.size_modify ..
  have stored (u : World) (other : VariableId) : (u.storeValue id value).variableAt other =
      if id = other ∧ other.index < u.vars.size then { u.variableAt other with value }
      else u.variableAt other :=
    World.variableAt_modifyVariable u id other _
  refine { h with
    vars := ?_, inside := fun hother => ?_, readable := fun other => ?_,
    value := fun {other} hr => ?_ }
  · rw [vars, vars, h.vars]
  · rw [stored, stored, h.vars, h.inside hother]
  · rw [stored, stored, h.vars]
    split
    · exact h.readable other
    · exact h.readable other
  · rw [stored] at hr
    rw [stored, stored, h.vars]
    by_cases found : id = other ∧ other.index < w.vars.size
    · rw [if_pos found, if_pos found]
    · rw [if_neg found] at hr
      rw [if_neg found, if_neg found]
      exact h.value hr

theorem withMarks (n : Nat) : E.LooksAlike { w with marks := n } { v with marks := n } :=
  { h with marks := rfl }

end LooksAlike

theorem Twins.goOn (h : E.Twins w v) : E.GoOn w v w v :=
  ⟨h, .refl E w, .refl E v⟩

namespace GoOn

theorem trans (h : E.GoOn w v w' v') (h' : E.GoOn w' v' w'' v'') (hw : E.Twins w v) :
    E.GoOn w v w'' v'' :=
  ⟨h'.twins, h.left.trans h'.left hw.left.nested, h.right.trans h'.right hw.right.nested⟩

/-- What is below the scope stays there. -/
theorem below (h : E.GoOn w v w' v') (hw : E.Twins w v) (hscope : E.top ∈ w.ancestors scope) :
    E.top ∈ w'.ancestors scope := by
  rw [h.left.ancestors hw.left.nested (hw.left.lt hscope)]
  exact hscope

/-- A scope at or below the pure one changes in both states. -/
theorem modifyScope (h : E.Twins w v) (hscope : E.top ∈ w.ancestors scope)
    {f : ScopeRecord → ScopeRecord} (hparent : ∀ r, (f r).parent = r.parent)
    (hpure : ∀ r, (f r).pure = r.pure) (hvars : ∀ r, ∀ entry ∈ (f r).vars, entry ∈ r.vars)
    (hlisteners : ∀ r, ∀ entry ∈ (f r).listeners, entry ∈ r.listeners ∨ entry.2 = [])
    (hparameters : ∀ r, ∀ entry ∈ (f r).parameters, entry ∈ r.parameters ∨ entry.2.Plain)
    (hf : ∀ r, (f r).unattended = (f r.unattended).unattended) :
    E.GoOn w v (w.modifyScope scope f) (v.modifyScope scope f) :=
  ⟨⟨h.left.modifyScope scope hparent hpure hvars hlisteners hparameters,
      h.right.modifyScope scope hparent hpure hvars hlisteners hparameters,
      h.alike.modifyScope scope hf⟩,
    .modifyScope hscope hparent, .modifyScope (h.alike.ancestors scope ▸ hscope) hparent⟩

/-- A new scope comes to both states, at or below the pure one. -/
theorem push (h : E.Twins w v) (hscope : E.top ∈ w.ancestors scope) {record : ScopeRecord}
    (hparent : record.parent = some scope) (hpure : record.pure = true)
    (hvars : record.vars = []) (hlisteners : record.listeners = [])
    (hparameters : record.parameters = []) :
    E.GoOn w v { w with scopes := w.scopes.push record }
      { v with scopes := v.scopes.push record } :=
  have hscope' : E.top ∈ v.ancestors scope := h.alike.ancestors scope ▸ hscope
  ⟨⟨h.left.push hscope hparent hpure hvars hlisteners hparameters,
      h.right.push hscope' hparent hpure hvars hlisteners hparameters, h.alike.push record⟩,
    .push E w record, .push E v record⟩

/-- A scope at or below the pure one binds a name to a new variable, the same one in both states. -/
theorem bindVariable (h : E.Twins w v) (hscope : E.top ∈ w.ancestors scope) (name : String)
    {record : VariableRecord} (hvalue : record.value.Plain)
    (hcondition : ∀ c, record.constraint = some c → c.Local E.own E.bodies) :
    E.GoOn w v (w.bindVariable scope name record) (v.bindVariable scope name record) :=
  ⟨⟨h.left.bindVariable scope name hvalue hcondition,
      h.right.bindVariable scope name hvalue hcondition, h.alike.bindVariable scope name record⟩,
    .bindVariable hscope (h.left.fresh (Nat.le_refl _)) name record,
    .bindVariable (h.alike.ancestors scope ▸ hscope) (h.right.fresh (Nat.le_refl _)) name record⟩

/-- A variable that belongs to the scope takes a value. -/
theorem storeValue (h : E.Twins w v) {id : VariableId} (hid : E.inside id) {value : Value}
    (hvalue : value.Plain) : E.GoOn w v (w.storeValue id value) (v.storeValue id value) :=
  ⟨⟨h.left.storeValue hid hvalue, h.right.storeValue hid hvalue, h.alike.storeValue id value⟩,
    .storeValue hid w value, .storeValue hid v value⟩

/-- Copied values take marks. -/
theorem marks (h : E.Twins w v) (n : Nat) :
    E.GoOn w v { w with marks := n } { v with marks := n } :=
  ⟨⟨h.left.marks n, h.right.marks n, h.alike.withMarks n⟩, .marks E w n, .marks E v n⟩

end GoOn

end Enclosure

end Reactor
