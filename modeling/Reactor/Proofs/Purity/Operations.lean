import Reactor.Proofs.Purity.Enclosures
import Reactor.Proofs.Variables.Writes
import Reactor.Proofs.Names.Written

/-!
# Calls on pure scopes

A computation is *tied* (`Enclosure.Tied`) to an enclosure in two states if it ends with the same result
in both, they go on to states that look alike, and only what belongs to the enclosure changes. There is
one rule for each way in which computations are put together, and one lemma for each operation on a
scope at or below the pure one.

Each operation on a scope at or below a pure one is tied: it gives the same in two states that look alike
from there, and changes only what belongs to the pure scope. A read is refused or gives a value that is
the same in both states; a write is refused unless the scope itself declares the variable.
-/

namespace Reactor

/-- Both computations end, with the same result, or both go beyond their budget. -/
inductive Outcome.Paired {α : Type} (Q : Except Error α → World → World → Prop) :
    Outcome α → Outcome α → Prop
  | value {a : α} {w v : World} (h : Q (.ok a) w v) : Paired Q (.value a w) (.value a v)
  | error {e : Error} {w v : World} (h : Q (.error e) w v) : Paired Q (.error e w) (.error e v)
  | exhausted : Paired Q .exhausted .exhausted

theorem Outcome.Paired.mono {α : Type} {Q R : Except Error α → World → World → Prop}
    {x y : Outcome α} (h : x.Paired Q y) (hQR : ∀ r w v, Q r w v → R r w v) : x.Paired R y := by
  cases h with
  | value h => exact .value (hQR _ _ _ h)
  | error h => exact .error (hQR _ _ _ h)
  | exhausted => exact .exhausted

namespace Enclosure

/-- The computation gives the same in both states, with a property, and the states go on to look
alike. -/
def Tied {α : Type} (E : Enclosure) (ctx : Context) (P : α → World → Prop) (act : Eval α)
    (w v : World) : Prop :=
  (act ctx w).Paired (fun r w' v' => E.GoOn w v w' v' ∧ ∀ a, r = .ok a → P a w') (act ctx v)

/-- Scripts that conditions may run are tied in each scope at or below the pure one. -/
def Confines (E : Enclosure) (ctx : Context) : Prop :=
  ∀ e, E.own e → ∀ (scope : ScopeId) (thread : Thread) (w v : World), E.Twins w v →
    E.top ∈ w.ancestors scope →
    E.Tied { ctx with thread } (fun a _ => a.Plain) (Eval.evaluate e scope none) w v

variable {E : Enclosure} {ctx : Context} {α β : Type} {P : α → World → Prop}
  {Q : β → World → Prop} {w v w' v' : World}

/-! ## Rules -/

namespace Tied

/-- A failure gives nothing that could lack a property. -/
theorem of_error {e : Error} (h : E.GoOn w v w' v') :
    E.GoOn w v w' v' ∧ ∀ a, (.error e : Except Error α) = .ok a → P a w' := by
  refine ⟨h, fun a ha => ?_⟩
  cases ha

theorem pure (h : E.Twins w v) {a : α} (ha : P a w) : E.Tied ctx P (Pure.pure a) w v := by
  refine .value ⟨h.goOn, fun b hb => ?_⟩
  cases hb
  exact ha

theorem fail (h : E.Twins w v) (e : Error) : E.Tied ctx P (Eval.fail e) w v :=
  .error (of_error h.goOn)

theorem ofExcept (h : E.Twins w v) {r : Except Error α} (hr : ∀ a, r = .ok a → P a w) :
    E.Tied ctx P (Eval.ofExcept r) w v := by
  cases r with
  | ok a => exact pure h (hr a rfl)
  | error e => exact fail h e

/-- Both have ended, with the same result and without a change. -/
theorem done (h : E.Twins w v) {r : Except Error α} (hr : ∀ a, r = .ok a → P a w) :
    (Outcome.done r w).Paired (fun r w' v' => E.GoOn w v w' v' ∧ ∀ a, r = .ok a → P a w')
      (Outcome.done r v) := by
  cases r with
  | ok a => exact .value ⟨h.goOn, hr⟩
  | error e => exact .error ⟨h.goOn, hr⟩

/-- What does not look at the state gives the same in both. -/
theorem ofSteady {act : Eval α} {R : α → Prop} (hact : Eval.Steady R act) (h : E.Twins w v) :
    E.Tied ctx (fun a _ => R a) act w v := by
  unfold Tied
  rcases hact ctx with run | ⟨r, hr, run⟩
  · rw [run, run]
    exact .exhausted
  · rw [run, run]
    exact done h hr

theorem mono {P' : α → World → Prop} {act : Eval α} (h : E.Tied ctx P act w v)
    (hP : ∀ a w', P a w' → P' a w') : E.Tied ctx P' act w v :=
  Outcome.Paired.mono h fun _ _ _ hr => ⟨hr.1, fun a ha => hP a _ (hr.2 a ha)⟩

theorem bind {act : Eval α} {f : α → Eval β} (hw : E.Twins w v) (h : E.Tied ctx P act w v)
    (hf : ∀ a w' v', E.GoOn w v w' v' → P a w' → E.Tied ctx Q (f a) w' v') :
    E.Tied ctx Q (act >>= f) w v := by
  unfold Tied at h ⊢
  rw [Eval.bind_apply, Eval.bind_apply]
  generalize act ctx w = x at h ⊢
  generalize act ctx v = y at h ⊢
  cases h with
  | value ha =>
    refine Outcome.Paired.mono (hf _ _ _ ha.1 (ha.2 _ rfl)) fun r w'' v'' hr => ?_
    exact ⟨ha.1.trans hr.1 hw, hr.2⟩
  | error he => exact .error (of_error he.1)
  | exhausted => exact .exhausted

/-- The work goes on whatever has become of the first part. -/
theorem attempt {act : Eval α} (h : E.Tied ctx P act w v) :
    E.Tied ctx (fun r w' => ∀ a, r = .ok a → P a w') act.attempt w v := by
  unfold Tied at h ⊢
  rw [Eval.attempt_apply, Eval.attempt_apply]
  generalize act ctx w = x at h ⊢
  generalize act ctx v = y at h ⊢
  cases h with
  | value ha =>
    refine .value ⟨ha.1, fun r hr => ?_⟩
    cases hr
    exact ha.2
  | error he =>
    refine .value ⟨he.1, fun r hr => ?_⟩
    cases hr
    intro b hb
    cases hb
  | exhausted => exact .exhausted

theorem holding {act : Eval α} (places : List Place)
    (h : E.Tied { ctx with thread := { ctx.thread with held := places ++ ctx.thread.held } } P act
      w v) : E.Tied ctx P (Eval.holding places act) w v :=
  h

/-- The greatest depth is the same in both states. -/
theorem nested {act : Eval α} (hw : E.Twins w v)
    (h : E.Tied { ctx with thread := { ctx.thread with depth := ctx.thread.depth + 1 } } P act w v) :
    E.Tied ctx P (Eval.nested act) w v := by
  unfold Tied Eval.nested
  rw [hw.alike.maxDepth]
  split
  · exact .error (of_error hw.goOn)
  · exact h

/-- What is read is the same in both states. -/
theorem gets {f : World → α} {g : α → Eval β} (hf : f v = f w) (h : E.Tied ctx Q (g (f w)) w v) :
    E.Tied ctx Q (Eval.gets f >>= g) w v := by
  unfold Tied at h ⊢
  rw [Eval.bind_apply, Eval.bind_apply, Eval.gets_apply, Eval.gets_apply, hf]
  exact h

theorem modify {f : World → World} (h : E.GoOn w v (f w) (f v)) :
    E.Tied ctx (fun _ _ => True) (Eval.modify f) w v :=
  .value ⟨h, fun _ _ => trivial⟩

end Tied

end Enclosure

namespace Enclosure

variable {E : Enclosure} {ctx : Context} {α β : Type} {P : α → World → Prop}
  {Q : β → World → Prop} {w v : World} {scope owner : ScopeId} {name : String}

/-! ## Scopes -/

section Scopes

variable (h : E.Twins w v)
include h

theorem tied_onAlive {f : Unit → Eval β}
    (hf : (w.scopeAt scope).destroyed = false → E.Tied ctx Q (f ()) w v) :
    E.Tied ctx Q (scope.checkAlive >>= f) w v := by
  cases hd : (w.scopeAt scope).destroyed with
  | false =>
    have run := hf hd
    unfold Tied at run ⊢
    rw [Eval.bind_apply, Eval.bind_apply, World.checkAlive_apply hd,
      World.checkAlive_apply ((h.alike.destroyed scope).trans hd)]
    exact run
  | true =>
    have refused (u : World) (hu : (u.scopeAt scope).destroyed = true) :
        (scope.checkAlive >>= f) ctx u =
          .error (.assertion ("Scope " ++ u.scopeText scope ++ " has been destroyed")) u := by
      rw [Eval.bind_apply, ScopeId.checkAlive_of_destroyed hu, Outcome.bind_error]
    unfold Tied
    rw [refused w hd, refused v ((h.alike.destroyed scope).trans hd), h.alike.text]
    exact .error (Tied.of_error h.goOn)

/-- Followers and handlers of a scope may differ in the two states. -/
theorem tied_record {f : ScopeRecord → Eval β} (hsame : ∀ r, f r.unattended = f r)
    (hf : E.Tied ctx Q (f (w.scopeAt scope)) w v) : E.Tied ctx Q (scope.record >>= f) w v := by
  have same : f (v.scopeAt scope) = f (w.scopeAt scope) := h.alike.part hsame scope
  unfold Tied at hf ⊢
  unfold ScopeId.record
  rw [Eval.bind_apply, Eval.bind_apply, Eval.gets_apply, Eval.gets_apply, Outcome.bind_value,
    Outcome.bind_value, same]
  exact hf

theorem tied_text {f : String → Eval β} (hf : E.Tied ctx Q (f (w.scopeText scope)) w v) :
    E.Tied ctx Q (scope.text >>= f) w v :=
  .gets (h.alike.text scope) hf

variable (hscope : E.top ∈ w.ancestors scope)
include hscope

/-- A new scope is below the pure one, too. -/
theorem tied_child (pure : Bool) :
    E.Tied ctx (fun new w' => E.top ∈ w'.ancestors new) (scope.child pure name) w v := by
  unfold ScopeId.child
  refine tied_onAlive h fun _ => tied_record h (fun _ => rfl) ?_
  split
  · exact tied_text h (.fail h _)
  · rename_i hallowed
    have hpure : pure = true := by
      rw [h.left.pure hscope] at hallowed
      simpa using hallowed
    unfold Tied ScopeId.create
    rw [Eval.modifyGet_apply, Eval.modifyGet_apply, h.alike.scopes]
    refine .value ⟨GoOn.push h hscope rfl hpure rfl rfl rfl, fun new hnew => ?_⟩
    cases hnew
    exact h.left.below_push hscope rfl hpure rfl

/-- A parameter of a scope below the pure one is bound in both states. -/
theorem tied_bind (key : String) {value : Value} (hvalue : value.Plain) :
    E.Tied ctx (fun _ _ => True) (scope.bind key value) w v := by
  unfold ScopeId.bind
  refine tied_onAlive h fun _ => ?_
  have marked : E.GoOn w v
      (w.modifyScope scope fun record => { record with parameterScope := true })
      (v.modifyScope scope fun record => { record with parameterScope := true }) :=
    .modifyScope h hscope (fun _ => rfl) (fun _ => rfl) (fun _ _ => id) (fun _ _ => .inl)
      (fun _ _ => .inl) fun _ => rfl
  refine Tied.bind h (.modify marked) fun _ w' v' go _ => tied_record go.twins (fun _ => rfl) ?_
  split
  · exact tied_text go.twins (.fail go.twins _)
  · have bound : E.GoOn w' v'
        (w'.modifyScope scope fun record =>
          { record with parameters := Entries.insert record.parameters key value })
        (v'.modifyScope scope fun record =>
          { record with parameters := Entries.insert record.parameters key value }) := by
      refine .modifyScope go.twins (go.below h hscope) (fun _ => rfl) (fun _ => rfl) (fun _ _ => id)
        (fun _ _ => .inl) (fun r entry hentry => ?_) fun _ => rfl
      rcases Entries.mem_insert hentry with old | rfl
      · exact .inl old
      · exact .inr hvalue
    exact Tied.bind go.twins (.modify bound) fun _ _ _ go' _ => .pure go'.twins trivial

theorem tied_destroy : E.Tied ctx (fun _ _ => True) scope.destroy w v := by
  refine .modify (.modifyScope h hscope ScopeRecord.parent_ended ScopeRecord.pure_ended
    (fun r entry hentry => ?_) (fun r entry hentry => ?_) (fun r entry hentry => ?_) fun r => ?_)
  all_goals unfold ScopeRecord.ended at *
  · split at hentry
    · exact hentry
    · cases hentry
  · split at hentry
    · exact .inl hentry
    · cases hentry
  · split at hentry
    · exact .inl hentry
    · cases hentry
  · cases hr : r.destroyed with
    | true => simp [ScopeRecord.unattended, hr]
    | false => simp [ScopeRecord.unattended, ScopeRecord.emptied, hr]

/-- Nobody follows a variable there, so nobody is told. -/
theorem tied_notify : E.Tied ctx (fun _ _ => True) (scope.notify name) w v := by
  have nobody {u : World} (hu : E.Holds u) (hin : E.top ∈ u.ancestors scope) :
      u.followersAt scope name = [] := by
    unfold World.followersAt
    cases hget : Entries.get? (u.scopeAt scope).listeners name with
    | none => rfl
    | some followers => exact hu.secluded.quiet hin _ (Entries.mem_of_get?_eq_some hget)
  unfold Tied
  rw [ScopeId.notify_of_no_followers (nobody h.left hscope),
    ScopeId.notify_of_no_followers (nobody h.right (h.alike.ancestors scope ▸ hscope))]
  refine .value ⟨.modifyScope h hscope (fun _ => rfl) (fun _ => rfl) (fun _ _ => id)
    (fun r entry hentry => ?_) (fun _ _ => .inl) fun _ => rfl, fun _ _ => trivial⟩
  obtain ⟨old, hold, rfl⟩ := List.mem_map.1 hentry
  dsimp only
  split
  · exact .inr rfl
  · exact .inl hold

end Scopes

/-! ## Reads -/

/-- What is found above the scope and can be read is plain. -/
theorem Holds.plain_of_found (h : E.Holds w) (hscope : E.top ∈ w.ancestors scope) {id : VariableId}
    (hfound : w.findVariable? scope name = some (owner, id))
    (hread : (w.variableAt id).isPureReadable = true) : (w.variableAt id).value.Plain := by
  obtain ⟨habove, hentry⟩ := World.of_findVariable? hfound
  exact h.secluded.readable ⟨scope, hscope, habove⟩ _ hentry hread

theorem Holds.plain_of_findParameter? (h : E.Holds w) (hscope : E.top ∈ w.ancestors scope)
    {key : String} : ((w.findParameter? scope key).getD .void).Plain := by
  cases hfound : w.findParameter? scope key with
  | none => rfl
  | some value =>
    obtain ⟨above, habove, hentry⟩ := World.of_findParameter? hfound
    exact h.secluded.parameter ⟨scope, hscope, habove⟩ _ hentry

/-- A name gives the same in both states. -/
theorem Twins.look (h : E.Twins w v) (hscope : E.top ∈ w.ancestors scope) (must : Bool) :
    v.look scope name must = w.look scope name must := by
  have pure := h.left.pure hscope
  rw [World.look, World.look, h.alike.destroyed, h.alike.text, h.alike.findParameter?,
    h.alike.findVariable?, h.alike.pure, pure]
  cases w.findVariable? scope name with
  | none => rfl
  | some found =>
    dsimp only
    rw [h.alike.readable]
    cases hread : (w.variableAt found.2).isPureReadable with
    | false => rfl
    | true => rw [h.alike.value hread]

theorem Holds.plain_of_look (h : E.Holds w) (hscope : E.top ∈ w.ancestors scope) {must : Bool}
    {a : Value} (ha : w.look scope name must = .ok a) : a.Plain := by
  obtain ⟨-, rfl | hparameter | ⟨owner, id, hfound, rfl, hread⟩⟩ := World.look_eq_ok ha
  · rfl
  · have plain : ((w.findParameter? scope name).getD .void).Plain := h.plain_of_findParameter? hscope
    rwa [hparameter] at plain
  · exact h.plain_of_found hscope hfound (hread (h.pure hscope))

section Reads

variable (h : E.Twins w v) (hscope : E.top ∈ w.ancestors scope)
include h hscope

theorem tied_get (must : Bool) : E.Tied ctx (fun a _ => a.Plain) (scope.get name must) w v := by
  unfold Tied
  rw [World.get_eq_look, World.get_eq_look, h.look hscope]
  exact Tied.done h fun _ => h.left.plain_of_look hscope

theorem tied_getParameter (key : String) :
    E.Tied ctx (fun a _ => a.Plain) (scope.getParameter key) w v := by
  unfold ScopeId.getParameter
  refine tied_onAlive h fun _ => Tied.gets (h.alike.findParameter? scope key) ?_
  exact .pure h (h.left.plain_of_findParameter? hscope)

end Reads

/-! ## Conditions -/

/-- Copies of a plain value are plain, with the same marks in both states. -/
theorem tied_share (h : E.Twins w v) {value : Value} (hvalue : value.Plain) :
    E.Tied ctx (fun a _ => a.Plain) value.share w v := by
  unfold Tied
  rw [Value.share_apply, Value.share_apply, h.alike.marks]
  refine .value ⟨.marks h _, fun a ha => ?_⟩
  cases ha
  exact hvalue.of_unmark_eq (Value.unmark_markFrom _ _)

theorem Confines.withThread (hE : E.Confines ctx) (thread : Thread) :
    E.Confines { ctx with thread } :=
  fun e he scope thread' => hE e he scope thread'

section Conditions

variable (hE : E.Confines ctx) (h : E.Twins w v) (hscope : E.top ∈ w.ancestors scope)
  {constraint : Constraint} (hc : constraint.Local E.own E.bodies) {value previous : Value}
  (hvalue : value.Plain) (hprevious : previous.Plain)
include hE h hscope hc

/-- A condition is computed in the scope that it is applied in. -/
theorem tied_applyIn {lambda : LambdaId} (hl : constraint.predicate.lambda? = some lambda) :
    E.Tied ctx (fun a _ => a.Plain) (lambda.applyIn scope) w v := by
  refine .nested h ?_
  have computed : E.Tied { ctx with thread := { ctx.thread with depth := ctx.thread.depth + 1 } }
      (fun a _ => a.Plain) (lambda.compute scope) w v := by
    unfold Tied LambdaId.compute LambdaId.record
    rw [Eval.bind_apply, Eval.bind_apply, Eval.gets_apply, Eval.gets_apply, Outcome.bind_value,
      Outcome.bind_value, h.left.body, h.right.body]
    unfold Constraint.Local at hc
    rw [hl] at hc
    dsimp only at hc
    cases hb : E.bodies lambda with
    | script e =>
      rw [hb] at hc
      exact hE e hc scope _ w v h hscope
    | lookup name => exact tied_get h hscope true
    | await fork =>
      rw [hb] at hc
      exact hc.elim
  refine Tied.bind h computed fun value w' v' go hvalue => .holding _ ?_
  rw [Value.forced_of_lambda?_eq_none hvalue.lambda?_eq_none]
  exact .pure go.twins hvalue

include hvalue hprevious

theorem tied_verdict :
    E.Tied ctx (fun a _ => a.Plain) (scope.verdict name constraint value previous) w v := by
  unfold ScopeId.verdict
  cases hl : constraint.predicate.lambda? with
  | none =>
    unfold Constraint.Local at hc
    rw [hl] at hc
    exact .pure h hc
  | some lambda =>
    refine tied_record h (fun _ => rfl) ?_
    refine Tied.bind h (tied_child h hscope _) fun child w₁ v₁ go₁ hchild => ?_
    have h₁ := go₁.twins
    refine Tied.bind h₁ (tied_bind h₁ hchild "it" hvalue) fun _ w₂ v₂ go₂ _ => ?_
    have h₂ := go₂.twins
    have hchild₂ := go₂.below h₁ hchild
    refine Tied.bind h₂ (tied_bind h₂ hchild₂ "previous" hprevious) fun _ w₃ v₃ go₃ _ => ?_
    have h₃ := go₃.twins
    have hchild₃ := go₃.below h₂ hchild₂
    have applied := (tied_applyIn (hE.withThread _) h₃ hchild₃ hc hl).holding [.scope child]
    refine Tied.bind h₃ applied.attempt fun outcome w₄ v₄ go₄ houtcome => ?_
    have h₄ := go₄.twins
    refine Tied.bind h₄ (tied_destroy h₄ (go₄.below h₃ hchild₃)) fun _ w₅ v₅ go₅ _ => ?_
    cases outcome with
    | ok verdict => exact .pure go₅.twins (houtcome verdict rfl)
    | error e => exact .fail go₅.twins _

theorem tied_checkConstraint :
    E.Tied ctx (fun _ _ => True) (scope.checkConstraint name constraint value previous) w v := by
  refine .holding _ ?_
  refine Tied.bind h (tied_verdict (hE.withThread _) h hscope hc hvalue hprevious)
    fun verdict w₁ v₁ go₁ hverdict => ?_
  refine Tied.bind go₁.twins (.ofSteady (Value.steady_isTrue hverdict) go₁.twins)
    fun holds w₂ v₂ go₂ _ => ?_
  split
  · refine Tied.bind go₂.twins (.ofSteady (Value.steady_human hvalue) go₂.twins)
      fun text w₃ v₃ go₃ _ => ?_
    exact .fail go₃.twins _
  · exact .pure go₂.twins trivial

end Conditions

/-! ## Values to be stored -/

theorem tied_prepare (h : E.Twins w v) {value : Value} (hvalue : value.Plain)
    (flags : VariableFlags) :
    E.Tied ctx (fun a _ => a.Plain) (ScopeId.prepare name value flags) w v := by
  unfold ScopeId.prepare
  split
  · refine Tied.bind h (.holding _ (.ofSteady (Value.steady_fixDeep hvalue) h))
      fun fixed w' v' go hfixed => ?_
    dsimp only
    split
    · exact .fail go.twins _
    · exact tied_share go.twins hfixed
  · refine Tied.bind h (.pure (P := fun a _ => a.Plain) h hvalue) fun same w' v' go hsame => ?_
    dsimp only
    split
    · exact .fail go.twins _
    · exact tied_share go.twins hsame

/-- The value before an assignment is the same in both states. -/
def Recalls (E : Enclosure) (previous : World → Value) : Prop :=
  ∀ ⦃w v : World⦄, E.Twins w v → previous v = previous w ∧ (previous w).Plain

theorem tied_storable (hE : E.Confines ctx) (h : E.Twins w v) (hscope : E.top ∈ w.ancestors scope)
    {value : Value} (hvalue : value.Plain) (flags : VariableFlags) {constraint : Option Constraint}
    (hc : ∀ c, constraint = some c → c.Local E.own E.bodies) {previous : World → Value}
    (hprevious : E.Recalls previous) :
    E.Tied ctx (fun a _ => a.Plain) (scope.storable name value flags constraint previous) w v := by
  refine Tied.bind h (tied_prepare h hvalue flags) fun value w₁ v₁ go₁ hvalue => ?_
  have h₁ := go₁.twins
  unfold ScopeId.constrain
  cases constraint with
  | none => exact .pure h₁ hvalue
  | some c =>
    refine Tied.gets (hprevious h₁).1 ?_
    refine Tied.bind h₁ (tied_checkConstraint hE h₁ (go₁.below h hscope) (hc c rfl) hvalue
      (hprevious h₁).2) fun _ w₂ v₂ go₂ _ => ?_
    have marked : ∀ a, value.constrain c.source = .ok a → a.Plain := by
      intro a ha
      obtain ⟨data, notes⟩ := value
      obtain ⟨data', notes'⟩ := a
      cases (Value.constrain_eq_ok ha).1
      exact hvalue
    refine Tied.bind go₂.twins (.ofExcept (P := fun a _ => a.Plain) go₂.twins marked)
      fun a w₃ v₃ go₃ ha => ?_
    exact tied_share go₃.twins ha

/-! ## Declarations -/

theorem steady_checkThread (name : String) (record : VariableRecord) :
    Eval.Steady (fun _ => True) (ScopeId.checkThread name record) := by
  intro ctx
  unfold ScopeId.checkThread
  simp only [Eval.bind_apply, Eval.thread_apply, Outcome.bind_value]
  split
  · refine .inr ⟨.error _, ?_, fun _ => rfl⟩
    intro _ h
    cases h
  · exact .inr ⟨.ok (), fun _ _ => trivial, fun _ => rfl⟩

theorem tied_declaredFlags (h : E.Twins w v) (flags : VariableFlags) :
    E.Tied ctx (fun _ _ => True) (scope.declaredFlags name flags) w v := by
  refine tied_record h (fun _ => rfl) ?_
  split
  · exact .pure h trivial
  · split
    · exact .fail h _
    · exact .pure h trivial

/-- The variable that a scope declares under a name belongs to the pure scope. -/
theorem Holds.inside_of_own (h : E.Holds w) (hscope : E.top ∈ w.ancestors scope) {id : VariableId}
    (hid : Entries.get? (w.scopeAt scope).vars name = some id) : E.inside id :=
  h.bound hscope _ (Entries.mem_of_get?_eq_some hid)

/-- What a kept constraint may be. -/
theorem local_of_keepConstraint {old new result : Option Constraint}
    (hold : ∀ c, old = some c → c.Local E.own E.bodies)
    (hnew : ∀ c, new = some c → c.Local E.own E.bodies)
    (h : ScopeId.keepConstraint name old new = .ok result) :
    ∀ c, result = some c → c.Local E.own E.bodies := by
  unfold ScopeId.keepConstraint at h
  split at h
  · split at h
    · cases h
      exact hnew
    · cases h
  · cases h
    exact hold
  · cases h
    exact hnew

section Writes

variable (hE : E.Confines ctx) (h : E.Twins w v) (hscope : E.top ∈ w.ancestors scope)
  {value : Value} (hvalue : value.Plain)
include hE h hscope hvalue

theorem tied_propose {declaration : Declaration}
    (hc : ∀ c, declaration.constraint = some c → c.Local E.own E.bodies) :
    E.Tied ctx (fun proposal _ => proposal.record.value.Plain ∧
        ∀ c, proposal.record.constraint = some c → c.Local E.own E.bodies)
      (scope.propose name value declaration) w v := by
  unfold ScopeId.propose
  refine tied_onAlive h fun _ => ?_
  split
  · exact .fail h _
  refine Tied.bind h (tied_declaredFlags h _) fun flags w₁ v₁ go₁ _ => ?_
  have h₁ := go₁.twins
  have hscope₁ := go₁.below h hscope
  -- the variable that is replaced belongs to the pure scope
  have existing : (Entries.get? (v₁.scopeAt scope).vars name).map v₁.variableAt =
      (Entries.get? (w₁.scopeAt scope).vars name).map w₁.variableAt := by
    rw [h₁.alike.bound]
    cases hid : Entries.get? (w₁.scopeAt scope).vars name with
    | none => rfl
    | some id => exact congrArg some (h₁.alike.inside (h₁.left.inside_of_own hscope₁ hid))
  refine Tied.gets existing ?_
  have old : ∀ record, (Entries.get? (w₁.scopeAt scope).vars name).map w₁.variableAt = some record →
      record.value.Plain ∧ ∀ c, record.constraint = some c → c.Local E.own E.bodies := by
    intro record hrecord
    obtain ⟨id, hid, rfl⟩ := Option.map_eq_some_iff.1 hrecord
    have inside := h₁.left.inside_of_own hscope₁ hid
    exact ⟨h₁.left.secluded.kept inside, fun c hc => h₁.left.secluded.condition inside hc⟩
  generalize (Entries.get? (w₁.scopeAt scope).vars name).map w₁.variableAt = found at old
  refine Tied.bind h₁ (P := fun constraint _ => ∀ c, constraint = some c → c.Local E.own E.bodies) ?_
    fun constraint w₂ v₂ go₂ hconstraint => .holding _ ?_
  · cases found with
    | none => exact .pure h₁ hc
    | some record =>
      dsimp only
      split
      · exact .fail h₁ _
      · refine Tied.bind h₁ (.ofSteady (steady_checkThread name record) h₁) fun _ w' v' go _ => ?_
        exact .ofExcept go.twins fun _ => local_of_keepConstraint (old record rfl).2 hc
  have previous : ((found.map VariableRecord.value).getD .void).Plain := by
    cases found with
    | none => rfl
    | some record => exact (old record rfl).1
  refine Tied.bind go₂.twins (tied_storable (hE.withThread _) go₂.twins (go₂.below h₁ hscope₁) hvalue
    flags hconstraint fun _ _ _ => ⟨rfl, previous⟩) fun value w₃ v₃ go₃ hvalue => ?_
  refine Outcome.Paired.value ⟨go₃.twins.goOn, fun proposal hproposal => ?_⟩
  cases hproposal
  exact ⟨hvalue, hconstraint⟩

theorem tied_declare {declaration : Declaration}
    (hc : ∀ c, declaration.constraint = some c → c.Local E.own E.bodies) :
    E.Tied ctx (fun a _ => a.Plain) (scope.declare name value declaration) w v := by
  refine Tied.bind h (tied_propose hE h hscope hvalue hc) fun proposal w₁ v₁ go₁ hproposal => ?_
  have hscope₁ := go₁.below h hscope
  have bound := GoOn.bindVariable go₁.twins hscope₁ name hproposal.1 hproposal.2
  refine Tied.bind go₁.twins (.modify bound) fun _ w₂ v₂ go₂ _ => ?_
  refine Tied.bind go₂.twins (.holding _ (tied_notify go₂.twins (go₂.below go₁.twins hscope₁)))
    fun _ w₃ v₃ go₃ _ => ?_
  exact .pure go₃.twins hproposal.1

/-! ## Assignments -/

omit hE hvalue in
/-- A pure scope reaches no further than itself. -/
theorem tied_checkReach :
    E.Tied ctx (fun _ _ => owner = scope) (ScopeId.checkReach scope owner name) w v := by
  have same : ((v.ancestors scope).takeWhile (· ≠ owner)).find? (fun above => (v.scopeAt above).pure) =
      ((w.ancestors scope).takeWhile (· ≠ owner)).find? fun above => (w.scopeAt above).pure := by
    rw [h.alike.ancestors]
    simp only [h.alike.pure]
  unfold Tied ScopeId.checkReach
  rw [Eval.bind_apply, Eval.bind_apply, Eval.world_apply, Eval.world_apply, Outcome.bind_value,
    Outcome.bind_value, same]
  cases hfound : ((w.ancestors scope).takeWhile (· ≠ owner)).find?
      (fun above => (w.scopeAt above).pure) with
  | some barrier =>
    dsimp only
    rw [h.alike.text]
    exact Tied.fail h _
  | none =>
    refine Tied.pure h (Decidable.byContradiction fun hne => ?_)
    refine List.find?_eq_none.1 hfound scope ?_ (h.left.pure hscope)
    rw [h.left.nested.ancestors_eq, List.takeWhile_cons_of_pos (by simpa using Ne.symm hne)]
    exact List.mem_cons_self

theorem tied_assign {id : VariableId} (hid : (name, id) ∈ (w.scopeAt owner).vars) :
    E.Tied ctx (fun a _ => a.Plain) (scope.assign owner id name value) w v := by
  have proposed : E.Tied ctx (fun a _ => a.Plain ∧ owner = scope)
      (scope.proposeValue owner id name value) w v := by
    refine Tied.bind h (tied_checkReach h hscope) fun _ w₁ v₁ go₁ howner => ?_
    have h₁ := go₁.twins
    have hinside : E.inside id := h.left.bound hscope _ (howner ▸ hid)
    have record := h₁.alike.inside hinside
    refine Tied.gets record ?_
    split
    · exact .fail h₁ _
    · refine Tied.bind h₁ (.ofSteady (steady_checkThread name _) h₁) fun _ w₂ v₂ go₂ _ => .holding _ ?_
      have recalls : E.Recalls fun w => (w.variableAt id).value := fun _ _ h =>
        ⟨congrArg VariableRecord.value (h.alike.inside hinside), h.left.secluded.kept hinside⟩
      refine Tied.mono (tied_storable (hE.withThread _) go₂.twins
        (go₂.below h₁ (go₁.below h hscope)) hvalue _
        (fun c hc => h₁.left.secluded.condition hinside hc) recalls) fun a _ ha => ⟨ha, howner⟩
  refine Tied.bind h proposed fun stored w₁ v₁ go₁ hstored => ?_
  obtain ⟨hplain, rfl⟩ := hstored
  have hinside : E.inside id := h.left.bound hscope _ hid
  have hscope₁ := go₁.below h hscope
  refine Tied.bind go₁.twins (.modify (.storeValue go₁.twins hinside hplain))
    fun _ w₂ v₂ go₂ _ => ?_
  refine Tied.bind go₂.twins (.holding _ (tied_notify go₂.twins (go₂.below go₁.twins hscope₁)))
    fun _ w₃ v₃ go₃ _ => ?_
  exact .pure go₃.twins hplain

theorem tied_set : E.Tied ctx (fun a _ => a.Plain) (scope.set name value) w v := by
  unfold ScopeId.set
  refine tied_onAlive h fun _ => ?_
  split
  · exact .fail h _
  refine Tied.gets (h.alike.findVariable? scope name) ?_
  cases hfound : w.findVariable? scope name with
  | none =>
    refine tied_declare hE h hscope hvalue fun c hc => ?_
    cases hc
  | some found => exact tied_assign hE h hscope hvalue (World.of_findVariable? hfound).2

end Writes

/-! ## Runs -/

/-- A call on a scope at or below the pure one is tied. -/
theorem tied_call (hE : E.Confines ctx) (h : E.Twins w v) (hscope : E.top ∈ w.ancestors scope)
    {c : Call} (hc : c.Plain E.own E.bodies) : E.Tied ctx (fun a _ => a.Plain) (c.run scope) w v := by
  cases c with
  | get name must => exact tied_get h hscope must
  | set name value => exact tied_set hE h hscope hc
  | declare name value declaration => exact tied_declare hE h hscope hc.1 hc.2
  | getParameter key => exact tied_getParameter h hscope key

/-- A computation that uses only scopes at or below the pure one is tied. -/
theorem tied_of_uses {mine : List ScopeId} {α : Type} {R : α → Prop} {act : Eval α}
    (huses : Eval.Uses E.own E.bodies mine R act) (hE : E.Confines ctx) (h : E.Twins w v)
    (hmine : ∀ scope ∈ mine, E.top ∈ w.ancestors scope) :
    E.Tied ctx (fun a _ => R a) act w v := by
  induction huses generalizing ctx w v with
  | steady hact => exact .ofSteady hact h
  | share hvalue => exact tied_share h hvalue
  | call hscope hc => exact tied_call hE h (hmine _ hscope) hc
  | child hscope _ _ ihmade ihfailed =>
    refine Tied.bind h (tied_child h (hmine _ hscope) _).attempt fun made w' v' go hmade => ?_
    have hmine' : ∀ scope ∈ _, E.top ∈ w'.ancestors scope := fun scope hscope =>
      go.below h (hmine scope hscope)
    cases made with
    | ok new =>
      exact ihmade new hE go.twins (List.forall_mem_cons.2 ⟨hmade new rfl, hmine'⟩)
    | error e => exact ihfailed e hE go.twins hmine'
  | bind _ _ ih ihnext =>
    refine Tied.bind h (ih hE h hmine) fun a w' v' go ha => ?_
    exact ihnext a ha hE go.twins fun scope hscope => go.below h (hmine scope hscope)
  | attempt _ ih => exact (ih hE h hmine).attempt
  | holding places _ ih => exact .holding places (ih (hE.withThread _) h hmine)

/-- Scripts that use nothing but the scope that they run in are tied, whatever the budget. -/
theorem confines_ofBudget
    (hown : ∀ e, E.own e → ∀ scope, Eval.Uses E.own E.bodies [scope] Value.Plain (e.eval scope none))
    (budget : Nat) (thread : Thread) : E.Confines (.ofBudget budget thread) := by
  induction budget generalizing thread with
  | zero =>
    intro e _ scope thread' w v h hscope
    exact .exhausted
  | succ budget ih =>
    intro e he scope thread' w v h hscope
    have run : E.Tied (.ofBudget budget thread') (fun a _ => a.Plain) (e.eval scope none) w v :=
      tied_of_uses (hown e he scope) (ih thread') h (List.forall_mem_singleton.2 hscope)
    exact run

end Enclosure

end Reactor
