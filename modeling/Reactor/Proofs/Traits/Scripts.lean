import Reactor.Proofs.Traits.Operations
import Reactor.Script.Evaluate

/-!
# Traits of scripts

Beside working with values, scripts read and write variables, make lambdas, invoke definitions and notify
lambdas. Where these have a trait (`Trait.Hosts`) all scripts have it (`Trait.has_eval`), those that predict
only if the trait is such that a computation may look at the learner.
-/

namespace Reactor

namespace Expr

mutual

/-- The script contains a prediction. -/
def predicts : Expr → Bool
  | .list items => anyPredicts items
  | .sequence items => anyPredicts items
  | .map entries => entryPredicts entries
  | .range start stop => start.predicts || stop.predicts
  | .queue items => anyPredicts items
  | .nest _ e => e.predicts
  | .set _ e => e.predicts
  | .declare _ e => e.predicts
  | .block es => anyPredicts es
  | .cond test yes no => test.predicts || yes.predicts || no.predicts
  | .log e => e.predicts
  | .lambda _ inputs body _ _ => anyPredicts inputs || body.predicts
  | .call op args body => op matches .predict || anyPredicts args || bodyPredicts body
  | _ => false

/-- Some script contains a prediction. -/
def anyPredicts : List Expr → Bool
  | [] => false
  | e :: es => e.predicts || anyPredicts es

/-- The script of some entry contains a prediction. -/
def entryPredicts : List (String × Expr) → Bool
  | [] => false
  | (_, e) :: es => e.predicts || entryPredicts es

/-- There is a script, and it contains a prediction. -/
def bodyPredicts : Option Expr → Bool
  | none => false
  | some e => e.predicts

end

end Expr

/-- What scripts do beside working with values has the trait. Scripts that predict are considered only if
they are free to look at the learner. -/
structure Trait.Hosts (T : Trait) (free : Prop) : Prop where
  get (scope : ScopeId) (name : String) (must : Bool) : T.Has (scope.get name must)
  parameter (scope : ScopeId) (name : String) : T.Has (scope.getParameter name)
  set (scope : ScopeId) (name : String) (v : Value) : T.Has (scope.set name v)
  declare (scope : ScopeId) (name : String) (v : Value) : T.Has (scope.declare name v {})
  notify (v : Value) : T.Has v.notify
  predict (h : free) (v : Value) : T.Has (Eval.gets fun w => w.predict v)
  lambda (scope : ScopeId) (operation : String) (inputs : List Value) {body : Expr}
    (h : free ∨ body.predicts = false) (source : Option Segment) (fixable : Bool) :
    T.Has (LambdaId.ofScript scope operation inputs body source fixable)
  definition (name : String) {f : Expr → Eval Reply} (h : ∀ e, free ∨ e.predicts = false → T.Has (f e)) :
    T.Has ((Eval.gets fun w => (Entries.get? w.desk.definitions name).getD .void) >>= f)

theorem may_or {p : Prop} {a b : Bool} (h : p ∨ (a || b) = false) :
    (p ∨ a = false) ∧ (p ∨ b = false) := by
  rcases h with h | h
  · exact ⟨.inl h, .inl h⟩
  · obtain ⟨ha, hb⟩ := Bool.or_eq_false_iff.1 h
    exact ⟨.inr ha, .inr hb⟩

namespace Trait

variable {T : Trait} {free : Prop}

theorem has_toValue (reply : Reply) : T.Has reply.toValue :=
  has_share _

theorem has_log (v : Value) : T.Has v.log := by
  refine (has_human v).bind fun _ => Has.bind ?_ fun _ => T.has_pure v
  exact has_modify (fun _ _ => rfl) fun _ => .aside ⟨⟨rfl, rfl, rfl, rfl⟩, rfl, rfl⟩

mutual

/-- A script that is allowed keeps to such scripts, and the learner has no influence on it. -/
theorem has_reply (hT : T.Hosts free) (scope : ScopeId) (item : Option Value) (e : Expr)
    (he : free ∨ e.predicts = false) :
    T.Has (e.reply scope item) := by
  have value (e : Expr) (h : T.Has (e.reply scope item)) :
      T.Has (do (← e.reply scope item).toValue) :=
    h.bind fun reply => has_toValue reply
  match e with
  | .list items =>
    unfold Expr.reply
    exact (has_evalAll hT scope item items he).andReturn _
  | .sequence items =>
    unfold Expr.reply
    exact (has_evalAll hT scope item items he).andReturn _
  | .map entries =>
    unfold Expr.reply
    exact (has_evalEntries hT scope item [] entries he).andReturn _
  | .range start stop =>
    unfold Expr.reply
    obtain ⟨h₁, h₂⟩ := may_or he
    refine (has_reply hT scope item start h₁).bind fun r => (has_toValue r).bind fun _ => ?_
    exact Has.holding ((has_reply hT scope item stop h₂).bind fun r =>
      (has_toValue r).andReturn _) _
  | .queue items =>
    unfold Expr.reply
    refine (has_evalAll hT scope item items he).bind fun items => (has_newQueue []).bind fun id => ?_
    exact ((has_writeAll _ items).holding _).bind fun _ => T.has_pure _
  | .nest depth e =>
    unfold Expr.reply
    exact (has_reply hT scope item e he).bind fun r => (has_toValue r).andReturn _
  | .register name =>
    unfold Expr.reply
    exact Has.andReturn (T.has_gets fun _ _ => rfl) _
  | .lookup name must =>
    unfold Expr.reply
    exact (hT.get scope name must).andReturn _
  | .parameter name =>
    unfold Expr.reply
    exact (hT.parameter scope name).andReturn _
  | .set name e =>
    unfold Expr.reply
    exact (has_reply hT scope item e he).bind fun r => (has_toValue r).bind fun v =>
      (hT.set scope name v).andReturn _
  | .declare name e =>
    unfold Expr.reply
    exact (has_reply hT scope item e he).bind fun r => (has_toValue r).bind fun v =>
      (hT.declare scope name v).andReturn _
  | .fail e =>
    unfold Expr.reply
    exact T.has_fail e
  | .panic message =>
    unfold Expr.reply
    exact T.has_panic message
  | .block es =>
    unfold Expr.reply
    exact (has_evalAll hT scope item es he).andReturn _
  | .cond test yes no =>
    unfold Expr.reply
    obtain ⟨h, h₃⟩ := may_or he
    obtain ⟨h₁, h₂⟩ := may_or h
    refine (has_reply hT scope item test h₁).bind fun r => (has_toValue r).bind fun v => ?_
    refine ((has_truthy v).holding _).bind fun _ => .ite ?_ ?_
    · exact (has_reply hT scope item yes h₂).bind fun r => (has_toValue r).andReturn _
    · exact (has_reply hT scope item no h₃).bind fun r => (has_toValue r).andReturn _
  | .log e =>
    unfold Expr.reply
    exact (has_reply hT scope item e he).bind fun r => (has_toValue r).bind fun v =>
      ((has_log v).andReturn _).holding _
  | .count name =>
    unfold Expr.reply
    refine Has.andReturn ?_ _
    exact has_aside (fun _ _ => rfl) fun _ => ⟨⟨rfl, rfl, rfl, rfl⟩, rfl, rfl⟩
  | .lambda operation inputs body source fixable =>
    unfold Expr.reply
    obtain ⟨h₁, h₂⟩ := may_or he
    exact (has_evalAll hT scope item inputs h₁).bind fun inputs =>
      (hT.lambda scope operation inputs h₂ source fixable).andReturn _
  | .invoke name =>
    unfold Expr.reply
    refine hT.definition name fun body h => ?_
    refine (hT.lambda scope name [] h none true).bind fun lambda => Has.holding ?_ _
    exact (has_fix (.lambda lambda) false).andReturn _
  | .call op args body =>
    unfold Expr.reply
    obtain ⟨h, h₃⟩ := may_or he
    obtain ⟨h₁, h₂⟩ := may_or h
    refine (has_evalAll hT scope item args h₂).bind fun args => Has.holding ?_ _
    refine has_performOn op (has_applyBody hT scope body h₃) (fun hop v => hT.predict ?_ v) _ _ _ fun _ => hT.notify _
    refine h₁.resolve_right fun h₁ => ?_
    rw [hop] at h₁
    cases h₁
  | .void => unfold Expr.reply; exact T.has_pure _
  | .null => unfold Expr.reply; exact T.has_pure _
  | .typedNull _ => unfold Expr.reply; exact T.has_pure _
  | .boolean _ => unfold Expr.reply; exact T.has_pure _
  | .integer _ => unfold Expr.reply; exact T.has_pure _
  | .decimal _ => unfold Expr.reply; exact T.has_pure _
  | .string _ => unfold Expr.reply; exact T.has_pure _
  | .date _ => unfold Expr.reply; exact T.has_pure _
  | .infinity _ => unfold Expr.reply; exact T.has_pure _
  | .uri _ => unfold Expr.reply; exact T.has_pure _
  | .failure _ => unfold Expr.reply; exact T.has_pure _
  | .item => unfold Expr.reply; exact T.has_pure _

theorem has_evalAll (hT : T.Hosts free) (scope : ScopeId) (item : Option Value) (es : List Expr)
    (he : free ∨ Expr.anyPredicts es = false) : T.Has (Expr.evalAll scope item es) := by
  match es with
  | [] => unfold Expr.evalAll; exact T.has_pure _
  | e :: es =>
    unfold Expr.evalAll
    obtain ⟨h₁, h₂⟩ := may_or he
    exact (has_reply hT scope item e h₁).bind fun r => (has_toValue r).bind fun _ =>
      ((has_evalAll hT scope item es h₂).holding _).andReturn _

theorem has_evalEntries (hT : T.Hosts free) (scope : ScopeId) (item : Option Value)
    (done : Entries String Value) (es : List (String × Expr)) (he : free ∨ Expr.entryPredicts es = false) :
    T.Has (Expr.evalEntries scope item done es) := by
  match es with
  | [] => unfold Expr.evalEntries; exact T.has_pure _
  | (key, e) :: es =>
    unfold Expr.evalEntries
    obtain ⟨h₁, h₂⟩ := may_or he
    refine Has.bind (Has.holding ((has_reply hT scope item e h₁).bind fun r =>
      has_toValue r) _) fun v => ?_
    exact has_evalEntries hT scope item _ es h₂

theorem has_applyBody (hT : T.Hosts free) (scope : ScopeId) (body : Option Expr)
    (he : free ∨ Expr.bodyPredicts body = false) (v : Value) :
    T.Has (Expr.applyBody scope body v) := by
  match body with
  | none => unfold Expr.applyBody; exact T.has_pure _
  | some e =>
    unfold Expr.applyBody
    exact (has_share v).bind fun v => (has_reply hT scope (some v) e he).bind fun r =>
      has_toValue r

end

theorem has_eval (hT : T.Hosts free) (e : Expr) (he : free ∨ e.predicts = false) (scope : ScopeId)
    (item : Option Value) : T.Has (e.eval scope item) :=
  (has_reply hT scope item e he).bind fun r => has_toValue r

end Trait

end Reactor
