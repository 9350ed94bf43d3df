import Reactor.Proofs.Traits.Resources
import Reactor.Script.Perform

/-!
# Traits of operations

The operations of scripts are those on values and resources, and a few that apply a body. What a trait
must be shown to have beside those are predictions and notifications (`Trait.has_performOn`).
-/

namespace Reactor.Trait

variable {T : Trait}

theorem has_applyEach {apply : Value → Eval Value} (h : ∀ v, T.Has (apply v))
    (done items : List Value) : T.Has (Value.applyEach apply done items) := by
  induction items generalizing done with
  | nil => exact T.has_pure _
  | cons item items ih =>
    refine (h item).attempt.bind fun result => ?_
    cases result with
    | ok _ => exact (ih _).holding _
    | error _ => exact ih _

theorem has_each {apply : Value → Eval Value} (h : ∀ v, T.Has (apply v)) (v : Value) :
    T.Has (Value.each apply v) :=
  (has_onItems v (has_applyEach h [])).andReturn _

theorem has_pipe {apply : Value → Eval Value} (h : ∀ v, T.Has (apply v)) (v : Value) :
    T.Has (Value.pipe apply v) := by
  refine (h v).attempt.bind fun result => ?_
  cases result <;> exact T.has_pure _

/-- What is made of a comparison or of its failure. -/
theorem has_matchCompare {α : Type} (a b : Value) (ok : Ordering → α) (error : Error → α) :
    T.Has (do
      match ← (a.compare b).attempt with
      | .ok order => return ok order
      | .error e => return error e) := by
  refine (has_compare a b).attempt.bind fun result => ?_
  cases result <;> exact T.has_pure _

theorem has_logErrors (v : Value) : T.Has v.logErrors := by
  unfold Value.logErrors
  refine Has.bind (has_modify (fun _ _ => rfl) fun _ => ?_) fun _ => T.has_pure _
  exact .aside ⟨⟨rfl, rfl, rfl, rfl⟩, rfl, rfl⟩

/-- Of all operations only a prediction looks at the learner, and only a notification runs callbacks of
lambdas. -/
theorem has_performOn (op : Operation) {apply : Value → Eval Value} (h : ∀ v, T.Has (apply v))
    (hpredict : op = .predict → ∀ v, T.Has (Eval.gets fun w => w.predict v))
    (a b c : Value) (hnotify : op = .notify → T.Has a.notify) : T.Has (op.performOn apply a b c) := by
  have truth (v : Value) : T.Has v.truthy := has_truthy v
  cases op with
  | plus => exact (has_plus a b).andReturn _
  | minus => exact (has_minus a b).andReturn _
  | multiply => exact (has_multiply a b).andReturn _
  | divide => exact (has_divide a b).andReturn _
  | modulus => exact (has_modulus a b).andReturn _
  | negate => exact (has_negate a).andReturn _
  | abs => exact (has_abs a).andReturn _
  | sign => exact (has_sign a).andReturn _
  | inc => exact (has_inc a).andReturn _
  | dec => exact (has_dec a).andReturn _
  | not => exact ((truth a).andReturn _).andReturn _
  | and => exact ((truth a).bind fun _ => .ite ((truth b).andReturn _) (T.has_pure _)).andReturn _
  | or => exact ((truth a).bind fun _ => .ite (T.has_pure _) ((truth b).andReturn _)).andReturn _
  | equals => exact ((has_equals a b).andReturn _).andReturn _
  | append => exact (has_append a b).andReturn _
  | prepend => exact (has_prepend a b).andReturn _
  | remove => exact (has_remove a b).andReturn _
  | get => exact (has_get a b).andReturn _
  | set => exact (has_setAt a b c).andReturn _
  | withEntry key => exact (has_withEntry a key b).andReturn _
  | keys => exact (has_keys a).andReturn _
  | first => exact (has_first a).andReturn _
  | last => exact (has_last a).andReturn _
  | sum => exact (has_sum a).andReturn _
  | product => exact (has_product a).andReturn _
  | min => exact (has_min a).andReturn _
  | max => exact (has_max a).andReturn _
  | avg => exact (has_avg a).andReturn _
  | sort => exact (has_sort a).andReturn _
  | reverse => exact (has_reverse a).andReturn _
  | unique => exact (has_unique a).andReturn _
  | toList => exact ((has_toList a).andReturn _).andReturn _
  | toMap => exact ((has_toMap a).andReturn _).andReturn _
  | each => exact (has_each h a).andReturn _
  | pipe => exact (has_pipe h a).andReturn _
  | default => exact (has_orDefault a b).andReturn _
  | size => exact (has_size a).andReturn _
  | isEmpty => exact (has_isEmpty a).andReturn _
  | containsValue => exact (has_containsValue a b).andReturn _
  | containsKey => exact (has_containsKey a b).andReturn _
  | has key => exact (has_containsKey a _).andReturn _
  | onErrors => exact (has_logErrors a).andReturn _
  | intoResult => exact (has_ofExcept _).andReturn _
  | withTagOnce key text => exact (has_ofExcept _).andReturn _
  | constrain source => exact (has_ofExcept _).andReturn _
  | cast target => exact (has_cast a target).andReturn _
  | is expected => exact ((has_type a).andReturn _).andReturn _
  | labelIs expected => exact ((has_typeLabel a).andReturn _).andReturn _
  | type => exact ((has_type a).andReturn _).andReturn _
  | typeLabel => exact ((has_typeLabel a).andReturn _).andReturn _
  | kinds =>
    exact (has_type a).bind fun _ => (has_type a).bind fun _ => (has_type a).bind fun _ =>
      (has_isNumber a).bind fun _ => (has_isPending a).andReturn _
  | truth =>
    exact (truth a).bind fun _ => (has_isTrue a).bind fun _ => (has_isFalse a).bind fun _ =>
      (has_isNeitherTrueNorFalse a).andReturn _
  | eq => exact (has_equals a b).andReturn _
  | lt => exact (has_matchCompare a b _ _).andReturn _
  | ge => exact (has_matchCompare a b _ _).andReturn _
  | compare => exact (has_compare a b).andReturn _
  | partialCompare => exact has_matchCompare a b _ _
  | isZero => exact (has_numberMatches a _).andReturn _
  | isNegative => exact (has_numberMatches a _).andReturn _
  | isPositive => exact (has_numberMatches a _).andReturn _
  | truthy => exact (truth a).andReturn _
  | isVoid => exact ((has_type a).andReturn _).andReturn _
  | isPending => exact (has_isPending a).andReturn _
  | toInteger => exact (has_toInteger a).andReturn _
  | toDecimal => exact (has_toDecimal a).andReturn _
  | human => exact (has_human a).andReturn _
  | display => exact (has_human a).andReturn _
  | script => exact (has_script a).andReturn _
  | json => exact (has_toJson a).andReturn _
  | debug => exact (has_debug a).andReturn _
  | fromJson source => exact (has_ofJson source).andReturn _
  | parseJson => exact (has_parseJson a).andReturn _
  | copy => exact (has_copy a).andReturn _
  | forced => exact (has_forced a).andReturn _
  | notify => exact (hnotify rfl).andReturn _
  | fix parallel => exact (has_fix a parallel).andReturn _
  | fixDeep parallel => exact (has_fixDeep a parallel).andReturn _
  | fixDepth depth parallel => exact (has_fixDepth a depth parallel).andReturn _
  | predict => exact (hpredict rfl a).andReturn _
  | read blocking mutating => exact (has_read a blocking mutating).andReturn _
  | write blocking mutating => exact (has_write a b mutating).andReturn _
  | peek => exact (has_read a false false).andReturn _
  | poll => exact (has_read a false true).andReturn _
  | pop => exact (has_read a true true).andReturn _
  | popTimeout millis => exact (has_popTimeout a millis).andReturn _
  | push => exact (has_write a b true).andReturn _
  | publish => exact (has_write a b false).andReturn _
  | drain => exact (has_drain a).andReturn _
  | all => exact (has_all a).andReturn _
  | unsubscribe id => exact (has_unsubscribe a id).andReturn _
  | query question => exact has_ofExcept _
  | _ => exact T.has_pure _

end Reactor.Trait
