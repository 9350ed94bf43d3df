import Reactor.Proofs.Refusals.Engine
import Reactor.Proofs.Discipline.Sessions

/-!
# Refused writes

A disarmed script does what a script does until it is about to assign: when all that it is to store has been checked,
it breaks off (`Expr.replyDisarmed`). Unless that is allowed, it also breaks off when it is about to notify. A machine
of disarmed scripts (`Context.disarmed`) breaks off where a computation comes to an assignment, be it in the body of a
lambda, a condition, a handler or a callback, and does what the machine of the engine does until then
(`Context.mimics_disarmed`). Until then it leaves no trace.

A call that writes checks everything before it stores anything (`Write.run_eq`), so a call that is refused has stored
nothing. What it computes on the way, when it forces a fixed value or asks a condition, may do more than that. A call
that is refused leaves no trace if these computations assign nothing (`Write.untouched_of_refused`). If they come to an
assignment a disarmed machine breaks off there, and else it does what the machine of the engine does
(`Write.refused_or_brokeOff`).
-/

namespace Reactor

/-- The operation notifies somebody: a lambda, and all that depend on it. -/
def Operation.notifies : Operation → List Value → Bool
  | .notify, args => (args.getD 0 .void).isLambda
  | _, _ => false

namespace Expr

mutual

/-- The reply of a script that breaks off when it is about to store what it assigns, and when it is about to notify
unless that is allowed. -/
def replyDisarmed (notifying : Bool) (scope : ScopeId) (item : Option Value) : Expr → Eval Reply
  | .list items => do return .value (.list (← evalAllDisarmed notifying scope item items))
  | .sequence items => do return .value (.sequence (← evalAllDisarmed notifying scope item items))
  | .map entries => do return .value (.map (← evalEntriesDisarmed notifying scope item [] entries))
  | .range start stop => do
    let start ← (← replyDisarmed notifying scope item start).toValue
    Eval.holding start.places do
      let stop ← (← replyDisarmed notifying scope item stop).toValue
      return .value (.range start stop)
  | .queue items => do
    let items ← evalAllDisarmed notifying scope item items
    let queue := Value.queue (← Eval.newQueue [])
    Eval.holding queue.places (queue.writeAll items)
    return .value queue
  | .nest depth e => do
    let v ← (← replyDisarmed notifying scope item e).toValue
    return .value (v.nested depth)
  | .set name e => do
    let v ← (← replyDisarmed notifying scope item e).toValue
    let _ ← (Write.set name v).checks scope
    Eval.panic none
  | .declare name e => do
    let v ← (← replyDisarmed notifying scope item e).toValue
    let _ ← (Write.declare name v {}).checks scope
    Eval.panic none
  | .block es => do return .value ((← evalAllDisarmed notifying scope item es).getLast?.getD .void)
  | .cond test yes no => do
    let test ← (← replyDisarmed notifying scope item test).toValue
    if ← Eval.holding test.places test.truthy then
      return .value (← (← replyDisarmed notifying scope item yes).toValue)
    else return .value (← (← replyDisarmed notifying scope item no).toValue)
  | .log e => do
    let v ← (← replyDisarmed notifying scope item e).toValue
    Eval.holding v.places do return .value (← v.log)
  | .lambda operation inputs body source fixable => do
    let inputs ← evalAllDisarmed notifying scope item inputs
    return .value (.lambda (← LambdaId.ofScript scope operation inputs body source fixable))
  | .call op args body => do
    let args ← evalAllDisarmed notifying scope item args
    if !notifying && op.notifies args then Eval.panic none
    else Eval.holding (itemsPlaces args) (op.perform (applyBodyDisarmed notifying scope body) args)
  | e => e.reply scope item

def evalAllDisarmed (notifying : Bool) (scope : ScopeId) (item : Option Value) : List Expr → Eval (List Value)
  | [] => return []
  | e :: es => do
    let v ← (← replyDisarmed notifying scope item e).toValue
    let vs ← Eval.holding v.places (evalAllDisarmed notifying scope item es)
    return v :: vs

def evalEntriesDisarmed (notifying : Bool) (scope : ScopeId) (item : Option Value) (done : Entries String Value) :
    List (String × Expr) → Eval (Entries String Value)
  | [] => return done
  | (key, e) :: es => do
    let v ← Eval.holding (entriesPlaces done) do (← replyDisarmed notifying scope item e).toValue
    evalEntriesDisarmed notifying scope item (Entries.insert done key v) es

def applyBodyDisarmed (notifying : Bool) (scope : ScopeId) : Option Expr → Value → Eval Value
  | none, _ => return .void
  | some body, v => do
    let v ← v.share
    (← replyDisarmed notifying scope (some v) body).toValue

end

/-- The value of a script that breaks off so. -/
def evalDisarmed (notifying : Bool) (e : Expr) (scope : ScopeId) (item : Option Value) : Eval Value := do
  (← e.replyDisarmed notifying scope item).toValue

end Expr

/-- A machine that disarms all scripts. -/
def Context.disarmed (notifying : Bool) : Nat → Thread → Context
  | 0, thread =>
    { thread
      budget := 0
      evaluate := fun _ _ _ _ _ => .exhausted
      force := fun _ _ _ => .exhausted }
  | budget + 1, thread =>
    { thread
      budget := budget + 1
      evaluate := fun e scope item thread w =>
        e.evalDisarmed notifying scope item (disarmed notifying budget thread) w
      force := fun lambda thread w => lambda.force (disarmed notifying budget thread) w }

namespace Eval

variable {between : World → World → Prop} {notifying : Bool}

/-! ## Scripts -/

theorem mimics_panic {α : Type} (message : Option String) (other : Eval α) :
    (panic message).Mimics between notifying other :=
  fun _ _ _ _ => .panic

/-- A write that breaks off when it has been checked. -/
theorem mimics_write (scope : ScopeId) (write : Write) {α : Type} (f : Value → Eval α) :
    (write.checks scope >>= fun _ => panic none).Mimics between notifying (write.run scope >>= f) := by
  rw [Write.run_eq, bind_assoc]
  exact (Write.mimics_checks scope write).bind fun _ => mimics_panic _ _

theorem mimics_applyEach {apply apply' : Value → Eval Value}
    (h : ∀ v, (apply v).Mimics between notifying (apply' v)) (done items : List Value) :
    (Value.applyEach apply done items).Mimics between notifying (Value.applyEach apply' done items) := by
  induction items generalizing done with
  | nil => exact mimics_pure _
  | cons item items ih =>
    refine (h item).attempt.bind fun result => ?_
    cases result with
    | ok _ => exact (ih _).holding _
    | error _ => exact ih _

/-- Most operations apply no body. -/
theorem performOn_eq_of_ne {op : Operation} (heach : op ≠ .each) (hpipe : op ≠ .pipe)
    (apply apply' : Value → Eval Value) (a b c : Value) : op.performOn apply a b c = op.performOn apply' a b c := by
  cases op <;> first | rfl | exact absurd rfl heach | exact absurd rfl hpipe

theorem mimics_performOn {apply apply' : Value → Eval Value}
    (h : ∀ v, (apply v).Mimics between notifying (apply' v)) {op : Operation} (a b c : Value)
    (hop : op = .notify → notifying = false → a.isLambda = false) :
    (op.performOn apply a b c).Mimics between notifying (op.performOn apply' a b c) := by
  by_cases heach : op = .each
  · subst heach
    have items : a.toList.Mimics between notifying a.toList := Trait.has_toList (T := mimicking between notifying) a
    exact ((items.bind fun items => (mimics_applyEach h [] items).holding _).andReturn _).andReturn _
  by_cases hpipe : op = .pipe
  · subst hpipe
    refine Eval.Mimics.andReturn ((h a).attempt.bind fun result => ?_) _
    cases result <;> exact mimics_pure _
  · have idle (v : Value) : (mimicking between notifying).Has (pure v : Eval Value) := mimics_pure v
    rw [performOn_eq_of_ne heach hpipe apply pure, performOn_eq_of_ne heach hpipe apply' pure]
    refine Trait.has_performOn op idle (fun _ v => mimics_gets _) a b c fun hnotify => ?_
    cases notifying with
    | true => exact mimics_notify a
    | false => exact mimics_notify_of_none (by simpa [Value.isLambda] using hop hnotify rfl)

theorem mimics_toValue (reply : Reply) : reply.toValue.Mimics between notifying reply.toValue :=
  Trait.has_toValue (T := mimicking between notifying) reply

theorem mimics_ofScript (scope : ScopeId) (operation : String) (inputs : List Value) (body : Expr)
    (source : Option Segment) (fixable : Bool) :
    (LambdaId.ofScript scope operation inputs body source fixable).Mimics between notifying
      (LambdaId.ofScript scope operation inputs body source fixable) :=
  Eval.Mimics.bind (Trait.has_scopeRecord (T := mimicking between notifying) scope) fun _ =>
    mimics_modifyGet fun w => .withLambda w rfl

mutual

/-- A disarmed script does what the script does until it comes to an assignment. -/
theorem mimics_reply (scope : ScopeId) (item : Option Value) (e : Expr) :
    (e.replyDisarmed notifying scope item).Mimics between notifying (e.reply scope item) := by
  match e with
  | .list items =>
    unfold Expr.replyDisarmed Expr.reply
    exact (mimics_evalAll scope item items).andReturn _
  | .sequence items =>
    unfold Expr.replyDisarmed Expr.reply
    exact (mimics_evalAll scope item items).andReturn _
  | .map entries =>
    unfold Expr.replyDisarmed Expr.reply
    exact (mimics_evalEntries scope item [] entries).andReturn _
  | .range start stop =>
    unfold Expr.replyDisarmed Expr.reply
    refine (mimics_reply scope item start).bind fun r => (mimics_toValue r).bind fun _ => ?_
    exact .holding ((mimics_reply scope item stop).bind fun r => (mimics_toValue r).andReturn _) _
  | .queue items =>
    unfold Expr.replyDisarmed Expr.reply
    refine (mimics_evalAll scope item items).bind fun items =>
      Eval.Mimics.bind (Trait.has_newQueue (T := mimicking between notifying) []) fun id => ?_
    exact .bind (.holding (Trait.has_writeAll (T := mimicking between notifying) _ items) _) fun _ => mimics_pure _
  | .nest depth e =>
    unfold Expr.replyDisarmed Expr.reply
    exact (mimics_reply scope item e).bind fun r => (mimics_toValue r).andReturn _
  | .set name e =>
    unfold Expr.replyDisarmed Expr.reply
    refine (mimics_reply scope item e).bind fun r => (mimics_toValue r).bind fun v => ?_
    exact mimics_write scope (.set name v) _
  | .declare name e =>
    unfold Expr.replyDisarmed Expr.reply
    refine (mimics_reply scope item e).bind fun r => (mimics_toValue r).bind fun v => ?_
    exact mimics_write scope (.declare name v {}) _
  | .block es =>
    unfold Expr.replyDisarmed Expr.reply
    exact (mimics_evalAll scope item es).andReturn _
  | .cond test yes no =>
    unfold Expr.replyDisarmed Expr.reply
    refine (mimics_reply scope item test).bind fun r => (mimics_toValue r).bind fun v => ?_
    refine .bind (.holding (Trait.has_truthy (T := mimicking between notifying) v) _) fun _ => .ite ?_ ?_
    · exact (mimics_reply scope item yes).bind fun r => (mimics_toValue r).andReturn _
    · exact (mimics_reply scope item no).bind fun r => (mimics_toValue r).andReturn _
  | .log e =>
    unfold Expr.replyDisarmed Expr.reply
    refine (mimics_reply scope item e).bind fun r => (mimics_toValue r).bind fun v => ?_
    exact .holding (.andReturn (Trait.has_log (T := mimicking between notifying) v) _) _
  | .lambda operation inputs body source fixable =>
    unfold Expr.replyDisarmed Expr.reply
    exact (mimics_evalAll scope item inputs).bind fun inputs => (mimics_ofScript _ _ _ _ _ _).andReturn _
  | .call op args body =>
    unfold Expr.replyDisarmed Expr.reply
    refine (mimics_evalAll scope item args).bind fun args => ?_
    cases hop : !notifying && op.notifies args with
    | true => exact mimics_panic _ _
    | false =>
      refine Eval.Mimics.holding (mimics_performOn (mimics_applyBody scope body) _ _ _ ?_) _
      rintro rfl
      simpa [Operation.notifies] using hop
  | .register name => exact .andReturn (mimics_gets _) _
  | .lookup name must => exact .andReturn (Trait.has_getName (T := mimicking between notifying) scope name must) _
  | .parameter name => exact .andReturn (Trait.has_getParameter (T := mimicking between notifying) scope name) _
  | .fail e => exact mimics_fail e
  | .panic message => exact mimics_panic _ _
  | .count name => exact .andReturn (mimics_modifyGet fun _ => .ofRest rfl rfl rfl) _
  | .invoke name =>
    refine (mimics_gets _).bind fun body => (mimics_ofScript _ _ _ _ _ _).bind fun lambda => ?_
    exact .holding (.andReturn (Trait.has_fix (T := mimicking between notifying) (.lambda lambda) false) _) _
  | .void | .null | .typedNull _ | .boolean _ | .integer _ | .decimal _ | .string _ | .date _ | .infinity _ | .uri _
  | .failure _ | .item => exact mimics_pure _

theorem mimics_evalAll (scope : ScopeId) (item : Option Value) (es : List Expr) :
    (Expr.evalAllDisarmed notifying scope item es).Mimics between notifying (Expr.evalAll scope item es) := by
  match es with
  | [] => exact mimics_pure _
  | e :: es =>
    unfold Expr.evalAllDisarmed Expr.evalAll
    exact (mimics_reply scope item e).bind fun r => (mimics_toValue r).bind fun _ =>
      .andReturn (.holding (mimics_evalAll scope item es) _) _

theorem mimics_evalEntries (scope : ScopeId) (item : Option Value) (done : Entries String Value)
    (es : List (String × Expr)) :
    (Expr.evalEntriesDisarmed notifying scope item done es).Mimics between notifying
      (Expr.evalEntries scope item done es) := by
  match es with
  | [] => exact mimics_pure _
  | (key, e) :: es =>
    unfold Expr.evalEntriesDisarmed Expr.evalEntries
    refine .bind (.holding ((mimics_reply scope item e).bind fun r => mimics_toValue r) _) fun v => ?_
    exact mimics_evalEntries scope item _ es

theorem mimics_applyBody (scope : ScopeId) (body : Option Expr) (v : Value) :
    (Expr.applyBodyDisarmed notifying scope body v).Mimics between notifying (Expr.applyBody scope body v) := by
  match body with
  | none => exact mimics_pure _
  | some e =>
    unfold Expr.applyBodyDisarmed Expr.applyBody
    exact .bind (Trait.has_share (T := mimicking between notifying) v) fun v =>
      (mimics_reply scope (some v) e).bind fun r => mimics_toValue r

end

end Eval

/-- A disarmed machine does what the machine of the engine does until it comes to an assignment. -/
theorem Context.mimics_disarmed {between : World → World → Prop} {notifying : Bool} (budget : Nat) (thread : Thread) :
    (disarmed notifying budget thread).Mimics between notifying (ofBudget budget thread) := by
  induction budget generalizing thread with
  | zero => exact ⟨rfl, rfl, fun _ _ _ _ _ => .exhausted, fun _ _ _ => .exhausted⟩
  | succ budget ih =>
    rw [disarmed, ofBudget]
    refine ⟨rfl, rfl, fun e scope item thread w => ?_, fun k thread w => ?_⟩
    · have evaluated : (e.evalDisarmed notifying scope item).Mimics between notifying (e.eval scope item) :=
        (Eval.mimics_reply scope item e).bind fun r => Eval.mimics_toValue r
      exact evaluated _ _ (ih thread) w
    · exact Eval.mimics_forceLambda k _ _ (ih thread) w

namespace Write

variable {between : World → World → Prop} {notifying : Bool}

variable (between notifying) in
/-- The checks of a call on a disarmed machine. -/
theorem mimics_disarmed (scope : ScopeId) (write : Write) (budget : Nat) (thread : Thread) (w : World) :
    (write.checks scope (.disarmed notifying budget thread) w).Mimics between notifying w
      (write.checks scope (.ofBudget budget thread) w) :=
  mimics_checks scope write _ _ (Context.mimics_disarmed budget thread) w

/-- A refused call either does the same on a machine that assigns nothing, or its computations come to an assignment. -/
theorem refused_or_brokeOff {write : Write} {scope : ScopeId}
    {budget : Nat} {thread : Thread} {w v : World} {e : Error}
    (h : (write.checks scope (.ofBudget budget thread) w).Reaches between (.error e v)) :
    (write.checks scope (.disarmed notifying budget thread) w).Reaches between (.error e v) ∨
      ∃ message u, (write.checks scope (.disarmed notifying budget thread) w).Reaches between (.panic message u) :=
  (mimics_disarmed between notifying scope write budget thread w).of_reaches h

/-- **Refused writes leave no trace.** A call is refused by its checks, and nothing that is computed for them assigns a
variable. Then the call fails with the same error. Scopes and variables are as they were, and no scope that was made
for a condition is left. If nothing that is computed notifies anybody, no pass has reached a lambda. -/
theorem untouched_of_refused {write : Write} {scope : ScopeId}
    {budget : Nat} {thread : Thread} {w v : World} {e : Error}
    (h : (write.checks scope (.disarmed notifying budget thread) w).Reaches between (.error e v)) :
    (write.run scope (.ofBudget budget thread) w).Reaches between (.error e v) ∧
      w.Traceless between notifying v ∧
      ((∀ u v, between u v → u.Untouched notifying v) → w.Untouched notifying v) := by
  obtain ⟨traceless, refused⟩ := (mimics_disarmed between notifying scope write budget thread w).reaches_error h
  refine ⟨?_, traceless, fun hothers => traceless.of_others hothers⟩
  rw [run_eq, Eval.bind_apply, Outcome.reaches_bind_iff]
  exact ⟨_, refused, .error⟩

end Write

/-- What a computation that has failed ends with. -/
def Outcome.failed? {α : Type} : Outcome α → Option (Error × World)
  | .error e w => some (e, w)
  | _ => none

theorem Outcome.eq_error_of_failed? {α β : Type} {x : Outcome α} {f : Error × World → β} {b : β}
    (h : x.failed?.map f = some b) : ∃ e w, x = .error e w ∧ f (e, w) = b := by
  cases x with
  | error e w => exact ⟨e, w, rfl, Option.some.inj h⟩
  | _ => cases h

namespace Session

/-- In some session a variable holds numbers below ten. Another number is refused after the condition has been computed
in a scope of its own. -/
theorem reaches_condition : ∃ s : Session, s.Reachable ∧
    ((Write.set "x" (.integer 20)).checks ⟨0⟩ (.disarmed false 8 mainThread) s.world).failed?.map
      (fun found => (found.1.kind, found.2.scopes.size - s.world.scopes.size)) = some (.constraintViolation, 1) :=
  ⟨(start {} [] default).after [.mk "root" (.declare "x" (.integer 1) {} (some
      (.lambda "small" [] (.call .lt [.parameter "it", .integer 10] none) none true, "it < 10")))],
    ⟨_, _, _, _, rfl⟩, by decide +kernel⟩

/-- The number 20 is refused, and the scope in which the condition has been computed is gone. -/
theorem untouched_of_twenty : ∃ (s : Session) (e : Error) (v : World), s.Reachable ∧
    e.kind = .constraintViolation ∧ s.world.scopes.size < v.scopes.size ∧ s.world.Untouched false v ∧
    ((Write.set "x" (.integer 20)).run ⟨0⟩ (.ofBudget 8 mainThread) s.world).Reaches (fun _ _ => False)
      (.error e v) := by
  obtain ⟨s, reached, found⟩ := reaches_condition
  obtain ⟨e, v, refused, same⟩ := Outcome.eq_error_of_failed? found
  obtain ⟨kind, made⟩ : e.kind = .constraintViolation ∧ v.scopes.size - s.world.scopes.size = 1 :=
    Prod.mk.inj same
  have checked : ((Write.set "x" (.integer 20)).checks ⟨0⟩ (.disarmed false 8 mainThread) s.world).Reaches
      (fun _ _ => False) (.error e v) := by
    rw [refused]
    exact .error
  obtain ⟨run, -, untouched⟩ := Write.untouched_of_refused checked
  exact ⟨s, e, v, reached, kind, by omega, untouched fun _ _ => False.elim, run⟩

/-- A fixed variable holds numbers. The computation of its new value notifies a lambda and gives a text, which is
refused. Nothing has been assigned, but the callback has run that listens to the lambda. -/
theorem callback_of_refused : ∃ (s : Session) (e : Error) (v : World), s.Reachable ∧
    (s.world.lambdaAt ⟨1⟩).body = .script (.block [.call .notify [.register "l"] none, .string "text"]) ∧
    (s.world.callbacks ⟨0⟩).map Callback.body = [.log (.string "told")] ∧
    (Write.set "x" (.lambda ⟨1⟩)).checks ⟨0⟩ (.disarmed true 8 mainThread) s.world = .error e v ∧
    (Write.set "x" (.lambda ⟨1⟩)).run ⟨0⟩ (.ofBudget 8 mainThread) s.world = .error e v ∧
    e.kind = .invalidCast ∧ s.world.desk.log = [] ∧ v.desk.log = ["told"] := by
  have ends : ∃ s : Session, s.Reachable ∧
      (s.world.lambdaAt ⟨1⟩).body = .script (.block [.call .notify [.register "l"] none, .string "text"]) ∧
      (s.world.callbacks ⟨0⟩).map Callback.body = [.log (.string "told")] ∧
      ((Write.set "x" (.lambda ⟨1⟩)).checks ⟨0⟩ (.disarmed true 8 mainThread) s.world).failed?.map
        (fun found => (found.1.kind, s.world.desk.log, found.2.desk.log)) =
          some (.invalidCast, [], ["told"]) :=
    ⟨(start {} [] default).after
        [.mk "root" (.eval (.lambda "l" [] (.integer 1) none true) (some "l")),
          .mk "root" (.listen (.register "l") (.log (.string "told")) "h"),
          .mk "root" (.eval (.lambda "m" [] (.block [.call .notify [.register "l"] none, .string "text"]) none true)
            (some "m")),
          .mk "root" (.declare "x" (.integer 1) { fixed := true, numeric := true } none)],
      ⟨_, _, _, _, rfl⟩, rfl, rfl, by decide +kernel⟩
  obtain ⟨s, reached, body, callbacks, found⟩ := ends
  obtain ⟨e, v, refused, same⟩ := Outcome.eq_error_of_failed? found
  obtain ⟨kind, before, after⟩ : e.kind = .invalidCast ∧ s.world.desk.log = [] ∧ v.desk.log = ["told"] :=
    ⟨congrArg Prod.fst same, congrArg (fun found => found.2.1) same, congrArg (fun found => found.2.2) same⟩
  have mimics := Write.mimics_disarmed (fun _ _ => False) true ⟨0⟩ (.set "x" (.lambda ⟨1⟩)) 8 mainThread s.world
  rw [refused] at mimics
  refine ⟨s, e, v, reached, body, callbacks, refused, ?_, kind, before, after⟩
  rw [Write.run_eq, Eval.bind_apply, mimics.eq_error]
  rfl

end Session

end Reactor
