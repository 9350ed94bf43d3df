import Reactor.Proofs.Traits.Basic
import Reactor.Value.Debug
import Reactor.Value.Fix
import Reactor.Value.Order

/-!
# Traits of the work with values

Sharing, forcing, comparing and writing values reads queues and lambdas, forces lambdas, and touches
nothing but the number of marks and the queues that it adds.
-/

namespace Reactor.Trait

variable {T : Trait} {α β : Type}

/-! ## Sharing and forcing -/

theorem has_share (v : Value) : T.Has v.share := by
  unfold Value.share
  refine Has.ite ?_ (T.has_pure v)
  exact has_aside (fun _ _ => rfl) fun _ => ⟨⟨rfl, rfl, rfl, rfl⟩, rfl, rfl⟩

theorem has_shareAll (items : List Value) : T.Has (Value.shareAll items) := by
  unfold Value.shareAll
  refine Has.ite ?_ (T.has_pure items)
  exact has_aside (fun _ _ => rfl) fun _ => ⟨⟨rfl, rfl, rfl, rfl⟩, rfl, rfl⟩

theorem has_forced (v : Value) : T.Has v.forced := by
  unfold Value.forced
  cases v.lambda? with
  | none => exact T.has_pure v
  | some id => exact (T.has_force id).bind fun _ => .ite (T.has_pure _) (T.has_pure _)

theorem has_onForced {v : Value} {work : Value → Eval α} (h : ∀ v, T.Has (work v)) :
    T.Has (v.onForced work) := by
  unfold Value.onForced
  cases v.lambda? with
  | none => exact h v
  | some _ => exact (has_forced v).bind fun result => (h result).holding _

theorem has_onAttempt {v : Value} {work : Except Error Value → Eval α}
    (h : ∀ result, T.Has (work result)) : T.Has (v.onAttempt work) := by
  unfold Value.onAttempt
  cases v.lambda? with
  | none => exact h _
  | some _ =>
    refine (has_forced v).attempt.bind fun result => ?_
    cases result with
    | ok result => exact (h _).holding _
    | error e => exact h _

theorem has_onForcedBoth {a b : Value} {work : Value → Value → Eval α}
    (h : ∀ a b, T.Has (work a b)) : T.Has (a.onForcedBoth b work) :=
  has_onForced fun a => has_onForced fun b => h a b

/-- What is done with a forced value or without one. -/
theorem has_matchForced {v : Value} {ok : Value → Eval α} {error : Error → Eval α}
    (hok : ∀ v, T.Has (ok v)) (herror : ∀ e, T.Has (error e)) :
    T.Has (do
      match ← v.forced.attempt with
      | .ok v => ok v
      | .error e => error e) := by
  refine (has_forced v).attempt.bind fun result => ?_
  cases result with
  | ok v => exact hok v
  | error e => exact herror e

theorem has_type (v : Value) : T.Has v.type :=
  has_matchForced (fun _ => T.has_pure _) fun _ => T.has_pure _

theorem has_typeLabel (v : Value) : T.Has v.typeLabel :=
  (has_type v).bind fun _ => T.has_pure _

theorem has_isNumber (v : Value) : T.Has v.isNumber :=
  (has_type v).bind fun _ => T.has_pure _

theorem has_orDefault (v fallback : Value) : T.Has (v.orDefault fallback) :=
  (has_type v).bind fun _ => .ite (T.has_pure _) (T.has_pure _)

theorem has_truthyData (data : Data) : T.Has (Value.truthyData data) := by
  cases data with
  | queue id => exact T.has_gets fun _ _ => rfl
  | _ => exact T.has_pure _

theorem has_truthy (v : Value) : T.Has v.truthy :=
  has_matchForced (fun _ => has_truthyData _) fun _ => T.has_pure _

theorem has_isNeitherTrueNorFalse (v : Value) : T.Has v.isNeitherTrueNorFalse :=
  has_matchForced (fun _ => T.has_pure _) fun _ => T.has_pure _

theorem has_isTrue (v : Value) : T.Has v.isTrue :=
  (has_isNeitherTrueNorFalse v).bind fun _ => .ite (T.has_pure _) (has_truthy v)

theorem has_isFalse (v : Value) : T.Has v.isFalse :=
  (has_isNeitherTrueNorFalse v).bind fun _ =>
    .ite (T.has_pure _) ((has_truthy v).bind fun _ => T.has_pure _)

theorem has_isPending (v : Value) : T.Has v.isPending := by
  unfold Value.isPending
  cases v.lambda? with
  | none => exact T.has_pure _
  | some id => exact T.has_gets fun _ _ => rfl

theorem has_newQueue (items : List Value) : T.Has (Eval.newQueue items) :=
  (has_shareAll items).bind fun items =>
    T.has_modifyGet (fun _ _ => rfl) fun _ => .newQueue items

theorem has_newCell (content : Value) : T.Has (Eval.newCell content) :=
  has_aside (fun _ _ => rfl) fun _ => ⟨⟨rfl, rfl, rfl, rfl⟩, rfl, rfl⟩

/-! ## Texts -/

theorem has_toTreeAt (depth : Nat) (v : Value) : T.Has (v.toTreeAt depth) := by
  induction depth generalizing v with
  | zero => exact T.has_exhausted
  | succ depth ih =>
    refine has_onForced fun v => ?_
    have items (items : List Value) : T.Has (items.mapM (Value.toTreeAt depth)) :=
      has_mapM ih items
    cases v.data with
    | null type => cases type <;> exact T.has_pure _
    | decimal x => exact .ite (T.has_pure _) (T.has_pure _)
    | list xs => exact (items xs).bind fun _ => T.has_pure _
    | sequence xs => exact (items xs).bind fun _ => T.has_pure _
    | map entries =>
      refine Has.bind (has_mapM (fun entry => ?_) entries) fun _ =>
        .ite (T.has_pure _) (T.has_pure _)
      exact (ih entry.2).bind fun _ => T.has_pure _
    | range start stop => exact (ih start).bind fun _ => (ih stop).bind fun _ => T.has_pure _
    | queue id =>
      refine Has.bind (T.has_gets fun _ _ => rfl) fun xs => ?_
      exact ((items xs).bind fun _ => T.has_pure _).holding _
    | _ => exact T.has_pure _

theorem has_toTree (v : Value) : T.Has v.toTree :=
  T.has_budget.bind fun depth => has_toTreeAt depth v

theorem has_toJson (v : Value) : T.Has v.toJson :=
  (has_toTree v).bind fun _ => T.has_pure _

theorem has_jsonOrError (v : Value) : T.Has (do
    match ← v.toJson.attempt with
    | .ok text => return text
    | .error e => return e.describe) := by
  refine (has_toJson v).attempt.bind fun result => ?_
  cases result <;> exact T.has_pure _

theorem has_humanAt (depth : Nat) (v : Value) : T.Has (v.humanAt depth) := by
  induction depth generalizing v with
  | zero => exact T.has_exhausted
  | succ depth ih =>
    refine has_onAttempt fun outcome => ?_
    cases outcome with
    | error e => exact T.has_pure _
    | ok v =>
      have json := has_jsonOrError (T := T) v
      dsimp only
      cases v.data with
      | range start stop => exact (ih start).bind fun _ => (ih stop).bind fun _ => T.has_pure _
      | list _ => exact json
      | sequence _ => exact json
      | map _ => exact json
      | queue _ => exact json
      | _ => exact T.has_pure _

theorem has_human (v : Value) : T.Has v.human :=
  T.has_budget.bind fun depth => has_humanAt depth v

theorem has_scriptAt (depth : Nat) (v : Value) : T.Has (v.scriptAt depth) := by
  induction depth generalizing v with
  | zero => exact T.has_exhausted
  | succ depth ih =>
    refine has_onForced fun v => ?_
    have items (items : List Value) : T.Has (items.mapM (Value.scriptAt depth)) :=
      has_mapM ih items
    cases v.data with
    | null type => cases type <;> exact T.has_pure _
    | list xs => exact (items xs).bind fun _ => T.has_pure _
    | sequence xs => exact (items xs).bind fun _ => T.has_pure _
    | map entries =>
      refine Has.bind (has_mapM (fun entry => ?_) entries) fun _ => T.has_pure _
      exact (ih entry.2).bind fun _ => T.has_pure _
    | range start stop => exact (ih start).bind fun _ => (ih stop).bind fun _ => T.has_pure _
    | queue id => exact T.has_fail _
    | _ => exact T.has_pure _

theorem has_script (v : Value) : T.Has v.script :=
  T.has_budget.bind fun depth => has_scriptAt depth v

theorem has_summary (v : Value) : T.Has v.summary := by
  unfold Value.summary
  have human : T.Has (do return v.data.type.name ++ "(" ++ (← v.human) ++ ")") :=
    (has_human v).bind fun _ => T.has_pure _
  split
  · exact T.has_gets fun _ _ => rfl
  · exact T.has_gets fun _ _ => rfl
  · exact human

theorem has_debug (v : Value) : T.Has v.debug :=
  (has_summary v).bind fun _ => .ite (T.has_pure _) (T.has_pure _)

/-! ## Equality -/

theorem has_equalItems {equal : Value → Value → Eval Bool} (h : ∀ a b, T.Has (equal a b))
    (xs ys : List Value) : T.Has (Value.equalItems equal xs ys) := by
  induction xs generalizing ys with
  | nil => cases ys <;> exact T.has_pure _
  | cons x xs ih =>
    cases ys with
    | nil => exact T.has_pure _
    | cons y ys => exact (h x y).bind fun _ => .ite (ih ys) (T.has_pure _)

theorem has_equalEntries {equal : Value → Value → Eval Bool} (h : ∀ a b, T.Has (equal a b))
    (other entries : Entries String Value) :
    T.Has (Value.equalEntries equal other entries) := by
  induction entries with
  | nil => exact T.has_pure _
  | cons entry rest ih =>
    unfold Value.equalEntries
    split
    · exact T.has_pure _
    · exact (h _ _).bind fun _ => .ite ih (T.has_pure _)

theorem has_equalsAt (depth : Nat) (a b : Value) : T.Has (Value.equalsAt depth a b) := by
  induction depth generalizing a b with
  | zero => exact T.has_exhausted
  | succ depth ih =>
    unfold Value.equalsAt
    refine Has.ite (T.has_pure _) (has_onAttempt fun x => has_onAttempt fun y => ?_)
    have items := has_equalItems ih
    split
    · split
      · exact (ih _ _).bind fun _ => .ite (ih _ _) (T.has_pure _)
      · exact .ite (has_equalEntries ih _ _) (T.has_pure _)
      · refine Has.ite (T.has_pure _) (T.has_world (fun _ _ => rfl) fun w => ?_)
        exact .ite ((items _ _).holding _) (T.has_pure _)
      · split
        · exact .ite (items _ _) (T.has_pure _)
        · exact T.has_pure _
    · exact T.has_pure _

theorem has_equals (a b : Value) : T.Has (a.equals b) :=
  T.has_budget.bind fun depth => has_equalsAt depth a b

theorem has_anyEquals (items : List Value) (v : Value) : T.Has (Value.anyEquals items v) :=
  has_anyM (fun item => has_equals item v) items

/-! ## Order -/

theorem has_compareItems {order : Value → Value → Eval Ordering}
    (h : ∀ a b, T.Has (order a b)) (xs ys : List Value) :
    T.Has (Value.compareItems order xs ys) := by
  induction xs generalizing ys with
  | nil => exact T.has_pure _
  | cons x xs ih =>
    cases ys with
    | nil => exact T.has_pure _
    | cons y ys =>
      refine (h x y).bind fun found => ?_
      cases found with
      | eq => exact ih ys
      | _ => exact T.has_pure _

theorem has_compareAt (depth : Nat) (a b : Value) : T.Has (Value.compareAt depth a b) := by
  induction depth generalizing a b with
  | zero => exact T.has_exhausted
  | succ depth ih =>
    refine has_onForcedBoth fun a b => ?_
    split
    · exact has_compareItems ih _ _
    · exact has_ofExcept _

theorem has_compare (a b : Value) : T.Has (a.compare b) :=
  T.has_budget.bind fun depth => has_compareAt depth a b

theorem has_within (v start stop : Value) : T.Has (v.within start stop) :=
  (has_compare _ _).bind fun _ => (has_compare _ _).bind fun _ =>
    .ite (T.has_pure _) ((has_compare _ _).bind fun _ => T.has_pure _)

end Reactor.Trait
