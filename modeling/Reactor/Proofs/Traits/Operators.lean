import Reactor.Proofs.Traits.Sorting
import Reactor.Value.Cast

/-!
# Traits of operators

The operators, the operations on collections and the casts are put together from forced operands, texts
and comparisons.
-/

namespace Reactor.Trait

variable {T : Trait}

/-! ## Numbers -/

theorem has_toInteger (v : Value) : T.Has v.toInteger :=
  (has_forced v).bind fun _ => has_ofExcept _

theorem has_toDecimal (v : Value) : T.Has v.toDecimal :=
  (has_forced v).bind fun _ => has_ofExcept _

theorem has_negate (v : Value) : T.Has v.negate :=
  (has_forced v).bind fun _ => (has_ofExcept _).andReturn _

theorem has_abs (v : Value) : T.Has v.abs := by
  refine has_onForced fun v => ?_
  split
  · exact .ite (has_negate v) (T.has_pure v)
  · exact T.has_fail _

theorem has_sign (v : Value) : T.Has v.sign := by
  refine (has_forced v).bind fun v => ?_
  split
  · exact T.has_pure _
  · exact T.has_fail _

theorem has_numberMatches (v : Value) (test : Number → Bool) : T.Has (v.numberMatches test) :=
  has_matchForced (fun _ => T.has_pure _) fun _ => T.has_pure _

/-! ## Operators -/

theorem has_ofEnds {f : Value → Eval Value} (h : ∀ v, T.Has (f v)) (start stop : Value) :
    T.Has (do
      let start ← f start
      let stop ← Eval.holding start.places (f stop)
      return Value.range start stop) :=
  (h start).bind fun _ => ((h stop).holding _).andReturn _

theorem has_plusConcrete {plus : Value → Value → Eval Value} (h : ∀ a b, T.Has (plus a b))
    (a b : Value) : T.Has (Value.plusConcrete plus a b) := by
  unfold Value.plusConcrete
  split
  · exact (has_human b).andReturn _
  · exact T.has_pure _
  · exact T.has_pure _
  · exact T.has_pure _
  · exact .ite (has_ofEnds (fun v => h v b) _ _) (has_ofExcept _)
  · exact .ite (T.has_pure _) (has_ofExcept _)
  · exact .ite (T.has_pure _) (has_ofExcept _)
  · exact .ite (has_ofExcept _) (has_ofExcept _)
  · exact has_ofExcept _

/-- The result of a binary operator: an operand that takes its place, or a computed one. -/
theorem has_absorbing {act : Eval Value} (h : T.Has act) (a b : Value) :
    T.Has (match Value.absorbing? a b with
      | some absorbed => pure absorbed
      | none => act) := by
  split
  · exact T.has_pure _
  · exact h

theorem has_plusAt (depth : Nat) (a b : Value) : T.Has (Value.plusAt depth a b) := by
  induction depth generalizing a b with
  | zero => exact T.has_exhausted
  | succ depth ih =>
    refine has_onForcedBoth fun a b => Has.andReturn ?_ _
    split
    · exact T.has_pure _
    · exact T.has_pure _
    · exact has_absorbing (has_plusConcrete ih a b) a b

theorem has_plus (a b : Value) : T.Has (a.plus b) :=
  T.has_budget.bind fun depth => has_plusAt depth a b

theorem has_filterM {α : Type} {f : α → Eval Bool} (h : ∀ a, T.Has (f a)) (items : List α) :
    T.Has (items.filterM f) := by
  have filtered (kept : List α) : T.Has (items.filterAuxM f kept) := by
    induction items generalizing kept with
    | nil => exact T.has_pure _
    | cons item items ih => exact (h item).bind fun _ => ih _
  exact (filtered []).andReturn _

theorem has_minusConcrete {minus : Value → Value → Eval Value} (h : ∀ a b, T.Has (minus a b))
    (a b : Value) : T.Has (Value.minusConcrete minus a b) := by
  have removed (items : List Value) :
      T.Has (items.filterM fun item => do return !(← item.equals b)) :=
    has_filterM (fun item => (has_equals item b).andReturn _) items
  unfold Value.minusConcrete
  split
  · exact (has_human b).bind fun _ => .ite (T.has_pure _) (T.has_pure _)
  · exact (removed _).andReturn _
  · exact (removed _).andReturn _
  · exact T.has_pure _
  · exact (has_human b).andReturn _
  · exact .ite (has_ofEnds (fun v => h v b) _ _) (has_ofExcept _)
  · exact T.has_pure _
  · exact .ite ((has_negate b).bind fun _ => has_ofExcept _) (has_ofExcept _)
  · exact has_ofExcept _

theorem has_minusAt (depth : Nat) (a b : Value) : T.Has (Value.minusAt depth a b) := by
  induction depth generalizing a b with
  | zero => exact T.has_exhausted
  | succ depth ih =>
    refine has_onForcedBoth fun a b => Has.andReturn ?_ _
    split
    · exact T.has_pure _
    · exact has_negate b
    · exact has_absorbing (has_minusConcrete ih a b) a b

theorem has_minus (a b : Value) : T.Has (a.minus b) :=
  T.has_budget.bind fun depth => has_minusAt depth a b

theorem has_strict (f : Data → Data → Except Error Value) (a b : Value) :
    T.Has (Value.strict f a b) := by
  refine has_onForcedBoth fun a b => ?_
  split
  · exact T.has_pure _
  · exact (has_ofExcept _).andReturn _

theorem has_multiply (a b : Value) : T.Has (a.multiply b) :=
  has_strict _ a b

theorem has_divide (a b : Value) : T.Has (a.divide b) :=
  has_strict _ a b

theorem has_modulus (a b : Value) : T.Has (a.modulus b) :=
  has_strict _ a b

theorem has_inc (v : Value) : T.Has v.inc := by
  refine has_onForced fun v => ?_
  split
  · exact (has_ofExcept _).andReturn _
  · exact has_plus v _

theorem has_dec (v : Value) : T.Has v.dec := by
  refine has_onForced fun v => ?_
  split
  · exact (has_ofExcept _).andReturn _
  · exact has_minus v _

/-! ## Elements -/

theorem has_rangeLength (start stop : Value) : T.Has (Value.rangeLength start stop) :=
  has_onForcedBoth fun _ _ => (has_ofExcept _).andReturn _

theorem has_rangeItems (start stop : Value) : T.Has (Value.rangeItems start stop) :=
  (has_rangeLength start stop).bind fun _ =>
    .ite (T.has_fail _) (has_onForcedBoth fun _ _ => (has_ofExcept _).andReturn _)

theorem has_items (id : QueueId) : T.Has (Eval.gets fun w => (w.queueAt id).items) :=
  T.has_gets fun _ _ => rfl

theorem has_resourceAll (resource : Resource) : T.Has resource.all := by
  cases resource with
  | queue id => exact has_items id
  | cell id => exact T.has_fail _

theorem has_resourceSize (resource : Resource) : T.Has resource.size := by
  cases resource with
  | queue id => exact T.has_gets fun _ _ => rfl
  | cell id => exact T.has_fail _

theorem has_toList (v : Value) : T.Has v.toList := by
  refine has_onForced fun v => ?_
  split
  · exact T.has_pure _
  · exact T.has_pure _
  · exact T.has_pure _
  · exact has_rangeItems _ _
  · exact has_items _
  · exact (has_ofExcept _).bind fun resource => has_resourceAll resource
  · exact T.has_pure _
  · exact T.has_pure _

theorem has_onItems {α : Type} (v : Value) {work : List Value → Eval α}
    (h : ∀ items, T.Has (work items)) : T.Has (v.onItems work) :=
  (has_toList v).bind fun items => (h items).holding _

theorem has_toMap (v : Value) : T.Has v.toMap := by
  refine has_onForced fun v => ?_
  split
  · exact T.has_pure _
  · exact T.has_pure _
  · exact (has_toList v).andReturn _
  · exact (has_toList v).andReturn _
  · exact (has_toList v).andReturn _
  · exact (has_toList v).andReturn _
  · exact T.has_pure _

theorem has_size (v : Value) : T.Has v.size := by
  refine has_onForced fun v => ?_
  cases v.data with
  | range start stop => exact has_rangeLength start stop
  | queue id => exact T.has_gets fun _ _ => rfl
  | uri uri => exact (has_ofExcept _).bind fun resource => has_resourceSize resource
  | _ => exact T.has_pure _

theorem has_isEmpty (v : Value) : T.Has v.isEmpty := by
  refine (has_size v).attempt.bind fun result => ?_
  cases result <;> exact T.has_pure _

theorem has_indexOf (key : Value) : T.Has (Value.indexOf key) :=
  (has_toInteger key).andReturn _

theorem has_get (v key : Value) : T.Has (v.get key) := by
  refine has_onForced fun v => Has.andReturn ?_ _
  have index := has_indexOf (T := T) key
  cases v.data with
  | void => exact T.has_pure _
  | null _ => exact T.has_pure _
  | map _ => exact (has_human key).andReturn _
  | range _ _ => exact has_onItems v fun _ => index.andReturn _
  | queue _ => exact has_onItems v fun _ => index.andReturn _
  | uri _ => exact T.has_fail _
  | _ => exact index.andReturn _

theorem has_setIndex (v key item : Value) (items : List Value) : T.Has (do
    match ← Value.indexOf key with
    | some i =>
      if i < items.length then return Value.sameKind v (items.set i item)
      else if i = items.length then return Value.sameKind v (items ++ [item])
      else Value.set.outOfBounds key items.length
    | none => Value.set.outOfBounds key items.length) := by
  have outside (length : Nat) : T.Has (Value.set.outOfBounds key length) :=
    (has_human key).bind fun _ => T.has_fail _
  refine (has_indexOf key).bind fun index => ?_
  cases index with
  | none => exact outside _
  | some _ => exact .ite (T.has_pure _) (.ite (T.has_pure _) (outside _))

theorem has_setAt (v key item : Value) : T.Has (v.set key item) := by
  refine has_onForced fun v => ?_
  cases v.data with
  | map _ => exact (has_human key).andReturn _
  | list items => exact has_setIndex v key item items
  | sequence items => exact has_setIndex v key item items
  | _ => exact T.has_fail _

theorem has_append (v item : Value) : T.Has (v.append item) := by
  refine has_onForced fun v => ?_
  cases v.data with
  | map _ =>
    refine has_onForced fun forced => ?_
    split
    · exact has_plus v item
    · exact T.has_fail _
  | string _ => exact (has_human item).andReturn _
  | queue _ => exact T.has_fail _
  | uri _ => exact T.has_fail _
  | _ => exact T.has_pure _

theorem has_prepend (v item : Value) : T.Has (v.prepend item) := by
  refine has_onForced fun v => ?_
  cases v.data with
  | string _ => exact (has_human item).andReturn _
  | map _ => exact T.has_fail _
  | queue _ => exact T.has_fail _
  | uri _ => exact T.has_fail _
  | _ => exact T.has_pure _

theorem has_remove (v item : Value) : T.Has (v.remove item) := by
  refine has_onForced fun v => ?_
  cases v.data with
  | void => exact T.has_pure _
  | list _ => exact has_minus v item
  | sequence _ => exact has_minus v item
  | string _ => exact has_minus v item
  | map _ => exact has_minus v item
  | _ => exact T.has_fail _

theorem has_containsValue (v item : Value) : T.Has (v.containsValue item) := by
  refine has_onForced fun v => ?_
  cases v.data with
  | void => exact T.has_pure _
  | null _ => exact T.has_pure _
  | error _ => exact T.has_pure _
  | list _ => exact has_anyEquals _ item
  | sequence _ => exact has_anyEquals _ item
  | map _ => exact has_anyEquals _ item
  | string _ => exact (has_human item).andReturn _
  | range _ _ => exact has_within item _ _
  | queue id => exact (has_items id).bind fun _ => (has_anyEquals _ item).holding _
  | _ => exact has_equals v item

theorem has_containsKey (v key : Value) : T.Has (v.containsKey key) := by
  refine has_onForced fun v => ?_
  cases v.data with
  | map _ => exact (has_human key).andReturn _
  | list _ => exact (has_indexOf key).andReturn _
  | sequence _ => exact (has_indexOf key).andReturn _
  | string _ => exact (has_indexOf key).andReturn _
  | _ => exact T.has_pure _

theorem has_withEntry (v : Value) (key : String) (item : Value) :
    T.Has (v.withEntry key item) := by
  refine has_onForced fun v => ?_
  split
  · exact T.has_pure _
  · exact T.has_pure _
  · exact T.has_pure _
  · exact T.has_fail _

theorem has_keys (v : Value) : T.Has v.keys := by
  refine (has_forced v).bind fun v => ?_
  cases v.data <;> exact T.has_pure _

theorem has_first (v : Value) : T.Has v.first :=
  (has_toList v).andReturn _

theorem has_last (v : Value) : T.Has v.last :=
  (has_toList v).andReturn _

/-! ## Aggregates -/

theorem has_foldItems {f : Value → Value → Eval Value} (h : ∀ a b, T.Has (f a b))
    (fallback : Value) (items : List Value) : T.Has (Value.foldItems f fallback items) := by
  cases items with
  | nil => exact T.has_pure _
  | cons first rest => exact has_inTurn h _ _ first _

theorem has_sum (v : Value) : T.Has v.sum :=
  (has_toList v).bind fun _ => has_foldItems has_plus _ _

theorem has_product (v : Value) : T.Has v.product :=
  (has_toList v).bind fun _ => has_foldItems has_multiply _ _

theorem has_min (v : Value) : T.Has v.min :=
  (has_toList v).bind fun _ => has_foldItems (fun a b => (has_compare a b).andReturn _) _ _

theorem has_max (v : Value) : T.Has v.max :=
  (has_toList v).bind fun _ => has_foldItems (fun a b => (has_compare a b).andReturn _) _ _

theorem has_avg (v : Value) : T.Has v.avg :=
  (has_toList v).bind fun _ =>
    .ite (T.has_pure _) ((has_sum v).bind fun _ => (has_divide _ _).holding _)

/-! ## Rearrangements -/

theorem has_sort (v : Value) : T.Has v.sort :=
  has_onForced fun v => (has_onItems v has_sortItems).andReturn _

theorem has_reverse (v : Value) : T.Has v.reverse := by
  refine has_onForced fun v => ?_
  cases v.data with
  | string _ => exact has_negate v
  | range _ _ => exact has_negate v
  | _ => exact (has_toList v).andReturn _

theorem has_unique (v : Value) : T.Has v.unique :=
  has_onForced fun v => (has_toList v).bind fun _ =>
    (has_inTurn (fun kept item => (has_anyEquals kept item).andReturn _) _ _ _ _).andReturn _

/-! ## Casts -/

theorem has_convert (v : Value) (target : ValueType) : T.Has (v.convert target) := by
  unfold Value.convert
  split
  · exact (has_human v).andReturn _
  · split
    · exact T.has_pure _
    · exact (has_truthyData _).andReturn _
  · exact (has_human v).andReturn _
  · exact (has_toList v).andReturn _
  · exact (has_toList v).andReturn _
  · exact (has_toMap v).andReturn _
  · refine (has_toList v).bind fun items => ?_
    split
    · exact T.has_pure _
    · exact T.has_fail _
  · exact (has_toList v).bind fun items => (has_newQueue items).andReturn _
  · exact T.has_pure _
  · exact T.has_pure _
  · exact has_ofExcept _

theorem has_cast (v : Value) (target : ValueType) : T.Has (v.cast target) :=
  has_onForced fun v =>
    .ite (T.has_pure v) ((has_ofExcept _).bind fun _ => has_convert v target)

end Reactor.Trait
