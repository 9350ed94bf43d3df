import Reactor.Engine.Eval

/-!
# Copies of a value

A value and its copies are equal even if what they hold differs from itself or cannot be forced. So
a value is marked before it is copied: when it is kept in the state and when it is handed to a body
that may use it twice.

* `Value.needsMark` : the values that may differ from themselves. Only these are marked.
* `Value.share`, `Value.shareAll` : marks values before they are copied.
* `Value.sameCopy` : copies of one value.
-/

namespace Reactor.Value

/-! ## Which values are marked -/

mutual

/-- The value may differ from itself: it is not a number, or it holds such a value or a lambda. -/
def needsMark : Value → Bool
  | .mk data _ => dataNeedsMark data

/-- The payload may differ from itself. -/
def dataNeedsMark : Data → Bool
  | .decimal x => x.isNotANumber
  | .lambda _ => true
  | .list items => anyNeedsMark items
  | .sequence items => anyNeedsMark items
  | .map entries => entryNeedsMark entries
  | .range start stop => needsMark start || needsMark stop
  | _ => false

/-- Some element may differ from itself. -/
def anyNeedsMark : List Value → Bool
  | [] => false
  | v :: vs => needsMark v || anyNeedsMark vs

/-- The value of some entry may differ from itself. -/
def entryNeedsMark : List (String × Value) → Bool
  | [] => false
  | (_, v) :: rest => needsMark v || entryNeedsMark rest

end

/-! ## Marking -/

mutual

/-- Marks a value and what it holds, from a number of marks on. Values that have a mark keep it. -/
def markFrom : Nat → Value → Value × Nat
  | n, v@(.mk data notes) =>
    if notes.mark != 0 || !needsMark v then (v, n)
    else
      let (data, n) := markDataFrom n data
      (.mk data { notes with mark := n + 1 }, n + 1)

/-- Marks what a payload holds. -/
def markDataFrom : Nat → Data → Data × Nat
  | n, .list items => let (items, n) := markItemsFrom n [] items; (.list items, n)
  | n, .sequence items => let (items, n) := markItemsFrom n [] items; (.sequence items, n)
  | n, .map entries => let (entries, n) := markEntriesFrom n [] entries; (.map entries, n)
  | n, .range start stop =>
    let (start, n) := markFrom n start
    let (stop, n) := markFrom n stop
    (.range start stop, n)
  | n, data => (data, n)

/-- Marks the elements of a list. Those that are done come last first. -/
def markItemsFrom : Nat → List Value → List Value → List Value × Nat
  | n, done, [] => (done.reverse, n)
  | n, done, v :: vs =>
    let (v, n) := markFrom n v
    markItemsFrom n (v :: done) vs

/-- Marks the values of entries. Those that are done come last first. -/
def markEntriesFrom :
    Nat → List (String × Value) → List (String × Value) → List (String × Value) × Nat
  | n, done, [] => (done.reverse, n)
  | n, done, (key, v) :: rest =>
    let (v, n) := markFrom n v
    markEntriesFrom n ((key, v) :: done) rest

end

/-- Marks a value before it is copied, so that its copies are recognised. -/
def share (v : Value) : Eval Value :=
  if needsMark v && v.notes.mark == 0 then
    Eval.modifyGet fun w => let (v, marks) := markFrom w.marks v; (v, { w with marks })
  else pure v

/-- Marks values before they are copied. -/
def shareAll (items : List Value) : Eval (List Value) :=
  if anyNeedsMark items then
    Eval.modifyGet fun w =>
      let (items, marks) := markItemsFrom w.marks [] items
      (items, { w with marks })
  else pure items

/-- Copies of one value, and neither is deferred. -/
def sameCopy (a b : Value) : Bool :=
  a.notes.mark != 0 && a.notes.mark == b.notes.mark && !a.isLambda

/-- A value that needs no mark is left alone, and so is one that has a mark. -/
theorem markFrom_of_marked {v : Value} (h : ¬(needsMark v && v.notes.mark == 0) = true) (n : Nat) :
    markFrom n v = (v, n) := by
  obtain ⟨data, notes⟩ := v
  have left : (notes.mark != 0 || !needsMark (.mk data notes)) = true := by
    cases hneeds : needsMark (.mk data notes) with
    | true => simpa [hneeds] using h
    | false => simp
  rw [markFrom, if_pos left]

/-- To share a value is to mark it, as far as it needs that. -/
theorem share_apply (v : Value) (ctx : Context) (w : World) :
    v.share ctx w = .value (markFrom w.marks v).1 { w with marks := (markFrom w.marks v).2 } := by
  unfold share
  split
  · rfl
  · rename_i h
    rw [markFrom_of_marked h]
    rfl

/-- A value that cannot differ from itself is left alone. -/
theorem share_of_needsMark_eq_false {v : Value} (h : v.needsMark = false) : v.share = pure v := by
  simp [share, h]

theorem shareAll_of_anyNeedsMark_eq_false {items : List Value} (h : anyNeedsMark items = false) :
    shareAll items = pure items := by
  simp [shareAll, h]

end Reactor.Value
