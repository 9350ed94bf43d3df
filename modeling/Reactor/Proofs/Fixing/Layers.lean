import Reactor.Proofs.Network.Plan

/-!
# Layers of values

The first layer of a value is the value itself, the next one its elements. To fix the first layers is to put
in the place of each deferred value of these layers what its lambda gives, and to go on into that
(`Value.FixedTo`). Everything else stays: collections keep their kinds, lengths, keys, errors and
tags, and what lies below the last layer is left as it was found.

* `Meeting` : a deferred value that a traversal comes to. Its lambda is forced, or it is spared because it
  cannot be fixed.
* `Value.Clear` : the first layers hold no lambdas but some. What has been fixed is clear of all that have not
  been spared (`Value.FixedTo.clear`).
* `Value.Made` : the value has few layers. If it is clear down to the last one, it is clear at every depth
  (`Value.Clear.deep`).
-/

namespace Reactor

/-- A deferred value that a traversal comes to. -/
inductive Meeting where
  /-- Its lambda is forced, with a result. -/
  | forced (id : LambdaId) (result : Value)
  /-- Its lambda cannot be fixed. -/
  | spared (id : LambdaId)

namespace Value

/-- Whom a traversal meets, in order, and what it makes of a value. -/
abbrev Becoming := List Meeting → Value → Value → Prop

/-- The payload is made of other values. -/
def isCollection (v : Value) : Bool :=
  v.data matches .list _ | .sequence _ | .map _ | .range _ _

/-- What a collection is made of, in order. -/
def elements (v : Value) : List Value :=
  match v.data with
  | .list items => items
  | .sequence items => items
  | .map entries => Entries.values entries
  | .range start stop => [start, stop]
  | _ => []

/-- The value is left as it is, and nobody is met. -/
def Same : Becoming :=
  fun met v r => met = [] ∧ r = v

/-- Something is made of each of some values, one after another. -/
inductive Along (R : Becoming) : List Meeting → List Value → List Value → Prop
  | nil : Along R [] [] []
  | cons {met more : List Meeting} {x y : Value} {xs ys : List Value} (h : R met x y)
    (rest : Along R more xs ys) : Along R (met ++ more) (x :: xs) (y :: ys)

/-- A collection with other elements in the place of its own. It keeps all else but its mark. A value that
is no collection stays. -/
inductive Remade (R : Becoming) : Becoming
  | list {met : List Meeting} {items items' : List Value} {notes : Notes}
    (h : Along R met items items') :
    Remade R met (.mk (.list items) notes) (.mk (.list items') { notes with mark := 0 })
  | sequence {met : List Meeting} {items items' : List Value} {notes : Notes}
    (h : Along R met items items') :
    Remade R met (.mk (.sequence items) notes) (.mk (.sequence items') { notes with mark := 0 })
  | map {met : List Meeting} {entries entries' : Entries String Value} {notes : Notes}
    (hkeys : Entries.keys entries' = Entries.keys entries)
    (h : Along R met (Entries.values entries) (Entries.values entries')) :
    Remade R met (.mk (.map entries) notes) (.mk (.map entries') { notes with mark := 0 })
  | range {met more : List Meeting} {start stop start' stop' : Value} {notes : Notes}
    (h : R met start start') (h' : R more stop stop') :
    Remade R (met ++ more) (.mk (.range start stop) notes)
      (.mk (.range start' stop') { notes with mark := 0 })
  | leaf {v : Value} (h : v.isCollection = false) : Remade R [] v v

/-- Something is made of the result of a lambda, with the errors of the deferred value added, unless the lambda
is spared. Of any other value it is made itself. -/
inductive Replaced (R : Becoming) : Becoming
  | own {met : List Meeting} {v r : Value} (hv : v.lambda? = none) (h : R met v r) :
    Replaced R met v r
  | forced {met : List Meeting} {v r result : Value} {id : LambdaId} (hv : v.lambda? = some id)
    (h : R met (v.overlaid result) r) : Replaced R (.forced id result :: met) v r
  | spared {v : Value} {id : LambdaId} (hv : v.lambda? = some id) : Replaced R [.spared id] v v

/-- A number of layers is fixed, and below them every element is as it was found. -/
def FixedTo : Nat → Becoming
  | 0 => Same
  | 1 => Replaced Same
  | depth + 2 => Replaced (Remade (FixedTo (depth + 1)))

/-- The first layers hold no lambdas but some. -/
def Clear (stays : LambdaId → Prop) : Nat → Value → Prop
  | 0, _ => True
  | depth + 1, v => (∀ id, v.lambda? = some id → stays id) ∧ ∀ x ∈ v.elements, Clear stays depth x

/-- The value has at most a number of layers, and its collections have no marks. -/
def Made : Nat → Value → Prop
  | 0, _ => False
  | depth + 1, v => (v.isCollection = true → v.notes.mark = 0) ∧ ∀ x ∈ v.elements, Made depth x

variable {R : Becoming} {met : List Meeting} {v x r : Value} {xs ys : List Value}
  {stays : LambdaId → Prop} {depth n : Nat}

/-! ## Elements -/

theorem elements_of_lambda? {id : LambdaId} (h : v.lambda? = some id) : v.elements = [] := by
  obtain ⟨data, notes⟩ := v
  cases data <;> cases h
  rfl

theorem lambda?_overlaid (v result : Value) : (v.overlaid result).lambda? = result.lambda? := by
  unfold overlaid
  split <;> rfl

theorem Along.singleton {y : Value} (h : R met x y) : Along R met [x] [y] := by
  have along := Along.cons h .nil
  rwa [List.append_nil] at along

theorem Along.mono {S : Becoming} (h : Along R met xs ys) (hRS : ∀ {met x y}, R met x y → S met x y) :
    Along S met xs ys := by
  induction h with
  | nil => exact .nil
  | cons h _ ih => exact .cons (hRS h) ih

theorem Along.length_eq (h : Along R met xs ys) : xs.length = ys.length := by
  induction h with
  | nil => rfl
  | cons _ _ ih => rw [List.length_cons, List.length_cons, ih]

/-- What holds of all that is made of the elements, holds of what stands in their place. -/
theorem Along.forall_right {P : Value → Prop} (h : Along R met xs ys)
    (hR : ∀ {part x y}, part ⊆ met → R part x y → P y) : ∀ y ∈ ys, P y := by
  induction h with
  | nil => simp
  | cons h _ ih =>
    rw [List.forall_mem_cons]
    refine ⟨hR (List.subset_append_left _ _) h, ih fun hpart => ?_⟩
    exact hR (List.subset_append_of_subset_right _ hpart)

theorem Remade.mono {S : Becoming} (h : Remade R met v r) (hRS : ∀ {met x y}, R met x y → S met x y) :
    Remade S met v r := by
  cases h with
  | list h => exact .list (h.mono hRS)
  | sequence h => exact .sequence (h.mono hRS)
  | map hkeys h => exact .map hkeys (h.mono hRS)
  | range h h' => exact .range (hRS h) (hRS h')
  | leaf h => exact .leaf h

theorem Remade.along (h : Remade R met v r) : Along R met v.elements r.elements := by
  cases h with
  | list h => exact h
  | sequence h => exact h
  | map _ h => exact h
  | range h h' => exact .cons h (.singleton h')
  | leaf h =>
    obtain ⟨data, notes⟩ := v
    cases data <;> first | exact .nil | cases h

theorem Remade.lambda?_eq (h : Remade R met v r) : r.lambda? = v.lambda? := by
  cases h <;> rfl

theorem Remade.made (h : Remade R met v r) (helements : ∀ y ∈ r.elements, y.Made n) :
    r.Made (n + 1) := by
  refine ⟨fun hr => ?_, helements⟩
  cases h with
  | leaf h => simp [h] at hr
  | _ => rfl

theorem made_of_lambda? {id : LambdaId} (h : v.lambda? = some id) : v.Made (n + 1) := by
  refine ⟨fun hv => ?_, ?_⟩
  · obtain ⟨data, notes⟩ := v
    cases data <;> cases h
    cases hv
  · simp [elements_of_lambda? h]

/-! ## Fixed layers -/

theorem fixedTo_succ (depth : Nat) :
    FixedTo (depth + 1) = Replaced (if depth = 0 then Same else Remade (FixedTo depth)) := by
  cases depth <;> rfl

/-- Fixed layers hold only those lambdas that have been spared, if no result is deferred. -/
theorem FixedTo.clear (h : FixedTo depth met v r)
    (hforced : ∀ {id result}, .forced id result ∈ met → result.lambda? = none)
    (hspared : ∀ {id}, .spared id ∈ met → stays id) : r.Clear stays depth := by
  induction depth generalizing met v r with
  | zero => trivial
  | succ depth ih =>
    -- the value that has been forced, or is not deferred, is remade, or is the last layer
    have within {inner : List Meeting} {y : Value} (hinner : inner ⊆ met) (hy : y.lambda? = none)
        (hr : (if depth = 0 then Same else Remade (FixedTo depth)) inner y r) :
        r.Clear stays (depth + 1) := by
      by_cases hdepth : depth = 0
      · subst hdepth
        rw [if_pos rfl] at hr
        obtain ⟨-, rfl⟩ := hr
        refine ⟨?_, fun x _ => trivial⟩
        simp [hy]
      · rw [if_neg hdepth] at hr
        refine ⟨?_, hr.along.forall_right fun hpart hx => ?_⟩
        · simp [hr.lambda?_eq, hy]
        · exact ih hx (fun h => hforced (hinner (hpart h))) fun h => hspared (hinner (hpart h))
    rw [fixedTo_succ] at h
    cases h with
    | own hv h => exact within (List.Subset.refl _) hv h
    | forced _ h =>
      refine within (List.subset_cons_self _ _) ?_ h
      rw [lambda?_overlaid]
      exact hforced List.mem_cons_self
    | @spared _ id hv =>
      refine ⟨fun other hother => ?_, ?_⟩
      · cases hv.symm.trans hother
        exact hspared List.mem_cons_self
      · simp [elements_of_lambda? hv]

/-- A value that is clear down to its last layer is so at every depth. -/
theorem Clear.deep (h : v.Clear stays depth) (hv : v.Made n) (hn : n ≤ depth) (m : Nat) :
    v.Clear stays m := by
  induction n generalizing v depth m with
  | zero => exact hv.elim
  | succ n ih =>
    obtain ⟨depth, rfl⟩ : ∃ d, depth = d + 1 := ⟨depth - 1, by omega⟩
    cases m with
    | zero => trivial
    | succ m => exact ⟨h.1, fun x hx => ih (h.2 x hx) (hv.2 x hx) (by omega) m⟩

end Value

end Reactor
