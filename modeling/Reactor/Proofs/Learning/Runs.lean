import Reactor.Engine.Force
import Reactor.Proofs.Learning.Tallies

/-!
# What a learner has learned

A learner finds what it has seen by the text `operation(types)`. The operation may be any text, but no
name of a type has a bracket or a hyphen in it, so the last opening bracket ends the operation and the
hyphens separate the names: two calls have the same key only if they are calls of the same operation on
inputs of the same types (`Learner.key_inj`).

So each entry of a learner that was new at first holds the results of the lessons on one operation and one
list of types (`Learner.countsAt_taught`, by induction on the lessons), and what is predicted for a call is
the histogram of the lessons that are alike (`Learner.histograms_are_exact`).
-/

namespace Reactor

namespace ValueType

theorem notMem_name (ty : ValueType) : '-' ∉ ty.name.toList ∧ '(' ∉ ty.name.toList := by
  cases ty <;> decide

theorem name_ne_empty (ty : ValueType) : ty.name.toList ≠ [] := by
  cases ty <;> decide

end ValueType

namespace Learner

variable {learner : Learner} {operation other : String} {types others : List ValueType}

/-- The names of types with hyphens between them. -/
def signature (types : List ValueType) : String :=
  "-".intercalate (types.map ValueType.name)

/-- The key of a call on inputs of given types. -/
def key (operation : String) (types : List ValueType) : String :=
  operation ++ "(" ++ signature types ++ ")"

/-! ## Keys -/

theorem toList_signature (types : List ValueType) :
    (signature types).toList = ['-'].intercalate (types.map fun ty => ty.name.toList) := by
  rw [signature, String.toList_intercalate, List.map_map]
  rfl

theorem notMem_signature (types : List ValueType) : '(' ∉ (signature types).toList := by
  rw [toList_signature]
  induction types with
  | nil => simp
  | cons ty rest ih =>
    cases rest with
    | nil => simpa using ty.notMem_name.2
    | cons next rest =>
      rw [List.map_cons] at ih
      rw [List.map_cons, List.map_cons, List.intercalate_cons_cons]
      simp [ty.notMem_name.2, ih]

theorem signature_cons_ne_empty (ty : ValueType) (types : List ValueType) :
    (signature (ty :: types)).toList ≠ [] := by
  rw [toList_signature, List.map_cons]
  cases types with
  | nil => simpa using ty.name_ne_empty
  | cons next rest =>
    rw [List.map_cons, List.intercalate_cons_cons]
    simp

theorem signature_inj : signature types = signature others ↔ types = others := by
  refine ⟨fun h => ?_, congrArg signature⟩
  have lists := congrArg String.toList h
  cases types with
  | nil =>
    cases others with
    | nil => rfl
    | cons ty rest => exact absurd lists.symm (signature_cons_ne_empty ty rest)
  | cons ty rest =>
    cases others with
    | nil => exact absurd lists (signature_cons_ne_empty ty rest)
    | cons ty' rest' =>
      have apart (types : List ValueType) : ∀ l ∈ types.map fun ty => ty.name.toList, '-' ∉ l := by
        simp only [List.mem_map, forall_exists_index, and_imp, forall_apply_eq_imp_iff₂]
        exact fun ty _ => ty.notMem_name.1
      rw [toList_signature, toList_signature] at lists
      have names := congrArg (List.splitOn '-') lists
      rw [List.splitOn_intercalate _ (apart _) (by simp), List.splitOn_intercalate _ (apart _) (by simp)]
        at names
      refine List.map_injective_iff.2 (fun s t same => ?_) names
      exact ValueType.name_injective (String.toList_inj.1 same)

/-- The last opening bracket ends the operation. -/
theorem key_inj : key operation types = key other others ↔ operation = other ∧ types = others := by
  refine ⟨fun h => ?_, fun h => by rw [h.1, h.2]⟩
  have before (operation : String) (types : List ValueType) :
      (key operation types).toList.reverse.tail =
        (signature types).toList.reverse ++ '(' :: operation.toList.reverse := by
    simp [key]
  have cut (operation : String) (types : List ValueType) :
      (key operation types).toList.reverse.tail.takeWhile (· != '(') = (signature types).toList.reverse := by
    have clear : ∀ c ∈ (signature types).toList.reverse, (c != '(') = true := fun c hc => by
      rw [bne_iff_ne]
      rintro rfl
      exact notMem_signature types (List.mem_reverse.1 hc)
    rw [before, List.takeWhile_append_of_pos clear, List.takeWhile_cons_of_neg (by simp), List.append_nil]
  have same : types = others := by
    refine signature_inj.1 (String.toList_inj.1 (List.reverse_injective ?_))
    rw [← cut operation, h, cut]
  subst same
  have rest := before operation types
  rw [h, before, List.append_cancel_left_eq, List.cons.injEq, List.reverse_inj, String.toList_inj] at rest
  exact ⟨rest.2.symm, rfl⟩

example : key "f(Integer)" [] ≠ key "f" [.integer] := by decide

/-- With one type for each input there is one signature. -/
theorem signatures_certain (types : List ValueType) :
    signatures (types.map fun ty => [ty]) = [signature types] := by
  cases types with
  | nil => rfl
  | cons first rest =>
    have joined (front : String) : (rest.map fun ty => [ty]).foldl
        (fun done candidates =>
          (done.flatMap fun front => candidates.map fun ty => front ++ "-" ++ ty.name).take maxSignatures)
        [front] = ["-".intercalate (front :: rest.map ValueType.name)] := by
      induction rest generalizing front with
      | nil => rfl
      | cons next rest ih =>
        rw [List.map_cons, List.foldl_cons]
        refine (ih (front ++ "-" ++ next.name)).trans ?_
        rw [List.map_cons, String.intercalate_cons_cons]
        cases rest with
        | nil => simp
        | cons last rest => simp only [List.map_cons, String.intercalate_cons_cons, String.append_assoc]
    exact joined first.name

theorem keys_certain (operation : String) (types : List ValueType) :
    keys operation (types.map fun ty => [ty]) = [key operation types] := by
  rw [keys, signatures_certain]
  rfl

/-- Inputs whose types are known have one candidate each. -/
theorem allCandidates_known (learner : Learner) (types : List ValueType) :
    learner.allCandidates (types.map .known) = types.map fun ty => [ty] := by
  induction types with
  | nil => rfl
  | cons ty rest ih =>
    rw [List.map_cons, allCandidates, candidates, ih]
    rfl

end Learner

/-! ## Calls and lessons -/

/-- A value shows its type: it is not deferred, or its lambda keeps a result. -/
def World.HasType (w : World) (v : Value) (ty : ValueType) : Prop :=
  match v.lambda? with
  | none => v.tag = ty
  | some k => ∃ kept, (w.lambdaAt k).cache = .holding kept ∧ kept.tag = ty

theorem World.HasType.inputShape {w : World} {v : Value} {ty : ValueType} (h : w.HasType v ty)
    (nesting : Nat) : w.inputShape nesting v = .known ty := by
  unfold HasType at h
  cases hv : v.lambda? with
  | none =>
    rw [hv] at h
    simp [World.inputShape, hv, ← h]
  | some k =>
    rw [hv] at h
    obtain ⟨kept, hk, rfl⟩ := h
    simp [World.inputShape, hv, hk]

theorem World.map_inputShape {w : World} {inputs : List Value} {types : List ValueType}
    (h : List.Forall₂ w.HasType inputs types) (nesting : Nat) :
    inputs.map (w.inputShape nesting) = types.map .known := by
  induction h with
  | nil => rfl
  | cons first _ ih => rw [List.map_cons, List.map_cons, first.inputShape, ih]

/-- A call of an operation, with the types of its inputs, each of which shows its own. -/
structure Application where
  world : World
  operation : String
  inputs : List Value
  types : List ValueType
  shown : List.Forall₂ world.HasType inputs types

namespace Application

/-- Two calls are of the same operation, and their first inputs are of the same types. -/
def Like (app other : Application) : Prop :=
  app.operation = other.operation ∧
    app.types.take Learner.maxInputs = other.types.take Learner.maxInputs

instance (app other : Application) : Decidable (app.Like other) :=
  inferInstanceAs (Decidable (_ ∧ _))

/-- The keys under which a learner counts a app. -/
def keys (app : Application) (learner : Learner) : List String :=
  learner.callKeys app.operation (app.world.inputShapes app.inputs)

/-- What a learner predicts for a app. -/
def predicted (app : Application) (learner : Learner) : Tally :=
  learner.predict app.operation (app.world.inputShapes app.inputs)

/-- The only key of a app. -/
def key (app : Application) : String :=
  Learner.key app.operation (app.types.take Learner.maxInputs)

theorem inputShapes_eq (app : Application) :
    app.world.inputShapes app.inputs = (app.types.take Learner.maxInputs).map .known :=
  World.map_inputShape (List.forall₂_take Learner.maxInputs app.shown) _

theorem keys_eq (app : Application) (learner : Learner) : app.keys learner = [app.key] := by
  unfold keys Learner.callKeys
  rw [inputShapes_eq, ← List.map_take, List.take_take, Nat.min_self, Learner.allCandidates_known,
    Learner.keys_certain]
  rfl

theorem predicted_eq (app : Application) (learner : Learner) :
    app.predicted learner = learner.lookup [app.key] :=
  congrArg learner.lookup (app.keys_eq learner)

theorem key_eq_iff {app other : Application} : app.key = other.key ↔ app.Like other :=
  Learner.key_inj

end Application

/-- What a learner is told of: a call, its result, and the time. -/
structure Lesson where
  app : Application
  output : ValueType
  now : Nat

/-- A learner takes in a lesson. -/
def Lesson.teach (learner : Learner) (lesson : Lesson) : Learner :=
  learner.learn lesson.now lesson.app.operation (lesson.app.world.inputShapes lesson.app.inputs)
    lesson.output

/-- The results of the lessons on calls like a given one. -/
def Application.sights (app : Application) (lessons : List Lesson) : List ValueType :=
  (lessons.filter fun lesson => lesson.app.Like app).map Lesson.output

namespace Learner

variable {learner : Learner}

/-- The counts under a key. -/
def countsAt (learner : Learner) (key : String) : Counts :=
  ((Entries.get? learner.entries key).map LearnedEntry.counts).getD []

/-- One lesson adds one to one count. -/
theorem countsAt_teach (learner : Learner) (lesson : Lesson) (key : String) :
    (lesson.teach learner).countsAt key =
      if lesson.app.key = key then (learner.countsAt key).add lesson.output 1
      else learner.countsAt key := by
  have one : learner.callKeys lesson.app.operation (lesson.app.world.inputShapes lesson.app.inputs) =
      [lesson.app.key] := lesson.app.keys_eq learner
  unfold Lesson.teach learn countsAt
  rw [one]
  simp only [List.foldl_cons, List.foldl_nil, Entries.get?_insert]
  split
  · next h =>
    rw [h]
    cases Entries.get? learner.entries key <;> rfl
  · rfl

/-- An entry holds what the lessons with its key told, one by one. -/
theorem countsAt_taught (lessons : List Lesson) (learner : Learner) (key : String) :
    (lessons.foldl Lesson.teach learner).countsAt key =
      ((lessons.filter fun lesson => lesson.app.key = key).map Lesson.output).foldl
        (fun counts ty => counts.add ty 1) (learner.countsAt key) := by
  induction lessons generalizing learner with
  | nil => rfl
  | cons lesson rest ih =>
    rw [List.foldl_cons, ih, countsAt_teach, List.filter_cons]
    by_cases h : lesson.app.key = key <;> simp [h]

theorem lookup_singleton (learner : Learner) (key : String) :
    learner.lookup [key] = ({} : Tally).addAll (learner.countsAt key) := by
  unfold lookup countsAt
  rw [List.foldl_cons, List.foldl_nil]
  cases Entries.get? learner.entries key <;> rfl

/-- A learner that was new at first predicts what the lessons on like calls told. -/
theorem predicted_taught (expiry : Option Nat) (lessons : List Lesson) (app : Application) :
    app.predicted (lessons.foldl Lesson.teach { expiry }) =
      ({} : Tally).addAll (Counts.ofSights (app.sights lessons)) := by
  have alike : (lessons.filter fun lesson => lesson.app.key = app.key) =
      lessons.filter fun lesson => lesson.app.Like app := by
    simp only [Application.key_eq_iff]
  rw [Application.predicted_eq, lookup_singleton, countsAt_taught, alike]
  rfl

/-- **Learned histograms are exact.** What a learner that was new at first predicts for a call counts each
type as often as the lessons on like calls told it, as a 64-bit word, whatever the other lessons were: only
like calls have a key in common. The total is the sum of the counts. The types that were told are given once
each, by falling count and then as they are declared, and the first of them is the most probable one. -/
theorem histograms_are_exact (expiry : Option Nat) (lessons : List Lesson) (app : Application) :
    let learner : Learner := lessons.foldl Lesson.teach { expiry }
    let tally := app.predicted learner
    (∀ other : Application, (∃ key ∈ app.keys learner, key ∈ other.keys learner) ↔ app.Like other) ∧
      (∀ ty, (tally.count ty).toNat = (app.sights lessons).count ty % 2 ^ 64) ∧
      tally.total = (tally.types.map tally.count).sum ∧
      tally.probable? = tally.types.head? ∧
      tally.types.Nodup ∧ (∀ ty, ty ∈ tally.types ↔ ty ∈ app.sights lessons) ∧
      tally.types.Pairwise tally.Before := by
  intro learner tally
  have learned : tally = ({} : Tally).addAll (Counts.ofSights (app.sights lessons)) :=
    predicted_taught expiry lessons app
  have summed : tally.Summed := by
    rw [learned]
    exact Tally.summed_empty.addAll _
  refine ⟨fun other => ?_, fun ty => ?_, summed.total_eq, tally.probable?_eq, tally.nodup_types,
    fun ty => ?_, tally.pairwise_types⟩
  · simp only [Application.keys_eq, List.mem_singleton, exists_eq_left]
    exact Application.key_eq_iff
  · rw [learned, Tally.count_addAll (Counts.nodup_keys_ofSights _), Counts.count_ofSights,
      Tally.count_empty, zero_add, UInt64.toNat_ofNat']
  · rw [Tally.mem_types, learned, Tally.contains_addAll]
    exact Counts.contains_ofSights

end Learner

end Reactor
