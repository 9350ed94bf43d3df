import Reactor.Proofs.Learning.Tables

/-!
# The signatures of a call

A call has a signature for each choice of one type for each of its inputs. `Learner.choices` gives all choices,
in lexicographic order. The signatures are made input by input, and after each input only the first
`maxSignatures` of them are kept. Nothing is lost by that: a choice for the first inputs goes on in at least
one way, so the first choices for some inputs depend only on as many of the first choices for one input less
(`take_flatMap_take`). So the signatures of a call are those of its first choices (`Learner.signatures_eq`).

No signature stands for two choices, and so a call is counted at most once in each entry
(`Learner.get?_learn`), and each entry counts at most once in a prediction (`Learner.Sound.count_predict`).
-/

namespace Reactor

/-- If all elements give something, the first results come from as many of the first elements. -/
theorem take_flatMap_take {α β : Type} {f : α → List β} {l : List α} (h : ∀ a ∈ l, f a ≠ []) {m n : Nat}
    (hmn : m ≤ n) : ((l.take n).flatMap f).take m = (l.flatMap f).take m := by
  induction l generalizing m n with
  | nil => rw [List.take_nil]
  | cons a l ih =>
    obtain ⟨hfirst, hrest⟩ := List.forall_mem_cons.1 h
    have hlength : 1 ≤ (f a).length := List.length_pos_iff.2 hfirst
    cases n with
    | zero =>
      rw [Nat.le_zero.1 hmn, List.take_zero, List.take_zero]
    | succ n =>
      rw [List.take_succ_cons, List.flatMap_cons, List.flatMap_cons, List.take_append, List.take_append,
        ih hrest (by omega)]

namespace Learner

variable {learner : Learner} {lists : List (List ValueType)} {choice : List ValueType} {key : String}

/-! ## Choices -/

/-- One type out of each list, in all ways, in lexicographic order. -/
def choices : List (List ValueType) → List (List ValueType)
  | [] => [[]]
  | candidates :: rest => candidates.flatMap fun ty => (choices rest).map (ty :: ·)

/-- The places of the chosen types in their lists. -/
def places (lists : List (List ValueType)) (choice : List ValueType) : List Nat :=
  List.zipWith (fun candidates ty => candidates.idxOf ty) lists choice

theorem mem_choices : choice ∈ choices lists ↔ List.Forall₂ (· ∈ ·) choice lists := by
  induction lists generalizing choice with
  | nil => rw [choices, List.mem_singleton, List.forall₂_nil_right_iff]
  | cons candidates rest ih =>
    simp only [choices, List.mem_flatMap, List.mem_map, ih, List.forall₂_cons_right_iff]
    constructor
    · rintro ⟨ty, hty, others, hothers, rfl⟩
      exact ⟨ty, others, hty, hothers, rfl⟩
    · rintro ⟨ty, others, hty, hothers, rfl⟩
      exact ⟨ty, hty, others, hothers, rfl⟩

/-- The last list adds one type to each choice out of the lists before it. -/
theorem choices_concat (lists : List (List ValueType)) (candidates : List ValueType) :
    choices (lists ++ [candidates]) =
      (choices lists).flatMap fun front => candidates.map fun ty => front ++ [ty] := by
  induction lists with
  | nil => simp [choices, List.map_eq_flatMap]
  | cons first rest ih =>
    rw [List.cons_append, choices, ih, choices, List.flatMap_assoc]
    refine List.flatMap_congr fun ty _ => ?_
    rw [List.map_flatMap, List.flatMap_map]
    refine List.flatMap_congr fun front _ => ?_
    rw [List.map_map]
    rfl

/-- The places of the elements of a list without repetitions rise. -/
theorem pairwise_idxOf {candidates : List ValueType} (h : candidates.Nodup) :
    candidates.Pairwise fun s t => candidates.idxOf s < candidates.idxOf t := by
  refine List.pairwise_iff_getElem.2 fun i j hi hj hij => ?_
  rwa [h.idxOf_getElem, h.idxOf_getElem]

/-- The choices come in lexicographic order of the places of their types. -/
theorem pairwise_choices (h : ∀ candidates ∈ lists, candidates.Nodup) :
    (choices lists).Pairwise fun s t => places lists s < places lists t := by
  induction lists with
  | nil => exact List.pairwise_singleton _ _
  | cons candidates rest ih =>
    obtain ⟨hfirst, hrest⟩ := List.forall_mem_cons.1 h
    rw [choices, List.pairwise_flatMap]
    constructor
    · intro ty _
      refine List.pairwise_map.2 ((ih hrest).imp fun {s t} hst => ?_)
      exact List.cons_lt_cons_iff.2 (.inr ⟨rfl, hst⟩)
    · refine (pairwise_idxOf hfirst).imp fun {s t} hst front hfront back hback => ?_
      obtain ⟨_, -, rfl⟩ := List.mem_map.1 hfront
      obtain ⟨_, -, rfl⟩ := List.mem_map.1 hback
      exact List.cons_lt_cons_iff.2 (.inl hst)

theorem nodup_choices (h : ∀ candidates ∈ lists, candidates.Nodup) : (choices lists).Nodup :=
  (pairwise_choices h).imp fun {s t} (hst : places lists s < places lists t) same => by
    rw [same] at hst
    exact List.lt_irrefl _ hst

/-! ## Signatures -/

theorem signature_concat {types : List ValueType} (h : types ≠ []) (ty : ValueType) :
    signature (types ++ [ty]) = signature types ++ "-" ++ ty.name := by
  induction types with
  | nil => exact absurd rfl h
  | cons first rest ih =>
    cases rest with
    | nil => simp [signature]
    | cons next rest =>
      have ih := ih (List.cons_ne_nil next rest)
      simp only [signature, List.cons_append, List.map_cons, String.intercalate_cons_cons] at ih ⊢
      rw [ih, ← String.append_assoc, ← String.append_assoc]

/-- The first signatures with one input more come from the first signatures without it. -/
theorem extend_signatures (h : lists ≠ []) (candidates : List ValueType) (n : Nat) :
    ((((choices lists).take n).map signature).flatMap fun front =>
        candidates.map fun ty => front ++ "-" ++ ty.name).take n =
      ((choices (lists ++ [candidates])).take n).map signature := by
  have joined : ∀ front ∈ (choices lists).take n, (candidates.map fun ty => signature front ++ "-" ++ ty.name) =
      (candidates.map fun ty => front ++ [ty]).map signature := by
    intro front hfront
    have hlength := (mem_choices.1 (List.mem_of_mem_take hfront)).length_eq
    have hne : front ≠ [] := fun hnil => h (List.length_eq_zero_iff.1 (by rw [← hlength, hnil]; rfl))
    rw [List.map_map]
    exact List.map_congr_left fun ty _ => (signature_concat hne ty).symm
  have whole : (((choices lists).take n).flatMap fun front => candidates.map fun ty => front ++ [ty]).take n =
      ((choices lists).flatMap fun front => candidates.map fun ty => front ++ [ty]).take n := by
    cases candidates with
    | nil =>
      have none (fronts : List (List ValueType)) : fronts.flatMap (fun front =>
          ([] : List ValueType).map fun ty => front ++ [ty]) = [] :=
        List.flatMap_eq_nil_iff.2 fun _ _ => rfl
      rw [none, none]
    | cons ty rest => exact take_flatMap_take (fun _ _ => by simp) (Nat.le_refl n)
  rw [choices_concat, ← whole, List.flatMap_map, List.flatMap_congr joined, ← List.map_flatMap, List.map_take]

/-- The signatures are those of the first choices. -/
theorem signatures_eq (lists : List (List ValueType)) :
    signatures lists = ((choices lists).take maxSignatures).map signature := by
  cases lists with
  | nil => rfl
  | cons first rest =>
    have one : (first.map ValueType.name).take maxSignatures =
        ((choices [first]).take maxSignatures).map signature := by
      have single : choices [first] = first.map fun ty => [ty] := (List.map_eq_flatMap).symm
      rw [single, List.map_take, List.map_map]
      exact congrArg (List.take maxSignatures) (List.map_congr_left fun ty _ => by simp [signature])
    have extended (front : List (List ValueType)) (h : front ≠ []) : rest.foldl
        (fun done candidates =>
          (done.flatMap fun front => candidates.map fun ty => front ++ "-" ++ ty.name).take maxSignatures)
        (((choices front).take maxSignatures).map signature) =
          ((choices (front ++ rest)).take maxSignatures).map signature := by
      induction rest generalizing front with
      | nil => rw [List.foldl_nil, List.append_nil]
      | cons next rest ih =>
        rw [List.foldl_cons, extend_signatures h, ih _ (by simp), List.append_assoc]
        rfl
    rw [signatures, one]
    exact extended [first] (List.cons_ne_nil _ _)

theorem nodup_signatures (h : ∀ candidates ∈ lists, candidates.Nodup) : (signatures lists).Nodup := by
  rw [signatures_eq]
  exact (List.nodup_map_iff fun _ _ => signature_inj.1).2 ((nodup_choices h).sublist (List.take_sublist _ _))

/-! ## Calls -/

/-- An input may have at least one type, and each of its types is given once. -/
theorem candidates_spec (learner : Learner) (input : InputShape) :
    learner.candidates input ≠ [] ∧ (learner.candidates input).Nodup := by
  cases input with
  | known ty =>
    rw [candidates]
    exact ⟨List.cons_ne_nil _ _, List.nodup_singleton ty⟩
  | unknown =>
    rw [candidates]
    exact ⟨List.cons_ne_nil _ _, List.nodup_singleton _⟩
  | pending operation inputs =>
    rw [candidates]
    split
    · exact ⟨List.cons_ne_nil _ _, List.nodup_singleton _⟩
    · next some => exact ⟨fun none => some (List.isEmpty_iff.2 none), Tally.nodup_types _⟩

theorem allCandidates_spec (learner : Learner) (inputs : List InputShape) :
    ∀ candidates ∈ learner.allCandidates inputs, candidates ≠ [] ∧ candidates.Nodup := by
  induction inputs with
  | nil =>
    rw [allCandidates]
    exact fun _ h => nomatch h
  | cons input inputs ih =>
    rw [allCandidates]
    exact List.forall_mem_cons.2 ⟨learner.candidates_spec input, ih⟩

theorem callKeys_eq (learner : Learner) (operation : String) (inputs : List InputShape) :
    learner.callKeys operation inputs =
      ((choices (learner.allCandidates (inputs.take maxInputs))).take maxSignatures).map
        (Learner.key operation) := by
  rw [callKeys, keys, signatures_eq, List.map_map]
  rfl

theorem nodup_callKeys (learner : Learner) (operation : String) (inputs : List InputShape) :
    (learner.callKeys operation inputs).Nodup := by
  have nodup := nodup_choices fun candidates h => (learner.allCandidates_spec (inputs.take maxInputs) candidates h).2
  rw [callKeys_eq]
  exact (List.nodup_map_iff fun _ _ h => (key_inj.1 h).2).2 (nodup.sublist (List.take_sublist _ _))

theorem length_callKeys_le (learner : Learner) (operation : String) (inputs : List InputShape) :
    (learner.callKeys operation inputs).length ≤ maxSignatures := by
  rw [callKeys_eq, List.length_map]
  exact List.length_take_le _ _

/-! ## Lessons -/

/-- A result that is counted under different keys is counted once under each of them. -/
theorem get?_foldl_count {keys : List String} (h : keys.Nodup) (now : Nat) (output : ValueType)
    (learner : Learner) (key : String) :
    Entries.get? (keys.foldl (Learner.count now output) learner).entries key =
      if key ∈ keys then some { counts := (learner.countsAt key).add output 1, updated := now }
      else Entries.get? learner.entries key := by
  induction keys generalizing learner with
  | nil => rw [List.foldl_nil, if_neg List.not_mem_nil]
  | cons first rest ih =>
    obtain ⟨hfirst, hrest⟩ := List.nodup_cons.1 h
    have counted : Entries.get? (learner.count now output first).entries key =
        if first = key then some { counts := (learner.countsAt first).add output 1, updated := now }
        else Entries.get? learner.entries key := by
      rw [count, Entries.get?_insert, countsAt_eq]
    rw [List.foldl_cons, ih hrest]
    by_cases hkey : key ∈ rest
    · have hne : first ≠ key := fun same => hfirst (same ▸ hkey)
      rw [if_pos hkey, if_pos (List.mem_cons_of_mem _ hkey), countsAt, counted, if_neg hne]
      rfl
    · rw [if_neg hkey, counted]
      by_cases same : first = key
      · rw [if_pos same, if_pos (same ▸ List.mem_cons_self), same]
      · rw [if_neg same, if_neg (List.not_mem_cons_of_ne_of_not_mem (Ne.symm same) hkey)]

/-- A lesson is counted once in each entry of the call, and nowhere else. -/
theorem get?_learn (learner : Learner) (now : Nat) (operation : String) (inputs : List InputShape)
    (output : ValueType) (key : String) :
    Entries.get? (learner.learn now operation inputs output).entries key =
      if key ∈ learner.callKeys operation inputs then
        some { counts := (learner.countsAt key).add output 1, updated := now }
      else Entries.get? learner.entries key := by
  rw [learn_eq]
  exact get?_foldl_count (learner.nodup_callKeys operation inputs) now output learner key

/-! ## Predictions -/

/-- What stands under one of the keys is added once. -/
theorem sum_map_ite {keys : List String} (h : keys.Nodup) (k : String) (n : UInt64) :
    (keys.map fun key => if key = k then n else 0).sum = if k ∈ keys then n else 0 := by
  rw [List.sum_map_ite_eq keys (fun _ => n) (fun _ => 0) k, h.count]
  by_cases hk : k ∈ keys
  · rw [if_pos hk, if_pos hk, sub_zero, one_nsmul]
    simp
  · rw [if_neg hk, if_neg hk, zero_nsmul]
    simp

/-- To go through the keys is to go through the entries that have one of the keys. -/
theorem sum_countsAt {keys : List String} (hkeys : keys.Nodup) (h : (Entries.keys learner.entries).Nodup)
    (ty : ValueType) :
    (keys.map fun key => (learner.countsAt key).count ty).sum =
      ((learner.entries.filter fun part => part.1 ∈ keys).map fun part => part.2.counts.count ty).sum := by
  obtain ⟨expiry, entries⟩ := learner
  induction entries with
  | nil =>
    simp [countsAt, Entries.get?, Counts.count]
  | cons part rest ih =>
    obtain ⟨k, entry⟩ := part
    obtain ⟨hfirst, hrest⟩ := List.nodup_cons.1 h
    have split (key : String) : (countsAt ⟨expiry, (k, entry) :: rest⟩ key).count ty =
        (if key = k then entry.counts.count ty else 0) + (countsAt ⟨expiry, rest⟩ key).count ty := by
      have none : Entries.get? rest k = none := by
        rw [← Option.not_isSome_iff_eq_none, ← Entries.mem_keys_iff]
        exact hfirst
      unfold countsAt
      rw [Entries.get?]
      by_cases same : key = k
      · rw [if_pos same.symm, if_pos same, same, none]
        exact (add_zero _).symm
      · rw [if_neg (Ne.symm same), if_neg same]
        exact (zero_add _).symm
    simp only [split, List.sum_map_add, sum_map_ite hkeys, ih hrest, List.filter_cons, decide_eq_true_eq]
    by_cases hk : k ∈ keys
    · simp [hk]
    · simp [hk]

/-- A prediction adds up the entries of the call, each of them once. -/
theorem Sound.count_predict (h : learner.Sound) (operation : String) (inputs : List InputShape) (ty : ValueType) :
    (learner.predict operation inputs).count ty =
      ((learner.entries.filter fun part => part.1 ∈ learner.callKeys operation inputs).map fun part =>
        part.2.counts.count ty).sum := by
  rw [predict, h.count_lookup]
  exact sum_countsAt (learner.nodup_callKeys operation inputs) h.keys ty

/-- **Signatures are the first choices.** The signatures for some lists of types are the first 64 choices of one
type out of each list, all of them if there are fewer, with hyphens between the names. The choices are those that
take each type out of its list, and if no list repeats a type, they rise in lexicographic order and have different
signatures.

What an input of a call may be is such a list, and it is not empty. So the keys of a call are at most 64, and
different. A lesson adds one to the count of its result in the entry of each key, and leaves all other entries
alone. A prediction is the sum over the entries of the call, each of which is added once. -/
theorem signatures_are_first_choices :
    (∀ lists : List (List ValueType),
      signatures lists = ((choices lists).take 64).map signature ∧
        (∀ choice, choice ∈ choices lists ↔ List.Forall₂ (· ∈ ·) choice lists) ∧
        ((∀ candidates ∈ lists, candidates.Nodup) →
          (choices lists).Pairwise (fun s t => places lists s < places lists t) ∧ (signatures lists).Nodup)) ∧
    ∀ (learner : Learner) (operation : String) (inputs : List InputShape),
      let lists := learner.allCandidates (inputs.take 10)
      let keys := learner.callKeys operation inputs
      (∀ candidates ∈ lists, candidates ≠ [] ∧ candidates.Nodup) ∧
        keys = ((choices lists).take 64).map (Learner.key operation) ∧ keys.Nodup ∧ keys.length ≤ 64 ∧
        (∀ now output key, Entries.get? (learner.learn now operation inputs output).entries key =
          if key ∈ keys then some { counts := (learner.countsAt key).add output 1, updated := now }
          else Entries.get? learner.entries key) ∧
        (learner.Sound → ∀ ty, (learner.predict operation inputs).count ty =
          ((learner.entries.filter fun part => part.1 ∈ keys).map fun part => part.2.counts.count ty).sum) := by
  refine ⟨fun lists => ⟨signatures_eq lists, fun _ => mem_choices, fun h => ?_⟩, fun learner operation inputs => ?_⟩
  · exact ⟨pairwise_choices h, nodup_signatures h⟩
  · exact ⟨learner.allCandidates_spec _, learner.callKeys_eq operation inputs,
      learner.nodup_callKeys operation inputs, learner.length_callKeys_le operation inputs,
      fun now output key => learner.get?_learn now operation inputs output key,
      fun h => h.count_predict operation inputs⟩

/-- Seven inputs that may each be of two types have 128 choices, of which 64 are kept. A learner that has seen
one result for a call predicts it once. -/
theorem signatures_of_seven_inputs :
    let lists : List (List ValueType) := List.replicate 7 [.integer, .decimal]
    let learner : Learner := ({} : Learner).learn 5 "f" [.known .integer] .string
    (∀ candidates ∈ lists, candidates.Nodup) ∧ (signatures lists).length = 64 ∧ (signatures lists).Nodup ∧
      learner.Sound ∧ (learner.predict "f" [.known .integer]).count .string = 1 := by
  intro lists learner
  obtain ⟨expand, count⟩ := signatures_are_first_choices
  obtain ⟨first, -, distinct⟩ := expand lists
  obtain ⟨-, -, -, -, -, predicted⟩ := count learner "f" [.known .integer]
  have once : ∀ candidates ∈ lists, candidates.Nodup := by decide
  have hsound : learner.Sound := (Built.learn (.new none) (by decide) ..).sound
  refine ⟨once, ?_, (distinct once).2, hsound, ?_⟩
  · rw [first, List.length_map]
    decide +kernel
  · rw [predicted hsound]
    decide +kernel

end Learner

end Reactor
