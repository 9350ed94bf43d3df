import Mathlib.Data.List.Infix
import Mathlib.Logic.Function.Basic
import Reactor.Proofs.Network.Plan

/-!
# Chains and the recursion limit

A chain is a list of lambdas, each of which computes something of what the next one in the list gives.
So a member stands in front of the members that its own computation takes.

* `Chain.real` : what a member gives if nothing keeps it from being computed.
* `Chain.outcome` : what a member gives, and what the members keep from then on, if a thread may open so
  many levels more. A member for which no level is left is refused.

A kept result is as good as a computed one as long as it is the real one (`Chain.Sound`). If the runtime fails
fast, a refusal is a failure and nobody keeps it, so all that is kept stays real
(`Chain.sound_outcome_of_failFast`). If it does not, a refusal is a value like any other, and the member
that is refused keeps it (`Chain.outcome_refused`).
-/

namespace Reactor

/-- A member of a chain, and what it computes of what the member after it gives. -/
structure Link where
  id : LambdaId
  source : Segment
  compute : Value → Except Error Value

/-- The results that lambdas keep. -/
abbrev Kept := LambdaId → Option Value

namespace Chain

/-- What the first member gives if the whole chain is computed. -/
def real (failFast : Bool) : List Link → Except Error Value
  | [] => .ok .void
  | link :: rest => answerOf failFast link.source ((real failFast rest).bind link.compute)

/-- What a member gives when its thread may not open another level. -/
def refusal (failFast : Bool) (limit : Nat) (link : Link) : Except Error Value :=
  answerOf failFast link.source (.error (.excessiveRecursion (limit + 1) limit))

/-- A member keeps its result, unless that is a failure. -/
def keep (kept : Kept) (id : LambdaId) : Except Error Value → Kept
  | .ok v => Function.update kept id (some v)
  | .error _ => kept

/-- A result, and what is kept with it. -/
def given (kept : Kept) (id : LambdaId) (r : Except Error Value) : Except Error Value × Kept :=
  (r, keep kept id r)

/-- What the first member gives to a thread that may open some levels more, and what the members keep
from then on. -/
def outcome (failFast : Bool) (limit : Nat) : List Link → Nat → Kept → Except Error Value × Kept
  | [], _, kept => (.ok .void, kept)
  | link :: rest, room, kept =>
    match kept link.id, room with
    | some v, _ => (.ok v, kept)
    | none, 0 => given kept link.id (refusal failFast limit link)
    | none, room + 1 =>
      let below := outcome failFast limit rest room kept
      given below.2 link.id (answerOf failFast link.source (below.1.bind link.compute))

/-- No lambda is a member twice. -/
def Distinct (chain : List Link) : Prop :=
  (chain.map Link.id).Nodup

instance (chain : List Link) : Decidable (Distinct chain) :=
  inferInstanceAs (Decidable (chain.map Link.id).Nodup)

/-- Whatever a member keeps is its real result. -/
def Sound (failFast : Bool) (chain : List Link) (kept : Kept) : Prop :=
  ∀ {link rest v}, link :: rest <:+ chain → kept link.id = some v → real failFast (link :: rest) = .ok v

variable {failFast : Bool} {limit room : Nat} {link : Link} {rest chain : List Link} {kept : Kept}
  {id : LambdaId} {r : Except Error Value}

theorem keep_self {v : Value} : keep kept id (.ok v) id = some v :=
  Function.update_self ..

theorem keep_of_ne {other : LambdaId} (h : other ≠ id) : keep kept id r other = kept other := by
  cases r with
  | ok v => exact Function.update_of_ne h ..
  | error e => rfl

theorem given_of_ne {other : LambdaId} (h : other ≠ id) : (given kept id r).2 other = kept other :=
  keep_of_ne h

/-! ## One force -/

theorem outcome_kept {v : Value} (h : kept link.id = some v) :
    outcome failFast limit (link :: rest) room kept = (.ok v, kept) := by
  unfold outcome
  rw [h]

theorem outcome_refusal (h : kept link.id = none) :
    outcome failFast limit (link :: rest) 0 kept =
      given kept link.id (refusal failFast limit link) := by
  unfold outcome
  rw [h]

theorem outcome_computed (h : kept link.id = none) :
    outcome failFast limit (link :: rest) (room + 1) kept =
      given (outcome failFast limit rest room kept).2 link.id (answerOf failFast link.source
        ((outcome failFast limit rest room kept).1.bind link.compute)) := by
  conv_lhs => unfold outcome
  rw [h]

/-- Only members come to keep results. -/
theorem outcome_of_not_mem (h : id ∉ chain.map Link.id) :
    (outcome failFast limit chain room kept).2 id = kept id := by
  induction chain generalizing room with
  | nil => rfl
  | cons link rest ih =>
    rw [List.map_cons, List.mem_cons, not_or] at h
    cases hkept : kept link.id with
    | some v => rw [outcome_kept hkept]
    | none =>
      cases room with
      | zero => rw [outcome_refusal hkept, given_of_ne h.1]
      | succ room => rw [outcome_computed hkept, given_of_ne h.1, ih h.2]

/-- To force a member once more gives the same and changes nothing. -/
theorem outcome_again (hd : Distinct chain) :
    outcome failFast limit chain room (outcome failFast limit chain room kept).2 =
      outcome failFast limit chain room kept := by
  induction chain generalizing room with
  | nil => rfl
  | cons link rest ih =>
    obtain ⟨hnew, hrest⟩ := List.nodup_cons.1 hd
    -- a result that has been kept is given again, a failure comes about again
    have again {kept : Kept} {r : Except Error Value} {room : Nat}
        (hr : outcome failFast limit (link :: rest) room kept = given kept link.id r) :
        outcome failFast limit (link :: rest) room (given kept link.id r).2 =
          given kept link.id r := by
      cases r with
      | ok v => exact outcome_kept keep_self
      | error e => exact hr
    cases hkept : kept link.id with
    | some v => rw [outcome_kept hkept, outcome_kept hkept]
    | none =>
      cases room with
      | zero =>
        rw [outcome_refusal hkept]
        exact again (outcome_refusal hkept)
      | succ room =>
        have hnone : (outcome failFast limit rest room kept).2 link.id = none := by
          rw [outcome_of_not_mem hnew, hkept]
        rw [outcome_computed hkept]
        refine again ?_
        rw [outcome_computed hnone, ih hrest]

/-! ## Real results -/

theorem Sound.tail (h : Sound failFast (link :: rest) kept) : Sound failFast rest kept :=
  fun hsuffix => h (hsuffix.trans (List.suffix_cons ..))

/-- A member that keeps a real result leaves all that is kept real. -/
theorem Sound.keep (hd : Distinct (link :: rest)) (h : Sound failFast rest kept)
    (hr : ∀ v, r = .ok v → real failFast (link :: rest) = .ok v)
    (hkept : kept link.id = none) : Sound failFast (link :: rest) (keep kept link.id r) := by
  obtain ⟨hnew, -⟩ := List.nodup_cons.1 hd
  intro other below v hsuffix hv
  rcases List.suffix_cons_iff.1 hsuffix with heq | hsuffix
  · cases heq
    cases r with
    | ok x =>
      rw [keep_self] at hv
      cases hv
      exact hr v rfl
    | error e =>
      rw [Chain.keep, hkept] at hv
      cases hv
  · have hne : other.id ≠ link.id := by
      intro heq
      have hmem : other.id ∈ rest.map Link.id :=
        List.mem_map_of_mem (hsuffix.subset List.mem_cons_self)
      exact hnew (heq ▸ hmem)
    rw [keep_of_ne hne] at hv
    exact h hsuffix hv

/-- If there is a level for each member, the first one gives its real result, and so does every member
from then on. -/
theorem outcome_real (hd : Distinct chain) (h : Sound failFast chain kept)
    (hroom : chain.length ≤ room) :
    (outcome failFast limit chain room kept).1 = real failFast chain ∧
      Sound failFast chain (outcome failFast limit chain room kept).2 := by
  induction chain generalizing room with
  | nil => exact ⟨rfl, h⟩
  | cons link rest ih =>
    cases hkept : kept link.id with
    | some v =>
      rw [outcome_kept hkept]
      exact ⟨(h (List.suffix_refl _) hkept).symm, h⟩
    | none =>
      obtain ⟨room, rfl⟩ : ∃ r, room = r + 1 := ⟨room - 1, by simp at hroom; omega⟩
      obtain ⟨hnew, hrest⟩ := List.nodup_cons.1 hd
      obtain ⟨below, sound⟩ := ih hrest h.tail (Nat.le_of_succ_le_succ hroom)
      rw [outcome_computed hkept, below]
      refine ⟨rfl, sound.keep hd (fun v hv => hv) ?_⟩
      rw [outcome_of_not_mem hnew, hkept]

/-- A refusal is a failure if the runtime fails fast. -/
theorem refusal_of_failFast (limit : Nat) (link : Link) : ∃ e, refusal true limit link = .error e :=
  ⟨_, rfl⟩

/-- If the runtime fails fast, a computation fails where what it takes fails. -/
theorem answerOf_of_failFast {source : Segment} {v : Value} (h : answerOf true source r = .ok v) :
    r = .ok v := by
  cases r with
  | ok x => exact h
  | error e =>
    unfold answerOf unhandled at h
    simp at h

/-- If the runtime fails fast, no force spoils what is kept, be it refused or not. -/
theorem sound_outcome_of_failFast (hd : Distinct chain) (h : Sound true chain kept) :
    (∀ v, (outcome true limit chain room kept).1 = .ok v → real true chain = .ok v) ∧
      Sound true chain (outcome true limit chain room kept).2 := by
  induction chain generalizing room with
  | nil => exact ⟨fun _ hv => hv, h⟩
  | cons link rest ih =>
    cases hkept : kept link.id with
    | some v =>
      rw [outcome_kept hkept]
      exact ⟨fun _ hv => by cases hv; exact h (List.suffix_refl _) hkept, h⟩
    | none =>
      obtain ⟨hnew, hrest⟩ := List.nodup_cons.1 hd
      cases room with
      | zero =>
        obtain ⟨e, he⟩ := refusal_of_failFast limit link
        rw [outcome_refusal hkept, he]
        exact ⟨nofun, h⟩
      | succ room =>
        obtain ⟨below, sound⟩ := @ih room hrest h.tail
        have result (v : Value) (hv : answerOf true link.source
            ((outcome true limit rest room kept).1.bind link.compute) = .ok v) :
            real true (link :: rest) = .ok v := by
          have hcompute := answerOf_of_failFast hv
          cases hbelow : (outcome true limit rest room kept).1 with
          | error e =>
            rw [hbelow] at hcompute
            cases hcompute
          | ok x =>
            rw [hbelow] at hv
            rw [real, below x hbelow]
            exact hv
        rw [outcome_computed hkept]
        refine ⟨result, sound.keep hd result ?_⟩
        rw [outcome_of_not_mem hnew, hkept]

theorem Sound.of_suffix {member : List Link} (hs : member <:+ chain) (h : Sound failFast chain kept) :
    Sound failFast member kept :=
  fun hsuffix => h (hsuffix.trans hs)

/-- A force of some member leaves what the chain keeps real, unless a refusal is kept. -/
theorem Sound.forced {member : List Link} (hd : Distinct chain) (hs : member <:+ chain)
    (h : Sound failFast chain kept) (hok : failFast = true ∨ member.length ≤ room) :
    Sound failFast chain (outcome failFast limit member room kept).2 := by
  have hmember : Distinct member := hd.sublist (hs.sublist.map Link.id)
  have below : Sound failFast member (outcome failFast limit member room kept).2 := by
    rcases hok with rfl | hroom
    · exact (sound_outcome_of_failFast hmember (h.of_suffix hs)).2
    · exact (outcome_real hmember (h.of_suffix hs) hroom).2
  intro link rest v hsuffix hv
  rcases List.suffix_or_suffix_of_suffix hsuffix hs with hin | hbeyond
  · exact below hin hv
  · rcases List.suffix_cons_iff.1 hbeyond with rfl | hbeyond
    · exact below (List.suffix_refl _) hv
    · -- the member comes after this one, which keeps what it kept
      have hnew : link.id ∉ member.map Link.id := fun hmem =>
        (List.nodup_cons.1 (hd.sublist (hsuffix.sublist.map Link.id))).1
          ((hbeyond.sublist.map Link.id).subset hmem)
      rw [outcome_of_not_mem hnew] at hv
      exact h hsuffix hv

/-! ## Refusals that are kept -/

/-- A refusal is a value if the runtime does not fail fast. -/
theorem refusal_eq (limit : Nat) (link : Link) : refusal false limit link =
    .ok (.failure ((Error.excessiveRecursion (limit + 1) limit).addSource link.source)) :=
  rfl

/-- If nothing is kept and the runtime does not fail fast, the member for which no level is left keeps the
refusal. -/
theorem outcome_refused {above : List Link} (hd : Distinct (above ++ link :: rest))
    (hnone : ∀ l ∈ above ++ [link], kept l.id = none) :
    (outcome false limit (above ++ link :: rest) above.length kept).2 link.id =
      some (.failure ((Error.excessiveRecursion (limit + 1) limit).addSource link.source)) := by
  induction above with
  | nil =>
    rw [List.nil_append, List.length_nil, outcome_refusal (hnone link (by simp)), refusal_eq]
    exact keep_self
  | cons first above ih =>
    rw [List.cons_append] at hd ⊢
    obtain ⟨hnew, hrest⟩ := List.nodup_cons.1 hd
    have hne : link.id ≠ first.id := by
      intro heq
      exact hnew (heq ▸ List.mem_map_of_mem (by simp))
    rw [List.length_cons, outcome_computed (hnone first (by simp)), given_of_ne hne]
    exact ih hrest fun l hl => hnone l (List.mem_cons_of_mem _ hl)

end Chain

end Reactor
