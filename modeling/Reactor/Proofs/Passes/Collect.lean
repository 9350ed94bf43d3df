import Mathlib.Algebra.Order.BigOperators.Group.List
import Mathlib.Algebra.Order.Group.Nat
import Reactor.Engine.Dependency

/-!
# The lambdas that a pass collects

A pass begins by collecting the lambdas that it affects. It takes the first pending lambda, passes it over
if the thread is notifying it already, and otherwise marks it, drops the registrations of lambdas that no
longer live, and appends those that live and depend on it. `World.Collects` is this loop as a relation, which
holds when it has come to an end with nothing pending.

The loop ends on every graph, since each lambda that is visited is marked and a marked one is passed over
(`collects_enter`). What it has collected then are the lambdas that can be reached from the roots without
passing through one that the thread was notifying (`Collects.mem_iff`), each of them once
(`Collects.nodup`), and all that has changed is that they have been visited (`Collects.mapped`). They come in
the order in which a breadth-first search meets them for the first time (`Collects.eq_firsts`).
-/

namespace Reactor

/-- The elements of a list that have not been seen, each where it is met first. -/
def firsts : List LambdaId → List LambdaId → List LambdaId
  | _, [] => []
  | seen, k :: ks => if k ∈ seen then firsts seen ks else k :: firsts (k :: seen) ks

theorem mem_firsts_iff {seen ks : List LambdaId} {k : LambdaId} :
    k ∈ firsts seen ks ↔ k ∉ seen ∧ k ∈ ks := by
  induction ks generalizing seen with
  | nil => simp [firsts]
  | cons first rest ih =>
    rw [firsts]
    split
    · rename_i h
      rw [ih, List.mem_cons]
      refine and_congr_right fun hk => ⟨.inr, fun h' => h'.resolve_left ?_⟩
      rintro rfl
      exact hk h
    · rename_i h
      rw [List.mem_cons, ih, List.mem_cons, List.mem_cons, not_or]
      by_cases hk : k = first
      · subst hk
        simp [h]
      · simp [hk]

theorem nodup_firsts (seen ks : List LambdaId) : (firsts seen ks).Nodup := by
  induction ks generalizing seen with
  | nil => exact List.nodup_nil
  | cons first rest ih =>
    rw [firsts]
    split
    · exact ih seen
    · refine List.nodup_cons.2 ⟨fun h => ?_, ih _⟩
      exact (mem_firsts_iff.1 h).1 List.mem_cons_self

/-- A thread is notifying the lambda, and the registrations of lambdas that no longer live are gone. -/
def LambdaRecord.visited (live : Holders) (thread : ThreadId) (record : LambdaRecord) : LambdaRecord :=
  { record with
    notifying := thread :: record.notifying
    listeners := record.listeners.filter fun entry => World.isCurrent live entry.2 }

namespace World

/-- Some lambdas of the state have changed in a certain way, and nothing else has. -/
structure Mapped (f : LambdaRecord → LambdaRecord) (ks : List LambdaId) (w v : World) : Prop where
  rest : v = { w with lambdas := v.lambdas }
  size : v.lambdas.size = w.lambdas.size
  record (k : LambdaId) : v.lambdaAt k = if k ∈ ks then f (w.lambdaAt k) else w.lambdaAt k

/-- A pass visits a lambda. -/
def visit (w : World) (live : Holders) (thread : ThreadId) (k : LambdaId) : World :=
  w.modifyLambda k (.visited live thread)

/-- The lambdas that live among those that depend on one. -/
def liveDependents (w : World) (live : Holders) (k : LambdaId) : List LambdaId :=
  (w.dependents k).filter live.hasLambda

/-- From some pending lambdas on, the loop ends having collected some lambdas. -/
inductive Collects (live : Holders) (thread : ThreadId) :
    World → List LambdaId → List LambdaId → World → Prop
  | done {w : World} : Collects live thread w [] [] w
  | skip {w v : World} {k : LambdaId} {pending affected : List LambdaId}
    (h : w.isNotifying thread k = true) (rest : Collects live thread w pending affected v) :
    Collects live thread w (k :: pending) affected v
  | visit {w v : World} {k : LambdaId} {pending affected : List LambdaId}
    (h : w.isNotifying thread k = false)
    (rest : Collects live thread (w.visit live thread k) (pending ++ w.liveDependents live k) affected v) :
    Collects live thread w (k :: pending) (k :: affected) v

/-- A lambda can be reached from some others along registrations of lambdas that live, without passing
through one that the thread is notifying. -/
inductive Affected (w : World) (live : Holders) (thread : ThreadId) (roots : List LambdaId) :
    LambdaId → Prop
  | root {k : LambdaId} (h : k ∈ roots) (idle : w.isNotifying thread k = false) :
    Affected w live thread roots k
  | dependent {k id : LambdaId} (h : Affected w live thread roots k)
    (hid : id ∈ w.liveDependents live k) (idle : w.isNotifying thread id = false) :
    Affected w live thread roots id

/-- All lambdas that can be reached have a record. -/
def Known (w : World) (live : Holders) (thread : ThreadId) (roots : List LambdaId) : Prop :=
  ∀ k, w.Affected live thread roots k → k.index < w.lambdas.size

variable {w v : World} {live : Holders} {thread : ThreadId} {k j : LambdaId}
  {roots pending affected : List LambdaId}

/-- A lambda without a record is as all of them. -/
theorem lambdaAt_of_size_le (h : w.lambdas.size ≤ k.index) : w.lambdaAt k = default := by
  simp [lambdaAt, Array.getD, Nat.not_lt.2 h]

namespace Mapped

variable {f : LambdaRecord → LambdaRecord}

theorem refl (f : LambdaRecord → LambdaRecord) (w : World) : w.Mapped f [] w :=
  ⟨rfl, rfl, fun _ => rfl⟩

/-- The same change may be described in another way. -/
theorem congr {g : LambdaRecord → LambdaRecord} {ks : List LambdaId} (h : w.Mapped f ks v)
    (hfg : ∀ k, f (w.lambdaAt k) = g (w.lambdaAt k)) : w.Mapped g ks v :=
  ⟨h.rest, h.size, fun k => by rw [h.record, hfg]⟩

theorem cons {ks : List LambdaId} (hk : k.index < w.lambdas.size) (hnew : k ∉ ks)
    (h : (w.modifyLambda k f).Mapped f ks v) : w.Mapped f (k :: ks) v where
  rest := h.rest
  size := h.size.trans (Array.size_modify ..)
  record j := by
    rw [h.record j, lambdaAt_modifyLambda]
    by_cases hj : k = j
    · subst hj
      rw [if_neg hnew, if_pos ⟨rfl, hk⟩, if_pos List.mem_cons_self]
    · have same : j ∈ k :: ks ↔ j ∈ ks := by
        rw [List.mem_cons]
        exact or_iff_right fun h => hj h.symm
      have other : ¬(k = j ∧ j.index < w.lambdas.size) := fun h => hj h.1
      rw [if_neg other]
      simp only [same]

/-- Different lambdas change one after another. -/
theorem foldl {ks : List LambdaId} (hnodup : ks.Nodup) (hks : ∀ k ∈ ks, k.index < w.lambdas.size) :
    w.Mapped f ks (ks.foldl (fun w k => w.modifyLambda k f) w) := by
  induction ks generalizing w with
  | nil => exact .refl f w
  | cons k ks ih =>
    obtain ⟨hnew, hnodup⟩ := List.nodup_cons.1 hnodup
    refine cons (hks k List.mem_cons_self) hnew (ih hnodup fun j hj => ?_)
    exact Nat.lt_of_lt_of_eq (hks j (List.mem_cons_of_mem k hj)) (Array.size_modify ..).symm

end Mapped

/-! ## A lambda is visited -/

theorem modifyLambda_modifyLambda (w : World) (k : LambdaId) (f g : LambdaRecord → LambdaRecord) :
    (w.modifyLambda k f).modifyLambda k g = w.modifyLambda k fun record => g (f record) := by
  have same : (w.lambdas.modify k.index f).modify k.index g =
      w.lambdas.modify k.index fun record => g (f record) := by
    refine Array.ext (by simp only [Array.size_modify]) fun i hi hi' => ?_
    simp only [Array.getElem_modify]
    split <;> rfl
  unfold modifyLambda
  rw [same]

theorem visit_eq (w : World) (live : Holders) (thread : ThreadId) (k : LambdaId) :
    (w.enterNotify thread k).pruneListeners live k = w.visit live thread k :=
  modifyLambda_modifyLambda w k _ _

@[simp] theorem size_visit : (w.visit live thread k).lambdas.size = w.lambdas.size :=
  Array.size_modify ..

theorem lambdaAt_visit (w : World) (live : Holders) (thread : ThreadId) (k j : LambdaId) :
    (w.visit live thread k).lambdaAt j =
      if k = j ∧ j.index < w.lambdas.size then (w.lambdaAt j).visited live thread else w.lambdaAt j :=
  lambdaAt_modifyLambda ..

theorem isNotifying_visit_of_ne (h : j ≠ k) :
    (w.visit live thread k).isNotifying thread j = w.isNotifying thread j := by
  unfold isNotifying
  rw [lambdaAt_visit, if_neg fun found => h found.1.symm]

theorem isNotifying_visit (hk : k.index < w.lambdas.size) :
    (w.visit live thread k).isNotifying thread j = true ↔ j = k ∨ w.isNotifying thread j = true := by
  unfold isNotifying
  rw [lambdaAt_visit]
  by_cases hj : k = j
  · subst hj
    simp [hk, LambdaRecord.visited]
  · rw [if_neg fun h => hj h.1]
    exact (or_iff_right fun h => hj h.symm).symm

theorem not_isNotifying_visit (hk : k.index < w.lambdas.size) :
    (w.visit live thread k).isNotifying thread j = false ↔ j ≠ k ∧ w.isNotifying thread j = false := by
  simp only [← Bool.not_eq_true, isNotifying_visit hk, not_or, ne_eq]

/-- The dependents that are left when registrations have been dropped are those that live. -/
theorem dependents_visit : (w.visit live thread k).dependents k = w.liveDependents live k := by
  unfold liveDependents dependents
  rw [lambdaAt_visit]
  split
  · rw [LambdaRecord.visited, List.filterMap_filter, List.filter_filterMap]
    refine List.filterMap_congr fun entry _ => ?_
    obtain ⟨key, listener⟩ := entry
    cases listener with
    | dependent id => cases hid : live.hasLambda id <;> simp [isCurrent, Option.filter, hid]
    | callback callback => rfl
  · rename_i missing
    rw [lambdaAt_of_size_le (Nat.le_of_not_lt fun h => missing ⟨rfl, h⟩)]
    rfl

/-- A visit drops no registration of a lambda that lives. -/
theorem liveDependents_visit : (w.visit live thread k).liveDependents live j = w.liveDependents live j := by
  by_cases hj : j = k
  · subst hj
    rw [liveDependents, dependents_visit, liveDependents, List.filter_filter]
    simp
  · unfold liveDependents dependents
    rw [lambdaAt_visit, if_neg fun h => hj h.1.symm]

/-! ## What is affected -/

namespace Affected

theorem idle (h : w.Affected live thread roots k) : w.isNotifying thread k = false := by
  cases h with
  | root _ idle => exact idle
  | dependent _ _ idle => exact idle

theorem not_nil : ¬ w.Affected live thread [] k := by
  intro h
  induction h with
  | root h _ => cases h
  | dependent _ _ _ ih => exact ih

/-- A pending lambda that the thread is notifying does not matter. -/
theorem skip_iff (h : w.isNotifying thread k = true) :
    w.Affected live thread (k :: pending) j ↔ w.Affected live thread pending j := by
  constructor
  · intro hj
    induction hj with
    | root hmem idle =>
      rcases List.mem_cons.1 hmem with rfl | hmem
      · rw [h] at idle
        cases idle
      · exact .root hmem idle
    | dependent _ hid idle ih => exact .dependent ih hid idle
  · intro hj
    induction hj with
    | root hmem idle => exact .root (List.mem_cons_of_mem _ hmem) idle
    | dependent _ hid idle ih => exact .dependent ih hid idle

/-- When a pending lambda has been visited its dependents are pending in its place. -/
theorem visit_iff (h : w.isNotifying thread k = false) (hk : k.index < w.lambdas.size) :
    w.Affected live thread (k :: pending) j ↔
      j = k ∨ (w.visit live thread k).Affected live thread (pending ++ w.liveDependents live k) j := by
  constructor
  · intro hj
    induction hj with
    | @root j hmem idle =>
      by_cases hjk : j = k
      · exact .inl hjk
      · have hpending := (List.mem_cons.1 hmem).resolve_left hjk
        exact .inr (.root (List.mem_append_left _ hpending) ((not_isNotifying_visit hk).2 ⟨hjk, idle⟩))
    | @dependent i j _ hid idle ih =>
      by_cases hjk : j = k
      · exact .inl hjk
      · have idle' : (w.visit live thread k).isNotifying thread j = false :=
          (not_isNotifying_visit hk).2 ⟨hjk, idle⟩
        rcases ih with rfl | ih
        · exact .inr (.root (List.mem_append_right _ hid) idle')
        · exact .inr (.dependent ih (by rwa [liveDependents_visit]) idle')
  · rintro (rfl | hj)
    · exact .root List.mem_cons_self h
    · induction hj with
      | root hmem idle =>
        have idle' := ((not_isNotifying_visit hk).1 idle).2
        rcases List.mem_append.1 hmem with hmem | hmem
        · exact .root (List.mem_cons_of_mem _ hmem) idle'
        · exact .dependent (.root List.mem_cons_self h) hmem idle'
      | dependent _ hid idle ih =>
        rw [liveDependents_visit] at hid
        exact .dependent ih hid ((not_isNotifying_visit hk).1 idle).2

end Affected

namespace Known

theorem head (h : w.Known live thread (k :: pending)) (hidle : w.isNotifying thread k = false) :
    k.index < w.lambdas.size :=
  h k (.root List.mem_cons_self hidle)

theorem skip (h : w.Known live thread (k :: pending)) (hseen : w.isNotifying thread k = true) :
    w.Known live thread pending :=
  fun j hj => h j ((Affected.skip_iff hseen).2 hj)

theorem visit (h : w.Known live thread (k :: pending)) (hidle : w.isNotifying thread k = false) :
    (w.visit live thread k).Known live thread (pending ++ w.liveDependents live k) := by
  intro j hj
  rw [size_visit]
  exact h j ((Affected.visit_iff hidle (h.head hidle)).2 (.inr hj))

end Known

/-! ## The loop ends -/

/-- The number of registrations with some lambdas. -/
def registrations (w : World) (ks : List LambdaId) : Nat :=
  (ks.flatMap fun k => (w.lambdaAt k).listeners).length

theorem length_dependents_le (w : World) (k : LambdaId) :
    (w.dependents k).length ≤ (w.lambdaAt k).listeners.length :=
  List.length_filterMap_le ..

theorem foldl_length {α β : Type} (f : α → List β) (items : List α) (n : Nat) :
    items.foldl (fun total a => total + (f a).length) n = n + (items.flatMap f).length := by
  induction items generalizing n with
  | nil => rfl
  | cons a items ih => rw [List.foldl_cons, ih, List.flatMap_cons, List.length_append, Nat.add_assoc]

theorem registrations_all (w : World) :
    w.registrations ((List.range w.lambdas.size).map LambdaId.mk) = w.listenerTotal := by
  unfold registrations listenerTotal
  have all : (List.range w.lambdas.size).map (fun i => w.lambdaAt ⟨i⟩) = w.lambdas.toList := by
    refine List.ext_getElem (by simp) fun i hi hi' => ?_
    simp only [List.length_map, List.length_range] at hi
    simp [lambdaAt, Array.getD, hi]
  rw [← Array.foldl_toList, foldl_length, Nat.zero_add, ← all, List.flatMap_map, List.flatMap_map]

/-- A visit leaves so many registrations of others less. -/
theorem registrations_visit_le (w : World) (live : Holders) (thread : ThreadId) (k : LambdaId)
    (ks : List LambdaId) : (w.visit live thread k).registrations ks ≤ w.registrations ks := by
  unfold registrations
  rw [List.length_flatMap, List.length_flatMap]
  refine List.sum_le_sum fun j _ => ?_
  rw [lambdaAt_visit]
  split
  · exact List.length_filter_le ..
  · exact Nat.le_refl _

/-- Without a record there is nothing to visit. -/
theorem visit_of_size_le (h : w.lambdas.size ≤ k.index) :
    w.visit live thread k = w ∧ w.liveDependents live k = [] := by
  constructor
  · unfold visit modifyLambda
    have same : w.lambdas.modify k.index (.visited live thread) = w.lambdas := by
      refine Array.ext (Array.size_modify ..) fun i hi hi' => ?_
      rw [Array.getElem_modify, if_neg (by omega)]
    rw [same]
  · unfold liveDependents dependents
    rw [lambdaAt_of_size_le h]
    rfl

/-- With steps for all that is pending, and for all registrations with lambdas that may be visited yet, the
loop comes to its end. -/
theorem collects_discover {steps : Nat} {unseen : List LambdaId}
    (hunseen : ∀ k : LambdaId, k.index < w.lambdas.size → w.isNotifying thread k = false → k ∈ unseen)
    (hsteps : pending.length + w.registrations unseen < steps) :
    w.Collects live thread pending (discover live thread steps w pending).1
      (discover live thread steps w pending).2 := by
  induction steps generalizing w pending unseen with
  | zero => exact absurd hsteps (Nat.not_lt_zero _)
  | succ steps ih =>
    cases pending with
    | nil => exact .done
    | cons k pending =>
      rw [List.length_cons] at hsteps
      rw [discover, visit_eq]
      cases hseen : w.isNotifying thread k with
      | true =>
        rw [if_pos rfl]
        exact .skip hseen (ih hunseen (by omega))
      | false =>
        rw [if_neg Bool.false_ne_true]
        dsimp only
        rw [dependents_visit]
        by_cases hk : k.index < w.lambdas.size
        · have unseen' (j : LambdaId) (hj : j.index < (w.visit live thread k).lambdas.size)
              (hidle : (w.visit live thread k).isNotifying thread j = false) : j ∈ unseen.erase k := by
            rw [size_visit] at hj
            obtain ⟨hjk, hidle⟩ := (not_isNotifying_visit hk).1 hidle
            exact (List.mem_erase_of_ne hjk).2 (hunseen j hj hidle)
          refine .visit hseen (ih unseen' ?_)
          have remaining : w.registrations (unseen.erase k) + (w.lambdaAt k).listeners.length =
              w.registrations unseen := by
            unfold registrations
            rw [Nat.add_comm, List.length_flatMap, List.length_flatMap]
            exact List.sum_map_erase (fun k => (w.lambdaAt k).listeners.length) (hunseen k hk hseen)
          have fewer := registrations_visit_le w live thread k (unseen.erase k)
          have few : (w.liveDependents live k).length ≤ (w.lambdaAt k).listeners.length :=
            (List.length_filter_le ..).trans (length_dependents_le w k)
          rw [List.length_append]
          omega
        · obtain ⟨same, none⟩ : w.visit live thread k = w ∧ w.liveDependents live k = [] :=
            visit_of_size_le (Nat.le_of_not_lt hk)
          refine .visit hseen ?_
          rw [same, none, List.append_nil]
          exact ih hunseen (by omega)

/-- The collection loop ends on every graph. -/
theorem collects_enter (w : World) (live : Holders) (thread : ThreadId) (roots : List LambdaId) :
    w.Collects live thread roots (w.enter live thread roots).1 (w.enter live thread roots).2 := by
  have all (k : LambdaId) (hk : k.index < w.lambdas.size) (_ : w.isNotifying thread k = false) :
      k ∈ (List.range w.lambdas.size).map LambdaId.mk :=
    List.mem_map.2 ⟨k.index, List.mem_range.2 hk, rfl⟩
  refine collects_discover all ?_
  rw [registrations_all]
  omega

/-! ## What has been collected -/

namespace Collects

/-- A pending lambda is collected unless the thread is notifying it. -/
theorem mem_of_pending (h : w.Collects live thread pending affected v) (hj : j ∈ pending)
    (idle : w.isNotifying thread j = false) : j ∈ affected := by
  induction h with
  | done => cases hj
  | @skip w v k pending affected hseen _ ih =>
    refine ih ((List.mem_cons.1 hj).resolve_left ?_) idle
    rintro rfl
    rw [hseen] at idle
    cases idle
  | @visit w v k pending affected _ _ ih =>
    by_cases hjk : j = k
    · exact hjk ▸ List.mem_cons_self
    · have later := (List.mem_cons.1 hj).resolve_left hjk
      refine List.mem_cons_of_mem k (ih (List.mem_append_left _ later) ?_)
      rwa [isNotifying_visit_of_ne hjk]

/-- With a lambda all are collected that live and depend on it, unless the thread is notifying them. -/
theorem mem_of_dependent (h : w.Collects live thread pending affected v) (hk : k ∈ affected)
    (hj : j ∈ w.liveDependents live k) (idle : w.isNotifying thread j = false) : j ∈ affected := by
  induction h with
  | done => cases hk
  | skip _ _ ih => exact ih hk hj idle
  | @visit w v first pending affected _ rest ih =>
    by_cases hjf : j = first
    · exact hjf ▸ List.mem_cons_self
    · have idle' : (w.visit live thread first).isNotifying thread j = false := by
        rwa [isNotifying_visit_of_ne hjf]
      refine List.mem_cons_of_mem first ?_
      rcases List.mem_cons.1 hk with rfl | hk
      · exact rest.mem_of_pending (List.mem_append_right _ hj) idle'
      · rw [← liveDependents_visit] at hj
        exact ih hk hj idle'

/-- What has been collected is what is affected. -/
theorem mem_iff (h : w.Collects live thread pending affected v) (hknown : w.Known live thread pending) :
    k ∈ affected ↔ w.Affected live thread pending k := by
  induction h with
  | done => exact iff_of_false List.not_mem_nil Affected.not_nil
  | skip hseen _ ih => rw [ih (hknown.skip hseen), Affected.skip_iff hseen]
  | visit hidle _ ih =>
    rw [List.mem_cons, Affected.visit_iff hidle (hknown.head hidle), ih (hknown.visit hidle)]

/-- All that has changed is that the lambdas have been visited, each of them once. -/
theorem mapped (h : w.Collects live thread pending affected v) (hknown : w.Known live thread pending) :
    affected.Nodup ∧ w.Mapped (.visited live thread) affected v := by
  induction h with
  | done => exact ⟨List.nodup_nil, .refl _ _⟩
  | skip hseen _ ih => exact ih (hknown.skip hseen)
  | visit hidle rest ih =>
    have hk := hknown.head hidle
    obtain ⟨hnodup, hmapped⟩ := ih (hknown.visit hidle)
    -- A lambda that has been visited is marked, so it is not visited again.
    have hnew := fun hmem =>
      ((not_isNotifying_visit hk).1 ((rest.mem_iff (hknown.visit hidle)).1 hmem).idle).1 rfl
    exact ⟨List.nodup_cons.2 ⟨hnew, hnodup⟩, hmapped.cons hk hnew⟩

/-- The lambdas come in the order of a breadth-first search. -/
theorem eq_firsts {seen : List LambdaId} (h : w.Collects live thread pending affected v)
    (hknown : w.Known live thread pending) (hseen : ∀ k, w.isNotifying thread k = true ↔ k ∈ seen) :
    affected = firsts seen (pending ++ affected.flatMap (w.liveDependents live)) := by
  induction h generalizing seen with
  | done => rfl
  | skip hmarked _ ih =>
    rw [List.cons_append, firsts, if_pos ((hseen _).1 hmarked)]
    exact ih (hknown.skip hmarked) hseen
  | @visit w v k pending affected hidle _ ih =>
    have hnew : k ∉ seen := fun hmem => by
      rw [(hseen k).2 hmem] at hidle
      cases hidle
    have seen' (j : LambdaId) : (w.visit live thread k).isNotifying thread j = true ↔ j ∈ k :: seen := by
      rw [isNotifying_visit (hknown.head hidle), hseen, List.mem_cons]
    have same : (w.visit live thread k).liveDependents live = w.liveDependents live :=
      funext fun _ => liveDependents_visit
    have order := ih (hknown.visit hidle) seen'
    rw [same, List.append_assoc] at order
    rw [List.cons_append, firsts, if_neg hnew, List.flatMap_cons]
    exact congrArg (k :: ·) order

end Collects

end World

end Reactor
