import Reactor.Proofs.Passes.Sweep
import Reactor.Proofs.Purity.Reachable
import Reactor.Proofs.Reaches

/-!
# Marks that stay

A mark says that a thread is computing a lambda, or notifying it. Whoever finds it set leaves it: a force
does not begin to compute a lambda that is being computed, and a pass goes past a lambda that its thread is
notifying. So a mark is taken away only by the force or the pass that set it. As a discipline
(`Discipline.bearing`): from a state in which a lambda has a mark, every computation of any thread leads
to states in which it has it still, and so do whole steps of a session (`Session.bears_after`).

`Discipline.Alike.holds_of_reaches` takes this, and every other discipline, to the states in which
computations end, also if others change the state while they wait.
-/

namespace Reactor

/-- The state in which a computation has ended. -/
def Outcome.state? {α : Type} : Outcome α → Option World
  | .value _ w => some w
  | .error _ w => some w
  | .panic _ w => some w
  | _ => none

variable {w : World} {k : LambdaId} {mark : Mark}

/-- A lambda with a mark has a record. -/
theorem LambdaRecord.Bears.lt (h : (w.lambdaAt k).Bears mark) : k.index < w.lambdas.size := by
  apply Nat.lt_of_not_le
  intro hle
  rw [World.lambdaAt_of_size_le hle] at h
  cases mark with
  | computing owner => cases h
  | notifying thread => cases h

/-- No lambda keeps a deferred result, and one of them has a mark. -/
structure World.Bearing (k : LambdaId) (mark : Mark) (w : World) : Prop where
  settled : w.KeepsSettled
  bears : (w.lambdaAt k).Bears mark

namespace World.Bearing

variable (hw : w.Bearing k mark)
include hw

theorem ofLambdas {v : World} (h : v.lambdas = w.lambdas) : v.Bearing k mark := by
  refine ⟨hw.settled.ofLambdas h, ?_⟩
  rw [lambdaAt, h]
  exact hw.bears

theorem modifyLambda (id : LambdaId) {f : LambdaRecord → LambdaRecord} {allows : Expr → Prop}
    (h : (w.lambdaAt id).Tame allows (f (w.lambdaAt id)))
    (hmarks : (w.lambdaAt id).Marked (fun m => ¬ (id = k ∧ m = mark)) (f (w.lambdaAt id))) :
    (w.modifyLambda id f).Bearing k mark := by
  refine ⟨hw.settled.modifyLambda id h, ?_⟩
  rw [lambdaAt_modifyLambda]
  split
  · rename_i found
    obtain ⟨rfl, -⟩ := found
    exact hmarks mark (not_not.2 ⟨rfl, rfl⟩) hw.bears
  · exact hw.bears

theorem newLambda {record : LambdaRecord} (h : record.cache = .empty) :
    ({ w with lambdas := w.lambdas.push record } : World).Bearing k mark := by
  refine ⟨hw.settled.newLambda h, ?_⟩
  rw [lambdaAt, getD_push, if_neg (Nat.ne_of_lt hw.bears.lt)]
  exact hw.bears

end World.Bearing

namespace Discipline

/-- A lambda has a mark. All scripts are allowed. -/
def bearing (k : LambdaId) (mark : Mark) : Discipline where
  allows _ := True
  single := True
  holds := World.Bearing k mark
  leads _ _ := True
  firstScope := 0
  lets id m := ¬ (id = k ∧ m = mark)
  refl _ := trivial
  trans _ _ := trivial
  script _ _ _ _ := trivial
  callback _ _ _ _ _ := trivial
  settled hw _ _ h := hw.settled _ _ h
  subscriber _ _ _ _ _ := trivial
  forked _ _ := trivial
  firstScope_le _ := Nat.zero_le _
  lets_of_not_bears hw _ _ h := by
    rintro ⟨rfl, rfl⟩
    exact h hw.bears
  aside h hw := ⟨hw.ofLambdas h.lambdas, trivial⟩
  lambda id _ h hmarks hw := ⟨hw.modifyLambda id h hmarks, trivial⟩
  newLambda h hw := ⟨hw.newLambda h.cache, trivial⟩
  queue _ _ _ hw := ⟨hw.ofLambdas rfl, trivial⟩
  newQueue _ hw := ⟨hw.ofLambdas rfl, trivial⟩
  newFork _ _ hw := ⟨hw.ofLambdas rfl, trivial⟩
  scope _ _ _ hw := ⟨hw.ofLambdas rfl, trivial⟩
  newScope _ _ hw := ⟨hw.ofLambdas rfl, trivial⟩
  destroy _ hw := ⟨hw.ofLambdas rfl, trivial⟩

theorem reigns_bearing (k : LambdaId) (mark : Mark) : (bearing k mark).Reigns where
  change h _ hw := ⟨hw.ofLambdas h.lambdas, trivial⟩
  allows_iff := ⟨fun _ => .inl trivial, fun _ => trivial⟩
  defined _ _ _ _ := trivial
  define hw _ _ _ := ⟨hw.ofLambdas rfl, trivial⟩
  finish hw _ _ := hw.ofLambdas rfl
  single := trivial
  leads _ _ := trivial

variable {α : Type} {D : Discipline} {P : α → World → Prop} {between : World → World → Prop}

/-- Whoever changes the state while others wait keeps the discipline. -/
def Spares (D : Discipline) (between : World → World → Prop) : Prop :=
  ∀ {v v' : World}, D.holds v → between v v' → D.holds v' ∧ D.leads v v'

/-- The discipline holds of the state in which a computation ends. -/
theorem Alike.holds_of_reaches {u : World} {x y : Outcome α} (h : D.Alike P u x x)
    (hb : D.Spares between) (hy : x.Reaches between y) {v : World} (hv : y.state? = some v) :
    D.holds v := by
  induction hy generalizing u with
  | value =>
    cases h with
    | value hw _ _ =>
      cases hv
      exact hw.holds
  | error =>
    cases h with
    | error hw _ =>
      cases hv
      exact hw.holds
  | panic =>
    cases h with
    | panic hw _ =>
      cases hv
      exact hw.holds
  | exhausted => cases hv
  | waiting hbetween _ ih =>
    cases h with
    | waiting hw _ hfg =>
      obtain ⟨hv', lead⟩ := hb hw.holds hbetween
      exact ih (hfg (.refl hv') lead) hv

/-- What is known where a computation gives a value, and what has led there. -/
theorem Alike.value_of_reaches {a : α} {u v : World} {x : Outcome α} (h : D.Alike P u x x)
    (hb : D.Spares between) (hy : x.Reaches between (.value a v)) :
    D.holds v ∧ D.leads u v ∧ P a v := by
  generalize hgiven : Outcome.value a v = y at hy
  induction hy generalizing u with
  | value =>
    cases hgiven
    cases h with
    | value hw hu ha => exact ⟨hw.holds, hu, ha⟩
  | error => cases hgiven
  | panic => cases hgiven
  | exhausted => cases hgiven
  | waiting hbetween _ ih =>
    cases h with
    | waiting hw hu hfg =>
      obtain ⟨hv', lead⟩ := hb hw.holds hbetween
      obtain ⟨holds, later, ha⟩ := ih (hfg (.refl hv') lead) hgiven
      exact ⟨holds, D.trans hu (D.trans lead later), ha⟩

end Discipline

theorem World.notifying_leaveNotify (w : World) (thread : ThreadId) (k j : LambdaId) :
    ((w.leaveNotify thread j).lambdaAt k).notifying =
      if j = k then (w.lambdaAt k).notifying.filter (· ≠ thread) else (w.lambdaAt k).notifying := by
  unfold leaveNotify
  rw [lambdaAt_modifyLambda]
  by_cases hj : j = k
  · subst hj
    rw [if_pos rfl]
    split
    · rfl
    · rename_i hlt
      rw [lambdaAt_of_size_le (Nat.le_of_not_lt fun h => hlt ⟨rfl, h⟩)]
      rfl
  · rw [if_neg hj, if_neg fun h => hj h.1]

/-- A pass that ends takes away its marks on what it has reached, and changes no other mark. -/
theorem World.mem_notifying_left_iff {thread other : ThreadId} {ks : List LambdaId} :
    other ∈ ((ks.foldl (fun w j => w.leaveNotify thread j) w).lambdaAt k).notifying ↔
      other ∈ (w.lambdaAt k).notifying ∧ (k ∈ ks → other ≠ thread) := by
  induction ks generalizing w with
  | nil => simp
  | cons j ks ih =>
    rw [List.foldl_cons, ih, notifying_leaveNotify, List.mem_cons]
    by_cases hj : j = k
    · subst hj
      simp only [if_true, List.mem_filter, decide_eq_true_eq, true_or, forall_const]
      tauto
    · rw [if_neg hj, or_iff_right fun same => hj same.symm]

/-- What was marked when no fork was under way stays marked, whatever the host does. -/
theorem Session.bears_after {s : Session} (hs : s.suspended = []) (h : s.world.Bearing k mark)
    (steps : List Step) : (s.after steps).world.Bearing k mark := by
  have held : s.Held (Discipline.bearing k mark) := ⟨h, fun hw => by
    rw [hs] at hw
    cases hw⟩
  exact (held.after (Discipline.reigns_bearing k mark) steps).world

end Reactor
