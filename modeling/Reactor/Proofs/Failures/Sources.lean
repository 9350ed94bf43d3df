import Reactor.Proofs.Failures.Reports

/-!
# The sources that a failure has passed

Each force that a failure passes adds the source of its lambda, and leaves it out if a fragment with the
same digest is there already. So the sources of a failure that has passed some forces are the sources of
their lambdas, innermost first, of which only the first one with each digest is there
(`LambdaId.failure_passes_sources`). Neither the cause nor the message changes on the way.

The chain grows at its end, while `Segment.firsts` is defined from the front. `Segment.firsts_concat` is
the step between them, and the run is the induction over the levels in `Error.sources_passing`.
-/

namespace Reactor

namespace Segment

/-- The segments of a list whose digest does not occur before them. -/
def firsts : List Segment → List Segment
  | [] => []
  | s :: rest => s :: (firsts rest).filter fun t => t.hash != s.hash

variable {l : List Segment}

/-- No two of them have the same digest. -/
theorem nodup_firsts (l : List Segment) : ((firsts l).map hash).Nodup := by
  induction l with
  | nil => exact .nil
  | cons s rest ih =>
    rw [firsts, List.map_cons, List.nodup_cons]
    refine ⟨fun hs => ?_, ih.sublist (List.filter_sublist.map hash)⟩
    obtain ⟨t, ht, same⟩ := List.mem_map.1 hs
    simp [same] at ht

/-- Every digest of the list is that of one of them. -/
theorem mem_hash_firsts {d : String} : d ∈ (firsts l).map hash ↔ d ∈ l.map hash := by
  induction l with
  | nil => rfl
  | cons s rest ih =>
    simp only [firsts, List.map_cons, List.mem_cons]
    refine or_congr_right' fun hd => ?_
    rw [← ih, List.mem_map, List.mem_map]
    refine exists_congr fun t => and_congr_left fun ht => ?_
    simp [List.mem_filter, ht, hd]

/-- A segment that comes last is there if its digest has not occurred. -/
theorem firsts_concat (l : List Segment) (s : Segment) :
    firsts (l ++ [s]) = if s.hash ∈ l.map hash then firsts l else firsts l ++ [s] := by
  induction l with
  | nil => rfl
  | cons t rest ih =>
    rw [List.cons_append, firsts, ih, firsts, List.map_cons]
    by_cases hs : s.hash = t.hash
    · rw [if_pos (List.mem_cons.2 (.inl hs))]
      split <;> simp [hs]
    · rw [if_congr (List.mem_cons.trans (or_iff_right hs)) rfl rfl]
      split <;> simp [hs]

end Segment

namespace Error

variable {e : Error} {levels : List Level}

@[simp] theorem passing_message (e : Error) (levels : List Level) :
    (e.passing levels).message = e.message := by
  induction levels with
  | nil => rfl
  | cons level levels ih => rw [passing, addSource_message, ih]

theorem sources_addSource (e : Error) (s : Segment) :
    (e.addSource s).sources =
      if s.hash ∈ e.sources.map Segment.hash then e.sources else e.sources ++ [s] := by
  have same : (e.sources.any fun t => t.hash == s.hash) = true ↔ s.hash ∈ e.sources.map Segment.hash := by
    simp
  unfold addSource
  rw [if_congr same rfl rfl]
  split <;> rfl

/-- What the forces add to a failure that has no sources yet. -/
theorem sources_passing (h : e.sources = []) (levels : List Level) :
    (e.passing levels).sources = Segment.firsts (levels.map Level.source).reverse := by
  induction levels with
  | nil => exact h
  | cons level levels ih =>
    rw [passing, sources_addSource, ih, List.map_cons, List.reverse_cons, Segment.firsts_concat,
      if_congr Segment.mem_hash_firsts rfl rfl]

end Error

variable {between : World → World → Prop} {ctx : Context} {u w : World} {k : LambdaId} {e : Error}

/-- **A failure names what it passed.** If nobody handles errors and the runtime fails fast, a failure
without sources that arises in the innermost of some forces surfaces from the outermost one with its cause
and its message, and with the sources of the forced lambdas, innermost first, except those whose digest
occurs before. So no digest occurs twice. -/
theorem LambdaId.failure_passes_sources {levels : List Level}
    (stack : ForceStack between (.error e u) k ctx w levels) (fast : u.config.failFast = true)
    (hu : ∀ level ∈ levels, u.Unhandled level.scope) (he : e.sources = []) :
    ∃ f v, (k.force ctx w).Reaches between (.error f v) ∧ f.kind = e.kind ∧ f.message = e.message ∧
      f.sources = Segment.firsts (levels.map Level.source).reverse ∧
      (f.sources.map Segment.hash).Nodup := by
  obtain ⟨v, surfaces, -⟩ := stack.passes fun _ => ⟨fast, hu⟩
  have sources := Error.sources_passing he levels
  refine ⟨e.passing levels, v, surfaces, e.passing_kind levels, e.passing_message levels, sources, ?_⟩
  rw [sources]
  exact Segment.nodup_firsts _

/-- A runtime that fails fast, with four lambdas that force one another. The lowest one fails. The second
and the fourth one, and so the first and the third one, are of the same text. -/
def World.ofRefrain : World :=
  let lambda (operation : String) (body : Expr) : LambdaRecord :=
    { operation, source := Segment.whole operation, scope := ⟨0⟩, inputs := [], body := .script body
      fixable := true }
  { config := { failFast := true }
    scopes := #[{ name := "root", parent := none, source := default, pure := false }]
    lambdas := #[lambda "verse" (.fail (.exception "boom")),
      lambda "chorus" (.call .forced [.register "first"] none),
      lambda "verse" (.call .forced [.register "second"] none),
      lambda "chorus" (.call .forced [.register "third"] none)]
    desk := { registers := [("first", .lambda ⟨0⟩), ("second", .lambda ⟨1⟩), ("third", .lambda ⟨2⟩)] } }

theorem World.tower_ofRefrain : World.ofRefrain.Tower 3 (.exception "boom") := by
  refine ⟨rfl, fun {i} hi => ?_, fun {i} hi => ?_⟩
  · match i, hi with
    | 0, _ => exact ⟨"first", rfl, rfl⟩
    | 1, _ => exact ⟨"second", rfl, rfl⟩
    | 2, _ => exact ⟨"third", rfl, rfl⟩
  · match i, hi with
    | 0, _ => exact ⟨rfl, rfl⟩
    | 1, _ => exact ⟨rfl, rfl⟩
    | 2, _ => exact ⟨rfl, rfl⟩
    | 3, _ => exact ⟨rfl, rfl⟩

/-- Each of the two texts is there once, that of the lowest lambda first. -/
theorem LambdaId.failure_passes_refrain : ∃ u levels f v,
    ForceStack (fun _ _ => False) (.error (.exception "boom") u) ⟨3⟩ (.ofBudget 7 { id := 0 }) .ofRefrain
        levels ∧
      u.config.failFast = true ∧ (∀ level ∈ levels, u.Unhandled level.scope) ∧
      (Error.exception "boom").sources = [] ∧ levels.length = 4 ∧
      (LambdaId.force ⟨3⟩ (.ofBudget 7 { id := 0 }) .ofRefrain).Reaches (fun _ _ => False) (.error f v) ∧
      f.message = "boom" ∧ f.sources = [Segment.whole "verse", Segment.whole "chorus"] := by
  have shallow : ({ id := 0 } : Thread).depth + 3 < World.ofRefrain.config.maxDepth := by decide
  obtain ⟨u, stack, hu⟩ := World.tower_ofRefrain.forceStack_levels (fun _ _ => False) shallow 0
  have fast : u.config.failFast = true := hu.config ▸ rfl
  have unhandled (level : Level)
      (_ : level ∈ (List.range 4).reverse.map fun i => World.ofRefrain.level ⟨i⟩) :
      u.Unhandled level.scope := by
    refine World.Unhandled.congr (fun above _ => ?_) hu.scopes
    match above with
    | ⟨0⟩ => exact .inl rfl
    | ⟨_ + 1⟩ => exact .inl rfl
  obtain ⟨f, v, surfaces, -, message, sources, -⟩ :=
    failure_passes_sources stack fast unhandled rfl
  refine ⟨u, _, f, v, stack, fast, unhandled, rfl, rfl, surfaces, message, sources.trans ?_⟩
  decide +kernel

end Reactor
