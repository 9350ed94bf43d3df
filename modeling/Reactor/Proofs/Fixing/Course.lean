import Reactor.Proofs.Discipline.Marks
import Reactor.Proofs.Fixing.Layers
import Reactor.Proofs.Network.Fixing

/-!
# The course of fixing

While a value is fixed the state changes only by the forces of those lambdas that the traversal meets in the
first layers, one after another, and by threads that the pool takes (`Context.Course`). What is made of
the value has these lambdas replaced by just what the forces have given (`Context.traces_fixAt`).

The lambdas of which the traversal finds that they cannot be fixed stay so, and no force gives a deferred value.
This is a discipline (`Discipline.settling`), and so it holds at the end of a whole course
(`Context.Course.settled`).
-/

namespace Reactor

/-- A lambda that stays as it is when values are fixed. -/
def World.Unfixable (w : World) (id : LambdaId) : Prop :=
  (w.lambdaAt id).fixable = false

/-- What a traversal that meets some lambdas does to the state. Others may change it by `between` while a force
waits. -/
inductive Context.Course (ctx : Context) (between : World → World → Prop) :
    List Meeting → World → World → Prop
  | done {w : World} : Course ctx between [] w w
  | thread {met : List Meeting} {w u : World}
    (rest : Course ctx between met { w with threads := w.threads + 1 } u) : Course ctx between met w u
  | spared {met : List Meeting} {w u : World} {id : LambdaId} (h : w.Unfixable id)
    (rest : Course ctx between met w u) : Course ctx between (.spared id :: met) w u
  | forced {met : List Meeting} {w v u : World} {id : LambdaId} {result : Value} {thread : Thread}
    (h : ¬ w.Unfixable id) (run : (ctx.force id thread w).Reaches between (.value result v))
    (rest : Course ctx between met v u) : Course ctx between (.forced id result :: met) w u

namespace Context

variable {α β : Type} {ctx : Context} {between : World → World → Prop} {u v w : World}
  {met more : List Meeting} {P Q : α → List Meeting → Prop} {act : Eval α}

theorem Course.append (h : ctx.Course between met w v) (h' : ctx.Course between more v u) :
    ctx.Course between (met ++ more) w u := by
  induction h with
  | done => exact h'
  | thread _ ih => exact .thread (ih h')
  | spared h _ ih => exact .spared h (ih h')
  | forced h run _ ih => exact .forced h run (ih h')

/-- If the computation gives a value, it has come to it in the course of certain meetings. -/
structure Traces (ctx : Context) (between : World → World → Prop) (P : α → List Meeting → Prop)
    (act : Eval α) : Prop where
  course {thread : Thread} {w u : World} {a : α}
    (run : (act { ctx with thread } w).Reaches between (.value a u)) :
    ∃ met, P a met ∧ ctx.Course between met w u

/-! ## Rules -/

theorem Traces.mono (h : ctx.Traces between P act) (hPQ : ∀ a met, P a met → Q a met) :
    ctx.Traces between Q act := by
  refine ⟨fun {thread w u a} run => ?_⟩
  obtain ⟨met, ha, course⟩ := h.course run
  exact ⟨met, hPQ a met ha, course⟩

theorem traces_pure {a : α} (h : P a []) : ctx.Traces between P (pure a) := by
  refine ⟨fun {thread w u b} run => ?_⟩
  rw [Eval.pure_apply, Outcome.reaches_value_iff] at run
  cases run
  exact ⟨[], h, .done⟩

theorem traces_gets (f : World → α) : ctx.Traces between (fun _ met => met = []) (Eval.gets f) := by
  refine ⟨fun {thread w u b} run => ?_⟩
  rw [Eval.gets_apply, Outcome.reaches_value_iff] at run
  cases run
  exact ⟨[], rfl, .done⟩

theorem Traces.bind {R : β → List Meeting → Prop} {f : α → Eval β} (h : ctx.Traces between P act)
    (hf : ∀ a met, P a met → ctx.Traces between (fun b more => R b (met ++ more)) (f a)) :
    ctx.Traces between R (act >>= f) := by
  refine ⟨fun {thread w u b} run => ?_⟩
  rw [Eval.bind_apply, Outcome.reaches_bind_iff] at run
  obtain ⟨x, first, second⟩ := run
  cases x with
  | value a v =>
    obtain ⟨met, ha, course⟩ := h.course first
    obtain ⟨more, hb, course'⟩ := (hf a met ha).course second
    exact ⟨met ++ more, hb, course.append course'⟩
  | waiting => exact absurd first Outcome.not_reaches_waiting
  | _ => cases second

theorem Traces.holding (h : ctx.Traces between P act) (places : List Place) :
    ctx.Traces between P (Eval.holding places act) :=
  ⟨fun run => h.course run⟩

/-- A thread of the pool does the work. -/
theorem Traces.onPool (h : ctx.Traces between P act) : ctx.Traces between P (Value.onPool act) := by
  refine ⟨fun {thread w u a} run => ?_⟩
  unfold Value.onPool at run
  rw [Eval.bind_apply, Eval.thread_apply, Outcome.bind_value] at run
  split at run
  · exact h.course run
  · rw [Eval.bind_apply, Eval.modifyGet_apply, Outcome.bind_value] at run
    obtain ⟨met, ha, course⟩ := h.course run
    exact ⟨met, ha, .thread course⟩

/-! ## Elements -/

section Items

variable {fix : Value → Eval Value} {R : Value.Becoming} {items : List Value}
  (h : ∀ x ∈ items, ctx.Traces between (fun y met => R met x y) (fix x))
include h

theorem traces_fixEach (done : List Value) :
    ctx.Traces between (fun ys met => ∃ made, ys = done.reverse ++ made ∧ Value.Along R met items made)
      (Value.fixEach fix done items) := by
  induction items generalizing done with
  | nil => exact traces_pure ⟨[], by simp, .nil⟩
  | cons item items ih =>
    unfold Value.fixEach
    refine (h item List.mem_cons_self).bind fun result met hresult => Traces.holding ?_ _
    refine (ih (fun x hx => h x (List.mem_cons_of_mem _ hx)) (result :: done)).mono ?_
    rintro ys more ⟨made, rfl, along⟩
    exact ⟨result :: made, by simp, .cons hresult along⟩

omit h in
/-- After a failure no value is given. -/
theorem not_fixAll_of_failure {act : Value → Eval Value} {e : Error} {thread : Thread} {ys : List Value}
    (done : List Value) :
    ¬ (Value.fixAll act done (some e) items { ctx with thread } w).Reaches between (.value ys u) := by
  induction items generalizing done w thread with
  | nil => simp [Value.fixAll]
  | cons item items ih =>
    intro run
    unfold Value.fixAll at run
    rw [Eval.bind_apply, Outcome.reaches_bind_iff] at run
    obtain ⟨x, first, second⟩ := run
    cases x with
    | value result v =>
      cases result with
      | ok result =>
        rw [Outcome.bind_value] at second
        exact ih (result :: done) second
      | error e' =>
        rw [Outcome.bind_value] at second
        exact ih done second
    | waiting => exact absurd first Outcome.not_reaches_waiting
    | _ => cases second

theorem traces_fixAll (done : List Value) :
    ctx.Traces between (fun ys met => ∃ made, ys = done.reverse ++ made ∧ Value.Along R met items made)
      (Value.fixAll (fun x => Value.onPool (fix x)) done none items) := by
  induction items generalizing done with
  | nil => exact traces_pure ⟨[], by simp, .nil⟩
  | cons item items ih =>
    refine ⟨fun {thread w u ys} run => ?_⟩
    unfold Value.fixAll at run
    rw [Eval.bind_apply, Eval.attempt_apply, Outcome.reaches_bind_iff] at run
    obtain ⟨x, attempt, second⟩ := run
    obtain ⟨y, first, rfl⟩ := Outcome.reaches_attempt_iff.1 attempt
    cases y with
    | value result v =>
      obtain ⟨met, hresult, course⟩ := (h item List.mem_cons_self).onPool.course first
      obtain ⟨more, ⟨made, rfl, along⟩, course'⟩ :=
        (ih (fun x hx => h x (List.mem_cons_of_mem _ hx)) (result :: done)).course second
      exact ⟨met ++ more, ⟨result :: made, by simp, .cons hresult along⟩, course.append course'⟩
    | error e v => exact absurd second (not_fixAll_of_failure done)
    | waiting => exact absurd first Outcome.not_reaches_waiting
    | _ => cases second

/-- In parallel or not, something is made of each element in its turn. -/
theorem traces_fixItems (parallel : Bool) :
    ctx.Traces between (fun ys met => Value.Along R met items ys) (Value.fixItems fix parallel items) := by
  have threshold : ctx.Traces between (fun _ met => met = []) (Value.parallelThreshold items) := by
    unfold Value.parallelThreshold
    split
    · exact traces_gets _
    · exact traces_pure rfl
  unfold Value.fixItems
  refine threshold.bind ?_
  rintro _ _ rfl
  split
  · refine (traces_fixAll h []).mono ?_
    rintro ys met ⟨made, rfl, along⟩
    exact along
  · refine (traces_fixEach h []).mono ?_
    rintro ys met ⟨made, rfl, along⟩
    exact along

end Items

/-! ## Values -/

/-- Something is made of the elements, unless this is the last layer. -/
theorem traces_fixParts {fix : Value → Eval Value} {R : Value.Becoming} {v : Value}
    (h : ∀ x ∈ v.elements, ctx.Traces between (fun y met => R met x y) (fix x)) (depth : Nat)
    (parallel : Bool) :
    ctx.Traces between (fun r met => (if depth = 0 then Value.Same else Value.Remade R) met v r)
      (v.fixParts fix depth parallel) := by
  unfold Value.fixParts
  by_cases hdepth : depth = 0
  · rw [if_pos hdepth, if_pos hdepth]
    exact traces_pure ⟨rfl, rfl⟩
  rw [if_neg hdepth, if_neg hdepth]
  obtain ⟨data, notes⟩ := v
  cases data with
  | list items =>
    refine (traces_fixItems h parallel).bind fun ys met along => traces_pure ?_
    rw [List.append_nil]
    exact .list along
  | sequence items =>
    refine (traces_fixItems h parallel).bind fun ys met along => traces_pure ?_
    rw [List.append_nil]
    exact .sequence along
  | map entries =>
    refine (traces_fixItems h parallel).bind fun ys met along => traces_pure ?_
    rw [List.append_nil]
    have hlength : ys.length = (Entries.keys entries).length := by
      rw [← along.length_eq, Entries.keys, List.length_map]
      exact List.length_map ..
    have keys : Entries.keys ((Entries.keys entries).zip ys) = Entries.keys entries :=
      List.map_fst_zip (Nat.le_of_eq hlength.symm)
    have values : Entries.values ((Entries.keys entries).zip ys) = ys :=
      List.map_snd_zip (Nat.le_of_eq hlength)
    refine .map keys ?_
    rw [values]
    exact along
  | range start stop =>
    refine (h start List.mem_cons_self).bind fun start' met hstart => ?_
    refine ((h stop (List.mem_cons_of_mem _ List.mem_cons_self)).holding _).bind
      fun stop' more hstop => traces_pure ?_
    rw [List.append_nil]
    exact .range hstart hstop
  | _ => exact traces_pure (.leaf rfl)

/-- A deferred value is spared, or something is made of the result of its lambda. -/
theorem traces_replaced {R : Value.Becoming} {v : Value} {id : LambdaId} (hl : v.lambda? = some id)
    {work : Value → Eval Value} (h : ∀ x, ctx.Traces between (fun r met => R met x r) (work x)) :
    ctx.Traces between (fun r met => Value.Replaced R met v r) (do
      let fixable ← Eval.gets fun w => (w.lambdaAt id).fixable
      if !fixable then return v
      v.onForced work) := by
  refine ⟨fun {thread w u r} run => ?_⟩
  rw [Eval.bind_apply, Eval.gets_apply, Outcome.bind_value] at run
  cases hfixable : (w.lambdaAt id).fixable with
  | false =>
    simp only [hfixable, Bool.not_false, if_true, Eval.pure_apply, Outcome.reaches_value_iff] at run
    cases run
    exact ⟨[.spared id], .spared hl, .spared hfixable .done⟩
  | true =>
    have asked : ¬ w.Unfixable id := by simp [World.Unfixable, hfixable]
    have forces : v.onForced work = (do
        let result ← Eval.force id
        Eval.holding (v.overlaid result).places (work (v.overlaid result))) := by
      unfold Value.onForced
      rw [hl]
      dsimp only
      rw [Value.forced_of_lambda? hl, bind_assoc]
      simp only [pure_bind]
    simp only [hfixable, Bool.not_true, Bool.false_eq_true, if_false, forces] at run
    rw [Eval.bind_apply, Outcome.reaches_bind_iff] at run
    obtain ⟨x, first, second⟩ := run
    cases x with
    | value result v' =>
      obtain ⟨met, hr, course⟩ := ((h (v.overlaid result)).holding _).course second
      exact ⟨.forced id result :: met, .forced hl hr, .forced asked first course⟩
    | waiting => exact absurd first Outcome.not_reaches_waiting
    | _ => cases second

/-- The layers of a value are fixed in the course of those meetings that the fixed value tells of. If the budget
bounds the traversal, no layers are left. -/
theorem traces_fixAt (budget depth : Nat) (parallel : Bool) (v : Value) :
    ctx.Traces between
      (fun r met => Value.FixedTo depth met v r ∧ (budget < depth → r.Made budget))
      (v.fixAt budget depth parallel) := by
  induction budget generalizing depth v with
  | zero =>
    cases depth with
    | zero => exact traces_pure ⟨⟨rfl, rfl⟩, nofun⟩
    | succ depth =>
      refine ⟨fun {thread w u r} run => ?_⟩
      cases run
  | succ budget ih =>
    cases depth with
    | zero => exact traces_pure ⟨⟨rfl, rfl⟩, nofun⟩
    | succ depth =>
      have parts (x : Value) : ctx.Traces between
          (fun r met => (if depth = 0 then Value.Same else Value.Remade (Value.FixedTo depth)) met x r ∧
            (budget < depth → r.Made (budget + 1)))
          (x.fixParts (Value.fixAt budget depth parallel) depth parallel) := by
        refine (traces_fixParts (fun y _ => ih depth y) depth parallel).mono fun r met hr => ?_
        by_cases hdepth : depth = 0
        · rw [if_pos hdepth] at hr ⊢
          exact ⟨hr, by omega⟩
        · rw [if_neg hdepth] at hr ⊢
          refine ⟨hr.mono And.left, fun hlt => hr.made ?_⟩
          exact hr.along.forall_right fun _ hy => hy.2 hlt
      simp only [Value.fixedTo_succ, Nat.add_lt_add_iff_right, Value.fixAt_succ]
      cases hl : v.lambda? with
      | none =>
        rw [Value.onForced_of_lambda?_eq_none hl]
        exact (parts v).mono fun r met hr => ⟨.own hl hr.1, hr.2⟩
      | some id =>
        refine (traces_replaced hl parts).mono fun r met hr => ?_
        cases hr with
        | own hv => cases hl.symm.trans hv
        | forced hv h => exact ⟨.forced hv h.1, h.2⟩
        | spared hv => exact ⟨.spared hv, fun _ => Value.made_of_lambda? hv⟩

end Context

/-! ## What lasts -/

/-- What cannot be fixed in the first state cannot be fixed in the second one. -/
def World.StaysUnfixable (w v : World) : Prop :=
  ∀ id, w.Unfixable id → v.Unfixable id

namespace World.StaysUnfixable

variable {v w : World}

theorem ofLambdas (h : v.lambdas = w.lambdas) : w.StaysUnfixable v := by
  intro id hid
  unfold Unfixable lambdaAt at hid ⊢
  rwa [h]

theorem modifyLambda (id : LambdaId) {f : LambdaRecord → LambdaRecord} {allows : Expr → Prop}
    (h : (w.lambdaAt id).Tame allows (f (w.lambdaAt id))) : w.StaysUnfixable (w.modifyLambda id f) := by
  intro other hother
  unfold Unfixable at hother ⊢
  rw [lambdaAt_modifyLambda]
  split
  · rename_i found
    rw [← found.1, h.fixable, found.1]
    exact hother
  · exact hother

/-- A lambda without a record can be fixed, so that a new one takes nothing away. -/
theorem newLambda (w : World) (record : LambdaRecord) :
    w.StaysUnfixable { w with lambdas := w.lambdas.push record } := by
  intro id hid
  have hlt : id.index < w.lambdas.size := by
    apply Nat.lt_of_not_le
    intro hle
    unfold Unfixable at hid
    rw [lambdaAt_of_size_le hle] at hid
    cases hid
  unfold Unfixable
  rw [lambdaAt, getD_push, if_neg (Nat.ne_of_lt hlt)]
  exact hid

end World.StaysUnfixable

/-- No lambda keeps a deferred result, and lambdas that cannot be fixed stay so. All scripts are allowed. -/
def Discipline.settling : Discipline where
  allows _ := True
  single := True
  holds := World.KeepsSettled
  leads := World.StaysUnfixable
  firstScope := 0
  lets _ _ := True
  refl _ _ h := h
  trans h h' id hid := h' id (h id hid)
  script _ _ _ _ := trivial
  callback _ _ _ _ _ := trivial
  settled hw _ _ h := hw _ _ h
  subscriber _ _ _ _ _ := trivial
  forked _ _ := trivial
  firstScope_le _ := Nat.zero_le _
  lets_of_not_bears _ _ _ _ := trivial
  aside h hw := ⟨hw.ofLambdas h.lambdas, .ofLambdas h.lambdas⟩
  lambda id _ h _ hw := ⟨hw.modifyLambda id h, .modifyLambda id h⟩
  newLambda h hw := ⟨hw.newLambda h.cache, .newLambda _ _⟩
  queue _ _ _ hw := ⟨hw.ofLambdas rfl, .ofLambdas rfl⟩
  newQueue _ hw := ⟨hw.ofLambdas rfl, .ofLambdas rfl⟩
  newFork _ _ hw := ⟨hw.ofLambdas rfl, .ofLambdas rfl⟩
  scope _ _ _ hw := ⟨hw.ofLambdas rfl, .ofLambdas rfl⟩
  newScope _ _ hw := ⟨hw.ofLambdas rfl, .ofLambdas rfl⟩
  destroy _ hw := ⟨hw.ofLambdas rfl, .ofLambdas rfl⟩

theorem Discipline.hosts_settling : settling.Hosts where
  change h _ hw := ⟨hw.ofLambdas h.lambdas, .ofLambdas h.lambdas⟩
  allows_iff := ⟨fun _ => .inl trivial, fun _ => trivial⟩
  defined _ _ _ _ := trivial
  define hw _ _ _ := ⟨hw.ofLambdas rfl, .ofLambdas rfl⟩

/-- Whoever is met in a course is what the traversal has taken it for, and no result is deferred. -/
structure World.Settled (u : World) (met : List Meeting) : Prop where
  forced {id : LambdaId} {result : Value} (h : .forced id result ∈ met) : result.lambda? = none
  spared {id : LambdaId} (h : .spared id ∈ met) : u.Unfixable id

theorem Context.Course.settled {ctx : Context} {between : World → World → Prop} {met : List Meeting}
    {w u : World} (h : ctx.Course between met w u) (hctx : Discipline.settling.Admits ctx)
    (hb : Discipline.settling.Spares between) (hw : w.KeepsSettled) :
    u.KeepsSettled ∧ w.StaysUnfixable u ∧ u.Settled met := by
  induction h with
  | done => exact ⟨hw, fun _ h => h, nofun, nofun⟩
  | thread _ ih => exact ih hw
  | spared h _ ih =>
    obtain ⟨settled, stays, hmet⟩ := ih hw
    refine ⟨settled, stays, fun {id result} hid => ?_, fun {id} hid => ?_⟩
    · exact hmet.forced ((List.mem_cons.1 hid).resolve_left nofun)
    · rcases List.mem_cons.1 hid with heq | hid
      · cases heq
        exact stays _ h
      · exact hmet.spared hid
  | forced _ run _ ih =>
    obtain ⟨kept, lasting, hresult⟩ := (hctx.force _ _ (.refl hw)).value_of_reaches hb run
    obtain ⟨settled, stays, hmet⟩ := ih kept
    refine ⟨settled, fun id hid => stays id (lasting id hid), fun {id result} hid => ?_, fun {id} hid => ?_⟩
    · rcases List.mem_cons.1 hid with heq | hid
      · cases heq
        exact hresult
      · exact hmet.forced hid
    · exact hmet.spared ((List.mem_cons.1 hid).resolve_left nofun)

end Reactor
