import Reactor.Proofs.Ranges.Points
import Reactor.Proofs.Traversals.Ends
import Reactor.Value.Cast

/-!
# Casts of values without lambdas

A cast that the table does not allow fails with an invalid cast, and one of a scalar that cannot be read does so
too. The other failures are those of an expansion: a range may have no elements or too many, and a URI need not
be bound to a queue.

* `Value.returns_humanAt`, `Value.toList_done` : text and elements, which casts are made from.
* `Value.CastEnds` : what a cast may end with.
* `Value.casts_end` : every cast of a value without lambdas ends so.
* `Value.cast_not_listed` : a range of texts is not cast to a list, and that is not an invalid cast.
-/

namespace Reactor

namespace Value

open Context

variable {ctx : Context} {w : World} {v : Value} {p q : Data} {e : Error} {target : ValueType}

/-! ## Texts -/

/-- A value has a text if it unfolds to a number of levels. -/
theorem returns_humanAt {sort : Value → Prop} (hctx : ctx.Sees w sort) (budget : Nat) (hv : sort v) :
    ctx.Returns (· = w) (w.Flat budget v ∧ w.Flat ctx.budget v) True (humanAt budget v) := by
  induction budget generalizing v with
  | zero => exact gives_exhausted And.left
  | succ budget ih =>
    unfold humanAt
    refine hctx.onAttempt hv fun r hr => ?_
    have good := hctx.sort_of_forced hv hr
    have part {x : Value} (hx : x ∈ w.parts r) :
        ctx.Returns (· = w) (w.Flat (budget + 1) v ∧ w.Flat ctx.budget v) True (humanAt budget x) :=
      (ih (hctx.part good hx)).weaken fun h =>
        ⟨hr.flat h.1 x hx, (World.Unfolds.part hx (.refl x)).flat (hr.flat h.2)⟩
    have json {f : Except Error String → Eval String} (hf : ∀ text, f (.ok text) = pure text) :
        ctx.Returns (· = w) (w.Flat (budget + 1) v ∧ w.Flat ctx.budget v) True (r.toJson.attempt >>= f) := by
      refine ((returns_toTree hctx good).andReturn.weaken fun h => hr.flat h.2).attempt ?_
      rintro _ ⟨⟨text, rfl⟩, -⟩
      rw [hf]
      exact returns_pure trivial
    obtain ⟨data, notes⟩ := r
    cases data with
    | range start stop =>
      refine (part List.mem_cons_self).bind fun _ _ => ?_
      exact (part (List.mem_cons_of_mem _ List.mem_cons_self)).bind fun _ _ => returns_pure trivial
    | list _ => exact json fun _ => rfl
    | sequence _ => exact json fun _ => rfl
    | map _ => exact json fun _ => rfl
    | queue _ => exact json fun _ => rfl
    | _ => exact returns_pure trivial

theorem human_ends (hv : w.Undeferred v) (ctx : Context) :
    (v.human ctx w).Ends (w.Flat ctx.budget v) fun r u => u = w ∧ ∃ text, r = .ok text := by
  have h : ctx.Returns (· = w) (w.Flat ctx.budget v) True v.human :=
    gives_budget ((returns_humanAt (sees_undeferred ctx w) ctx.budget hv).weaken fun h => ⟨h, h⟩)
  exact (h.here rfl).mono fun r u h => ⟨h.1, h.2.1⟩

/-! ## Elements -/

theorem kind_of_rangeEnds (h : rangeEnds p q = .error e) : e.kind = .invalidOperation := by
  unfold rangeEnds at h
  split at h
  · cases h
  · cases h
  · split at h <;> cases h
    rfl
  · cases h
    rfl

theorem kind_of_bound {uri : Uri} (h : uri.bound = .error e) : e.kind = .invalidOperation := by
  unfold Uri.bound at h
  split at h <;> cases h
  rfl

theorem kind_of_expansion {ends : RangeKind × Int × Int} (h : expansion ends = .error e) :
    e.kind = .invalidOperation := by
  unfold expansion at h
  split at h <;> cases h
  rfl

/-- A value without lambdas is expanded, or it is a range or a URI and fails with an invalid operation. -/
theorem toList_done (hv : w.Undeferred v) (ctx : Context) :
    ∃ r, v.toList ctx w = .done r w ∧
      ∀ e, r = .error e → e.kind = .invalidOperation ∧ (v.tag = .range ∨ v.tag = .uri) := by
  have hlambda := hv.lambda?_eq_none
  obtain ⟨data, notes⟩ := v
  cases data with
  | range start stop =>
    have part {x : Value} (hx : x ∈ w.parts (.mk (.range start stop) notes)) : x.lambda? = none :=
      (hv.part hx).lambda?_eq_none
    refine ⟨_, rangeItems_of_lambda?_eq_none (part List.mem_cons_self)
      (part (List.mem_cons_of_mem _ List.mem_cons_self)) ctx w, fun e he => ⟨?_, .inl rfl⟩⟩
    cases hends : rangeEnds start.data stop.data with
    | error e' =>
      rw [hends] at he
      cases he
      exact kind_of_rangeEnds hends
    | ok ends =>
      rw [hends] at he
      exact kind_of_expansion he
  | uri uri =>
    cases hbound : uri.bound with
    | error e =>
      refine ⟨.error e, ?_, ?_⟩
      · show (Eval.ofExcept uri.bound >>= Resource.all) ctx w = _
        rw [hbound]
        rfl
      · rintro _ ⟨⟩
        exact ⟨kind_of_bound hbound, .inr rfl⟩
    | ok resource =>
      have hrun : (Value.mk (.uri uri) notes).toList ctx w = resource.all ctx w := by
        show (Eval.ofExcept uri.bound >>= Resource.all) ctx w = _
        rw [hbound]
        rfl
      cases resource with
      | queue id => exact ⟨.ok _, hrun, nofun⟩
      | cell id => exact ⟨.error _, hrun, by rintro _ ⟨⟩; exact ⟨rfl, .inr rfl⟩⟩
  | lambda id => cases hlambda
  | _ => exact ⟨.ok _, rfl, nofun⟩

/-- Only a range may fail to have entries, with the failure of its expansion. -/
theorem toMap_done (hv : w.Undeferred v) (ctx : Context) :
    ∃ r, v.toMap ctx w = .done r w ∧
      ∀ e, r = .error e → v.toList ctx w = .error e w ∧ e.kind = .invalidOperation ∧ v.tag = .range := by
  have hlambda := hv.lambda?_eq_none
  obtain ⟨r, hrun, hkind⟩ := toList_done hv ctx
  obtain ⟨data, notes⟩ := v
  cases data with
  | range start stop =>
    have hmap : (Value.mk (.range start stop) notes).toMap ctx w =
        (do return numbered (← (Value.mk (.range start stop) notes).toList) : Eval _) ctx w := rfl
    rw [hmap, Eval.bind_apply, hrun]
    cases r with
    | ok items => exact ⟨.ok _, rfl, nofun⟩
    | error e => exact ⟨.error e, rfl, by rintro _ ⟨⟩; exact ⟨rfl, (hkind e rfl).1, rfl⟩⟩
  | lambda id => cases hlambda
  | _ => exact ⟨.ok _, rfl, nofun⟩

/-! ## Conversions -/

/-- What a cast of a value may end with: a value of the target type, an invalid cast, or the failure to expand a
range or a URI. -/
inductive CastEnds (ctx : Context) (w : World) (v : Value) (target : ValueType) : Except Error Value → Prop
  | delivered {r : Value} (hvalid : castValid v.tag target = true) (htag : r.tag = target) :
      CastEnds ctx w v target (.ok r)
  | refused : CastEnds ctx w v target (.error (.invalidCast v.tag target))
  | unlisted {e : Error} (htarget : target = .list ∨ target = .sequence ∨ target = .map)
      (htag : v.tag = .range ∨ v.tag = .uri) (hlist : v.toList ctx w = .error e w)
      (hkind : e.kind = .invalidOperation) : CastEnds ctx w v target (.error e)

/-- Scalars are read as the target type, or the cast is invalid. -/
theorem castScalar_cases (data : Data) (target : ValueType) :
    (∃ r, castScalar data target = .ok r ∧ r.tag = target) ∨
      castScalar data target = .error (.invalidCast data.type target) := by
  have read {α : Type} (number : Except Error α) (f : α → Value) (hf : ∀ a, (f a).tag = target) :
      (∃ r, (number.mapError fun _ => Error.invalidCast data.type target).map f = .ok r ∧ r.tag = target) ∨
        (number.mapError fun _ => Error.invalidCast data.type target).map f =
          .error (.invalidCast data.type target) := by
    cases number with
    | ok a => exact .inl ⟨f a, rfl, hf a⟩
    | error e => exact .inr rfl
  unfold castScalar
  cases target with
  | integer =>
    dsimp only
    split
    · split
      · exact .inl ⟨_, rfl, rfl⟩
      · exact .inr rfl
    · exact read _ _ fun _ => rfl
  | decimal =>
    dsimp only
    split
    · exact .inl ⟨_, rfl, rfl⟩
    · exact read _ _ fun _ => rfl
  | date =>
    dsimp only
    split
    · split
      · exact .inl ⟨_, rfl, rfl⟩
      · exact .inr rfl
    · exact read _ _ fun _ => rfl
  | _ => exact .inr rfl

/-- Every value counts as true or as false. -/
theorem convert_boolean (v : Value) (ctx : Context) (w : World) :
    ∃ b, v.convert .boolean ctx w = .value (boolean b) w := by
  obtain ⟨data, notes⟩ := v
  cases data <;> exact ⟨_, rfl⟩

/-- A conversion that starts from the elements. -/
theorem toList_bind_ends {f : List Value → Eval Value} {Q : Except Error Value → World → Prop} {sure : Prop}
    (hv : w.Undeferred v) (hf : ∀ items, (f items ctx w).Yields Q)
    (he : ∀ e, v.toList ctx w = .error e w → e.kind = .invalidOperation → v.tag = .range ∨ v.tag = .uri →
      Q (.error e) w) : ((v.toList >>= f) ctx w).Ends sure Q := by
  obtain ⟨r, hrun, hkind⟩ := toList_done hv ctx
  rw [Eval.bind_apply, hrun]
  cases r with
  | ok items => exact .inr (hf items)
  | error e => exact .inr (he e hrun (hkind e rfl).1 (hkind e rfl).2)

/-- A value without lambdas is converted, or it is not one that the target type can be read from, or it is not
expanded. -/
theorem convert_ends (hv : w.Undeferred v) (hvalid : castValid v.tag target = true) (hown : v.tag ≠ target)
    (ctx : Context) :
    (v.convert target ctx w).Ends (w.Flat ctx.budget v) fun r _ => CastEnds ctx w v target r := by
  have text {f : String → Value} (hf : ∀ s, (f s).tag = target) :
      ((do return f (← v.human) : Eval Value) ctx w).Ends (w.Flat ctx.budget v)
        fun r _ => CastEnds ctx w v target r := by
    rw [Eval.bind_apply]
    refine (human_ends hv ctx).bind (fun s u _ => .inr (.delivered hvalid (hf s))) ?_
    rintro e u ⟨-, _, ⟨⟩⟩
  have scalar : (Eval.ofExcept (castScalar v.data target) ctx w).Ends (w.Flat ctx.budget v)
      fun r _ => CastEnds ctx w v target r := by
    refine .inr (Eval.yields_ofExcept ?_)
    rcases castScalar_cases v.data target with ⟨r, hr, htag⟩ | hr
    · rw [hr]
      exact .delivered hvalid htag
    · rw [hr]
      exact .refused
  -- the table allows these casts for lists only, which are always expanded
  have ofList (htarget : target = .range ∨ target = .queue) (htag : v.tag = .range ∨ v.tag = .uri) : False := by
    rcases htarget with rfl | rfl <;> rcases htag with htag | htag <;> rw [htag] at hvalid hown
    · exact hown rfl
    all_goals exact absurd hvalid (by decide)
  cases target with
  | string => exact text fun _ => rfl
  | uri => exact text fun _ => rfl
  | boolean =>
    obtain ⟨b, hrun⟩ := convert_boolean v ctx w
    rw [hrun]
    exact .inr (.delivered hvalid rfl)
  | list =>
    exact toList_bind_ends hv (fun _ => .delivered hvalid rfl) fun e hlist hkind htag =>
      .unlisted (.inl rfl) htag hlist hkind
  | sequence =>
    exact toList_bind_ends hv (fun _ => .delivered hvalid rfl) fun e hlist hkind htag =>
      .unlisted (.inr (.inl rfl)) htag hlist hkind
  | map =>
    obtain ⟨r, hrun, hfail⟩ := toMap_done hv ctx
    refine .inr ?_
    unfold convert
    dsimp only
    rw [Eval.bind_apply, hrun]
    cases r with
    | ok entries => exact .delivered hvalid rfl
    | error e =>
      obtain ⟨hlist, hkind, htag⟩ := hfail e rfl
      exact .unlisted (.inr (.inr rfl)) (.inl htag) hlist hkind
  | range =>
    refine toList_bind_ends hv (fun items => ?_) fun e _ _ htag => (ofList (.inl rfl) htag).elim
    split
    · exact .delivered hvalid rfl
    · exact .refused
  | queue =>
    refine toList_bind_ends hv (fun items => ?_) fun e _ _ htag => (ofList (.inr rfl) htag).elim
    have hkept : w.HoldsQueues w := ⟨Nat.le_refl _, fun _ _ => rfl⟩
    have hqueue : (Eval.newQueue items ctx w).Yields fun r _ => ∃ id, r = .ok id :=
      (((returns_newQueue items).here hkept).yields trivial).mono fun _ _ h => h.2.1
    rw [Eval.bind_apply]
    refine hqueue.bind (fun _ _ _ => .delivered hvalid rfl) ?_
    rintro e u ⟨_, ⟨⟩⟩
  | void => exact .inr (.delivered hvalid rfl)
  | null => exact .inr (.delivered hvalid rfl)
  | _ => exact scalar

/-! ## Casts -/

theorem cast_of_not_valid (hlambda : v.lambda? = none) (hany : target ≠ .any)
    (hvalid : castValid v.tag target = false) (ctx : Context) (w : World) :
    v.cast target ctx w = .error (.invalidCast v.tag target) w := by
  have hown : v.tag ≠ target := by
    intro hown
    rw [hown, castValid, BEq.rfl, Bool.true_or, Bool.true_or] at hvalid
    cases hvalid
  have hrefused : validateCast v.tag target = .error (.invalidCast v.tag target) := if_neg (by simp [hvalid])
  rw [cast, onForced_of_lambda?_eq_none hlambda, if_neg (not_or.2 ⟨hown, hany⟩), hrefused]
  rfl

theorem cast_ends (hv : w.Undeferred v) (hany : target ≠ .any) (ctx : Context) :
    (v.cast target ctx w).Ends (w.Flat ctx.budget v) fun r _ => CastEnds ctx w v target r := by
  have hlambda := hv.lambda?_eq_none
  cases hvalid : castValid v.tag target with
  | false =>
    rw [cast_of_not_valid hlambda hany hvalid]
    exact .inr .refused
  | true =>
    rw [cast, onForced_of_lambda?_eq_none hlambda]
    by_cases hown : v.tag = target
    · rw [if_pos (.inl hown)]
      exact .inr (.delivered hvalid hown)
    · have hallowed : validateCast v.tag target = .ok () := if_pos hvalid
      rw [if_neg (not_or.2 ⟨hown, hany⟩), hallowed]
      exact convert_ends hv hvalid hown ctx

/-- **Casts deliver the target type.** If a value without lambdas is cast, a result has the type that it is cast to,
and the table allows the cast. A failure is an invalid cast, or it is that of the expansion of a range or a URI to
elements. What the table does not allow fails, and a value that unfolds to no more levels than the budget allows
has a result or a failure. -/
theorem casts_end (hv : w.Undeferred v) (hany : target ≠ .any) (ctx : Context) :
    (∀ r u, v.cast target ctx w = .done r u → CastEnds ctx w v target r) ∧
      (castValid v.tag target = false → v.cast target ctx w = .error (.invalidCast v.tag target) w) ∧
      (w.Flat ctx.budget v → ∃ r u, v.cast target ctx w = .done r u) := by
  have hends := cast_ends hv hany ctx
  refine ⟨fun r u hrun => ?_, fun hvalid => cast_of_not_valid hv.lambda?_eq_none hany hvalid ctx w, fun hflat => ?_⟩
  · rw [hrun] at hends
    exact hends.leaves.of_done
  · obtain ⟨r, u, hrun, -⟩ := Outcome.yields_iff.1 (hends.yields hflat)
    exact ⟨r, u, hrun⟩

/-- A list of two integers is cast to a text. -/
theorem cast_of_two_integers :
    let v := list [integer 3, integer 5]
    let ctx := Context.ofBudget 2 default
    World.Undeferred {} v ∧ ∃ r u, v.cast .string ctx {} = .done r u ∧ CastEnds ctx {} v .string r := by
  intro v ctx
  have leaf (n : Int64) : World.Undeferred {} (integer n) := by
    intro y hto
    cases hto with
    | refl => rfl
    | part hx _ => cases hx
  have hv : World.Undeferred {} v := by
    intro y hto
    cases hto with
    | refl => rfl
    | part hx hto =>
      rcases List.mem_cons.1 hx with rfl | hx
      · exact leaf 3 y hto
      · exact leaf 5 y (List.mem_singleton.1 hx ▸ hto)
  have hflat : World.Flat {} ctx.budget v := by
    intro x hx y hy
    rcases List.mem_cons.1 hx with rfl | hx
    · cases hy
    · rw [List.mem_singleton.1 hx] at hy
      cases hy
  obtain ⟨ends, -, hrun⟩ := casts_end hv (show ValueType.string ≠ .any by decide) ctx
  obtain ⟨r, u, run⟩ := hrun hflat
  exact ⟨hv, r, u, run, ends r u run⟩

/-- A range of texts is not cast to a list. The failure is an invalid operation, though the table allows the cast. -/
theorem cast_not_listed :
    let v := range (string "ab") (string "c")
    let ctx := Context.ofBudget 1 default
    castValid v.tag .list = true ∧ ∃ e, v.cast .list ctx {} = .error e {} ∧ e.kind ≠ .invalidCast :=
  ⟨rfl, .invalidOperands "range" .string .string, rfl, by decide⟩

end Value

end Reactor
