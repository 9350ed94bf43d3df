import Reactor.Proofs.Discipline.Values
import Reactor.Script.Evaluate

/-!
# Values without fixable lambdas

A value is unfixed if a lambda that can be fixed stands at one of its positions: it is the value
itself, or an element of a list, of a sequence, of a map or of a range inside (`Value.unfixed`). A
deeply fixed value is not unfixed (`Discipline.alike_fixDeep`), whatever the computation of its lambdas
does to the state, provided that this does not make a lambda fixable. It stays so as long as the
state has that property, and marks and tags do not matter.

The proof follows the recursion of `Value.fixAt`. The elements that are done are not unfixed in the
state in which they were fixed, and the computation of the next ones leads on from that state.
-/

namespace Reactor

namespace Value

mutual

/-- A lambda that can be fixed stands at some position of the value. -/
def unfixed (w : World) : Value → Bool
  | .mk data _ => dataUnfixed w data

/-- A lambda that can be fixed stands at some position of the payload. -/
def dataUnfixed (w : World) : Data → Bool
  | .lambda id => (w.lambdaAt id).fixable
  | .list items => anyUnfixed w items
  | .sequence items => anyUnfixed w items
  | .map entries => entryUnfixed w entries
  | .range start stop => unfixed w start || unfixed w stop
  | _ => false

/-- Some value is unfixed. -/
def anyUnfixed (w : World) : List Value → Bool
  | [] => false
  | v :: vs => unfixed w v || anyUnfixed w vs

/-- The value of some entry is unfixed. -/
def entryUnfixed (w : World) : List (String × Value) → Bool
  | [] => false
  | (_, v) :: rest => unfixed w v || entryUnfixed w rest

end

variable {w : World}

theorem anyUnfixed_eq_any (items : List Value) : anyUnfixed w items = items.any (unfixed w) := by
  induction items with
  | nil => rfl
  | cons v vs ih => rw [anyUnfixed, ih, List.any_cons]

theorem entryUnfixed_eq_any (entries : List (String × Value)) :
    entryUnfixed w entries = entries.any fun entry => entry.2.unfixed w := by
  induction entries with
  | nil => rfl
  | cons entry rest ih => rw [entryUnfixed, ih, List.any_cons]

theorem anyUnfixed_eq_false {items : List Value} :
    anyUnfixed w items = false ↔ ∀ v ∈ items, v.unfixed w = false := by
  simp [anyUnfixed_eq_any]

theorem entryUnfixed_eq_false {entries : List (String × Value)} :
    entryUnfixed w entries = false ↔ ∀ entry ∈ entries, entry.2.unfixed w = false := by
  simp [entryUnfixed_eq_any]

/-- Only the payload counts. -/
theorem unfixed_eq (v : Value) : v.unfixed w = dataUnfixed w v.data := by
  cases v
  rfl

theorem data_of_lambda? {v : Value} {id : LambdaId} (h : v.lambda? = some id) :
    v.data = .lambda id := by
  unfold lambda? at h
  split at h
  · rename_i found
    cases h
    exact found
  · cases h

/-! ## Later states -/

/-- No lambda becomes fixable. -/
def KeepsFixed (u w : World) : Prop :=
  ∀ id, (u.lambdaAt id).fixable = false → (w.lambdaAt id).fixable = false

mutual

theorem unfixed_of_keepsFixed {u w : World} (hw : KeepsFixed u w) (v : Value)
    (h : v.unfixed u = false) : v.unfixed w = false := by
  match v with
  | .mk data _ => exact dataUnfixed_of_keepsFixed hw data h

theorem dataUnfixed_of_keepsFixed {u w : World} (hw : KeepsFixed u w) (data : Data)
    (h : dataUnfixed u data = false) : dataUnfixed w data = false := by
  match data with
  | .lambda id => exact hw id h
  | .list items => exact anyUnfixed_of_keepsFixed hw items h
  | .sequence items => exact anyUnfixed_of_keepsFixed hw items h
  | .map entries => exact entryUnfixed_of_keepsFixed hw entries h
  | .range start stop =>
    obtain ⟨h₁, h₂⟩ := Bool.or_eq_false_iff.1 h
    exact Bool.or_eq_false_iff.2
      ⟨unfixed_of_keepsFixed hw start h₁, unfixed_of_keepsFixed hw stop h₂⟩
  | .void | .null _ | .boolean _ | .integer _ | .decimal _ | .string _ | .date _ | .infinity _
  | .uri _ | .queue _ | .error _ => rfl

theorem anyUnfixed_of_keepsFixed {u w : World} (hw : KeepsFixed u w) (items : List Value)
    (h : anyUnfixed u items = false) : anyUnfixed w items = false := by
  match items with
  | [] => rfl
  | v :: vs =>
    obtain ⟨h₁, h₂⟩ := Bool.or_eq_false_iff.1 h
    exact Bool.or_eq_false_iff.2
      ⟨unfixed_of_keepsFixed hw v h₁, anyUnfixed_of_keepsFixed hw vs h₂⟩

theorem entryUnfixed_of_keepsFixed {u w : World} (hw : KeepsFixed u w)
    (entries : List (String × Value)) (h : entryUnfixed u entries = false) :
    entryUnfixed w entries = false := by
  match entries with
  | [] => rfl
  | (_, v) :: rest =>
    obtain ⟨h₁, h₂⟩ := Bool.or_eq_false_iff.1 h
    exact Bool.or_eq_false_iff.2
      ⟨unfixed_of_keepsFixed hw v h₁, entryUnfixed_of_keepsFixed hw rest h₂⟩

end

/-! ## Marks -/

mutual

theorem unfixed_markFrom (n : Nat) (v : Value) : (markFrom n v).1.unfixed w = v.unfixed w := by
  match v with
  | .mk data notes =>
    unfold markFrom
    split
    · rfl
    · exact dataUnfixed_markDataFrom n data

theorem dataUnfixed_markDataFrom (n : Nat) (data : Data) :
    dataUnfixed w (markDataFrom n data).1 = dataUnfixed w data := by
  match data with
  | .list items => exact (anyUnfixed_markItemsFrom n [] items).trans (Bool.false_or _)
  | .sequence items => exact (anyUnfixed_markItemsFrom n [] items).trans (Bool.false_or _)
  | .map entries => exact (entryUnfixed_markEntriesFrom n [] entries).trans (Bool.false_or _)
  | .range start stop =>
    show (unfixed w _ || unfixed w _) = (unfixed w start || unfixed w stop)
    rw [unfixed_markFrom n start, unfixed_markFrom _ stop]
  | .lambda _ | .void | .null _ | .boolean _ | .integer _ | .decimal _ | .string _ | .date _
  | .infinity _ | .uri _ | .queue _ | .error _ => rfl

theorem anyUnfixed_markItemsFrom (n : Nat) (done items : List Value) :
    anyUnfixed w (markItemsFrom n done items).1 = (anyUnfixed w done || anyUnfixed w items) := by
  match items with
  | [] =>
    rw [markItemsFrom, anyUnfixed_eq_any, List.any_reverse, ← anyUnfixed_eq_any, anyUnfixed,
      Bool.or_false]
  | v :: vs =>
    rw [markItemsFrom, anyUnfixed_markItemsFrom _ _ vs, anyUnfixed, anyUnfixed, unfixed_markFrom,
      Bool.or_left_comm, Bool.or_assoc]

theorem entryUnfixed_markEntriesFrom (n : Nat) (done entries : List (String × Value)) :
    entryUnfixed w (markEntriesFrom n done entries).1 =
      (entryUnfixed w done || entryUnfixed w entries) := by
  match entries with
  | [] =>
    rw [markEntriesFrom, entryUnfixed_eq_any, List.any_reverse, ← entryUnfixed_eq_any, entryUnfixed,
      Bool.or_false]
  | (_, v) :: rest =>
    rw [markEntriesFrom, entryUnfixed_markEntriesFrom _ _ rest, entryUnfixed, entryUnfixed,
      unfixed_markFrom, Bool.or_left_comm, Bool.or_assoc]

end

end Value

namespace Discipline

variable {D : Discipline}

/-- The value is fixed to the end. -/
def Fixed (v : Value) (w : World) : Prop :=
  v.unfixed w = false

/-- All of the values are fixed to the end. -/
def AllFixed (items : List Value) (w : World) : Prop :=
  ∀ v ∈ items, v.unfixed w = false

theorem AllFixed.later {items : List Value} {u w : World} (h : AllFixed items u)
    (hw : Value.KeepsFixed u w) : AllFixed items w :=
  fun v hv => Value.unfixed_of_keepsFixed hw v (h v hv)

/-! ## Fixing -/

section Items

variable (hD : ∀ {u w : World}, D.leads u w → Value.KeepsFixed u w) {fix : Value → Eval Value}
  (hfix : ∀ v, D.Gives Fixed (fix v))
include hD hfix

theorem alike_fixEach {ctx : Context} (hctx : D.Admits ctx) {w v : World} (h : D.Rel w v)
    {done : List Value} (hdone : AllFixed done w) (items : List Value) :
    D.Alike AllFixed w (Value.fixEach fix done items ctx w) (Value.fixEach fix done items ctx v) := by
  induction items generalizing done ctx w v with
  | nil =>
    refine .value h (D.refl w) fun x hx => ?_
    exact hdone x (List.mem_reverse.1 hx)
  | cons item items ih =>
    rw [Value.fixEach, Eval.bind_apply, Eval.bind_apply]
    refine ((hfix item).run hctx h).bindFrom fun result w' v' h' lead hresult => ?_
    refine ih (hctx.withThread _) h' fun x hx => ?_
    rcases List.mem_cons.1 hx with rfl | hx
    · exact hresult
    · exact hdone.later (hD lead) x hx

theorem alike_fixAll {ctx : Context} (hctx : D.Admits ctx) {w v : World} (h : D.Rel w v)
    {done : List Value} (hdone : AllFixed done w) (failure : Option Error) (items : List Value) :
    D.Alike AllFixed w (Value.fixAll fix done failure items ctx w)
      (Value.fixAll fix done failure items ctx v) := by
  induction items generalizing done failure ctx w v with
  | nil =>
    cases failure with
    | none =>
      refine .value h (D.refl w) fun x hx => ?_
      exact hdone x (List.mem_reverse.1 hx)
    | some e => exact .error h (D.refl w)
  | cons item items ih =>
    rw [Value.fixAll, Eval.bind_apply, Eval.bind_apply]
    refine ((hfix item).attempt.run hctx h).bindFrom fun result w' v' h' lead hresult => ?_
    cases result with
    | error e => exact ih hctx h' (hdone.later (hD lead)) _
    | ok result =>
      refine ih (hctx.withThread _) h' (fun x hx => ?_) failure
      rcases List.mem_cons.1 hx with rfl | hx
      · exact hresult _ rfl
      · exact hdone.later (hD lead) x hx

end Items

theorem gives_onPool {α : Type} {P : α → World → Prop} {act : Eval α} (h : D.Gives P act) :
    D.Gives P (Value.onPool act) := by
  refine keeps_thread.bind fun thread => .ite h ?_
  refine keeps_bind ?_ fun id => h.onThread id true
  exact keeps_modifyGetAside (fun _ _ => rfl) fun _ => ⟨⟨rfl, rfl, rfl, rfl⟩, rfl, rfl⟩

theorem gives_fixItems (hD : ∀ {u w : World}, D.leads u w → Value.KeepsFixed u w)
    {fix : Value → Eval Value} (hfix : ∀ v, D.Gives Fixed (fix v)) (parallel : Bool)
    (items : List Value) : D.Gives AllFixed (Value.fixItems fix parallel items) := by
  have none : ∀ w : World, AllFixed [] w := by
    intro w x hx
    cases hx
  refine (keeps_parallelThreshold items).bind fun _ => .ite ⟨fun hctx w v h => ?_⟩
    ⟨fun hctx w v h => ?_⟩
  · exact alike_fixAll hD (fun v => gives_onPool (hfix v)) hctx h (none w) _ items
  · exact alike_fixEach hD hfix hctx h (none w) items

/-- A value that has been computed is fixed when what it is made of is. -/
theorem gives_fixParts (hD : ∀ {u w : World}, D.leads u w → Value.KeepsFixed u w)
    {fix : Value → Eval Value} (hfix : ∀ v, D.Gives Fixed (fix v)) {depth : Nat} (hdepth : depth ≠ 0)
    (parallel : Bool) (v : Value) : D.Gives Fixed (v.onForced fun v => do
      if depth = 0 then return v
      match v.data with
      | .list items => return v.withData (.list (← Value.fixItems fix parallel items))
      | .sequence items => return v.withData (.sequence (← Value.fixItems fix parallel items))
      | .map entries =>
        let fixed ← Value.fixItems fix parallel (Entries.values entries)
        return v.withData (.map ((Entries.keys entries).zip fixed))
      | .range start stop =>
        let start ← fix start
        let stop ← Eval.holding start.places (fix stop)
        return v.withData (.range start stop)
      | _ => return v) := by
  have items := gives_fixItems hD hfix parallel
  refine gives_onForced fun v hv => ?_
  rw [if_neg hdepth]
  have plain (h : ∀ w, Value.dataUnfixed w v.data = false) : D.Gives Fixed (pure v) :=
    gives_pure fun w _ => (Value.unfixed_eq v).trans (h w)
  cases hdata : v.data with
  | list xs =>
    refine (items xs).bindIn fun done _ _ w _ h hdone => ?_
    exact .value h (D.refl w) (Value.anyUnfixed_eq_false.2 hdone)
  | sequence xs =>
    refine (items xs).bindIn fun done _ _ w _ h hdone => ?_
    exact .value h (D.refl w) (Value.anyUnfixed_eq_false.2 hdone)
  | map entries =>
    refine (items _).bindIn fun done _ _ w _ h hdone => .value h (D.refl w) ?_
    refine Value.entryUnfixed_eq_false.2 fun entry hentry => ?_
    exact hdone _ (List.of_mem_zip hentry).2
  | range start stop =>
    -- the computation of the second bound leads on from the state in which the first is fixed
    refine (hfix start).bindIn fun start' _ hctx w v h hstart => ?_
    rw [Eval.bind_apply, Eval.bind_apply]
    refine (((hfix stop).holding _).run hctx h).bindFrom fun stop' w' _ h' lead hstop => ?_
    have later := Value.unfixed_of_keepsFixed (hD lead) start' hstart
    exact .value h' (D.refl w') (Bool.or_eq_false_iff.2 ⟨later, hstop⟩)
  | lambda id => simp [Value.lambda?, hdata] at hv
  | _ => exact plain fun w => by rw [hdata]; rfl

/-- A fixed value is fixed to the end if the depth does not run out before the traversal does. -/
theorem gives_fixAt (hD : ∀ {u w : World}, D.leads u w → Value.KeepsFixed u w) {budget depth : Nat}
    (h : budget < depth) (parallel : Bool) (v : Value) :
    D.Gives Fixed (Value.fixAt budget depth parallel v) := by
  induction budget generalizing depth v with
  | zero =>
    obtain ⟨depth, rfl⟩ := Nat.exists_eq_succ_of_ne_zero (Nat.ne_of_gt h)
    exact gives_exhausted
  | succ budget ih =>
    obtain ⟨depth, rfl⟩ := Nat.exists_eq_succ_of_ne_zero (Nat.ne_of_gt (Nat.zero_lt_of_lt h))
    have hdepth : budget < depth := Nat.lt_of_succ_lt_succ h
    have fix := ih hdepth
    have rest := gives_fixParts hD fix (Nat.ne_of_gt (Nat.zero_lt_of_lt hdepth)) parallel
    unfold Value.fixAt
    cases hv : v.lambda? with
    | none =>
      refine Gives.bindOf (p := fun fixable => fixable = true) (gives_pure fun _ _ => rfl) ?_
      intro fixable hfixable
      rw [hfixable]
      exact rest v
    | some id =>
      have read : D.Gives (fun fixable w => fixable = (w.lambdaAt id).fixable)
          (Eval.gets fun w => (w.lambdaAt id).fixable) := gives_gets (fun _ _ => rfl) fun _ _ => rfl
      refine read.bindIn fun fixable ctx hctx w _ h hfixable => ?_
      cases fixable with
      | true => exact (rest v).run hctx h
      | false =>
        refine .value h (D.refl w) ((Value.unfixed_eq v).trans ?_)
        rw [Value.data_of_lambda? hv]
        exact hfixable.symm

/-- A deeply fixed value is fixed to the end. -/
theorem alike_fixDeep (hD : ∀ {u w : World}, D.leads u w → Value.KeepsFixed u w) {ctx : Context}
    (hctx : D.Admits ctx) (hbudget : ctx.budget < Value.maxDepth) {w v : World} (h : D.Rel w v)
    (value : Value) (parallel : Bool) :
    D.Alike Fixed w (value.fixDeep parallel ctx w) (value.fixDeep parallel ctx v) :=
  (gives_fixAt hD hbudget parallel value).run hctx h

end Discipline

end Reactor
