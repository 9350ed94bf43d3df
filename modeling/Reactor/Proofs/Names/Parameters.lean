import Reactor.Proofs.Names.Assignment

/-!
# Positional parameters

Parameters are bound in scopes one after the other (`Binding.bindInTurn`). What one binding does to the state is
`World.Binds`. By induction on the bindings (`World.bindInTurn_apply`), a positional parameter keeps the first value
that it is given and another one takes the last (`World.boundTo`), and the scopes that have parameters are those that
had some before and those in which one is bound (`World.TakesParameters`).

Which keys are positional is decided twice: a key is bound and looked up as positional if it is a numeral
(`isPositional`), and listed if it can be read as a number of 64 bits (`position?`). The two differ on the numerals
with a plus sign and on those of numbers that are too large (`position?_eq_some_iff`).
-/

namespace Reactor

/-! ## Keys -/

/-- The digits of a key, without a plus sign in front. -/
def digitsOfKey (key : String) : List Char :=
  match key.toList with
  | '+' :: digits => digits
  | digits => digits

/-- The number that a key stands for. -/
def keyNumber (key : String) : Nat :=
  Text.digitsValue (digitsOfKey key)

/-- The key is a numeral behind a plus sign. -/
def IsSigned (key : String) : Prop :=
  ∃ digits, isPositional digits = true ∧ key = "+" ++ digits

theorem isPositional_iff {key : String} :
    isPositional key = true ↔ key.toList ≠ [] ∧ ∀ c ∈ key.toList, c.isDigit = true := by
  simp [isPositional]

/-- The digits of a key are a numeral if the key is one, with a plus sign or without. -/
theorem digitsOfKey_iff {key : String} :
    (digitsOfKey key ≠ [] ∧ ∀ c ∈ digitsOfKey key, c.isDigit = true) ↔
      isPositional key = true ∨ IsSigned key := by
  unfold digitsOfKey
  split
  · next digits hkey =>
    have unsigned : isPositional key ≠ true := fun h => by
      have sign := (isPositional_iff.1 h).2 '+' (hkey ▸ List.mem_cons_self)
      cases sign
    constructor
    · intro h
      refine .inr ⟨String.ofList digits, isPositional_iff.2 (by simpa using h), ?_⟩
      rw [← String.toList_inj, hkey, String.toList_append]
      simp
    · rintro (h | ⟨rest, hrest, rfl⟩)
      · exact absurd h unsigned
      · rw [String.toList_append] at hkey
        obtain rfl : rest.toList = digits := (List.cons.inj hkey).2
        exact isPositional_iff.1 hrest
  · next unsigned =>
    rw [← isPositional_iff]
    refine ⟨.inl, fun h => h.resolve_right ?_⟩
    rintro ⟨rest, -, rfl⟩
    exact unsigned rest.toList (String.toList_append ..)

/-- A key counts as a place if it is a numeral of a number of 64 bits, with a plus sign or without. -/
theorem position?_eq_some_iff {key : String} {n : Nat} :
    position? key = some n ↔
      ((isPositional key = true ∨ IsSigned key) ∧ keyNumber key < wordBound) ∧ keyNumber key = n := by
  have read : position? key = (Text.natural? (digitsOfKey key)).filter fun n => n < wordBound :=
    Text.naturalBelow?_eq ..
  have numeral : (!(digitsOfKey key).isEmpty && (digitsOfKey key).all Char.isDigit) = true ↔
      isPositional key = true ∨ IsSigned key := by
    rw [← digitsOfKey_iff]
    simp
  rw [read, Option.filter_eq_some_iff, Text.natural?, decide_eq_true_eq, ← numeral]
  split
  · next h =>
    simp only [Option.some.injEq, h, true_and]
    constructor
    · rintro ⟨rfl, hlt⟩
      exact ⟨hlt, rfl⟩
    · rintro ⟨hlt, rfl⟩
      exact ⟨rfl, hlt⟩
  · next h => simp [h]

theorem isSome_position? {key : String} :
    (position? key).isSome = true ↔ (isPositional key = true ∨ IsSigned key) ∧ keyNumber key < wordBound := by
  rw [Option.isSome_iff_exists]
  constructor
  · rintro ⟨n, h⟩
    exact (position?_eq_some_iff.1 h).1
  · intro h
    exact ⟨_, position?_eq_some_iff.2 ⟨h, rfl⟩⟩

/-! ## Bindings -/

/-- A parameter that is to be bound in a scope. -/
structure Binding where
  scope : ScopeId
  key : String
  value : Value

/-- Binds parameters one after the other. A binding that is refused is passed over. -/
def Binding.bindInTurn : List Binding → Eval Unit
  | [] => pure ()
  | b :: rest => do
    let _ ← (b.scope.bind b.key b.value).attempt
    bindInTurn rest

/-- What a binding does to a scope that is alive: a positional parameter that is there stays as it is. -/
def ScopeRecord.bindParameter (record : ScopeRecord) (key : String) (value : Value) : ScopeRecord :=
  { record with
    parameterScope := true
    parameters :=
      if isPositional key && Entries.contains record.parameters key then record.parameters
      else Entries.insert record.parameters key value }

/-- A key that is bound has the new value, unless it is positional and has one. -/
theorem ScopeRecord.get?_bindParameter (record : ScopeRecord) (key other : String) (value : Value) :
    Entries.get? (record.bindParameter key value).parameters other =
      if key = other then
        if isPositional key then (Entries.get? record.parameters key).or (some value) else some value
      else Entries.get? record.parameters other := by
  unfold bindParameter Entries.contains
  by_cases same : key = other
  · subst same
    cases isPositional key with
    | true => cases found : Entries.get? record.parameters key <;> simp [found, Entries.get?_insert]
    | false => simp [Entries.get?_insert]
  · rw [if_neg same]
    dsimp only
    split
    · rfl
    · rw [Entries.get?_insert, if_neg same]

namespace World

variable {w v : World} {scope owner : ScopeId} {key : String} {value : Value} {b : Binding}
  {bindings : List Binding}

/-- A binding has been tried. It concerns the parameters of its scope, if that is alive. -/
structure Binds (w : World) (b : Binding) (v : World) : Prop where
  vars : v.vars = w.vars
  scope (scope : ScopeId) : v.scopeAt scope =
    if b.scope = scope ∧ (w.scopeAt scope).destroyed = false then (w.scopeAt scope).bindParameter b.key b.value
    else w.scopeAt scope

theorem attempt_bind (w : World) (b : Binding) (ctx : Context) :
    ∃ outcome v, (b.scope.bind b.key b.value).attempt ctx w = .value outcome v ∧ w.Binds b v := by
  rw [Eval.attempt_apply, ScopeId.bind, Eval.bind_apply]
  cases hd : (w.scopeAt b.scope).destroyed with
  | true =>
    rw [ScopeId.checkAlive_of_destroyed hd]
    refine ⟨_, w, rfl, rfl, fun scope => (if_neg ?_).symm⟩
    rintro ⟨rfl, alive⟩
    rw [hd] at alive
    cases alive
  | false =>
    have hlt := lt_of_alive hd
    let marked := w.modifyScope b.scope fun record => { record with parameterScope := true }
    have hmarked (scope : ScopeId) : marked.scopeAt scope =
        if b.scope = scope then { w.scopeAt scope with parameterScope := true } else w.scopeAt scope := by
      rw [scopeAt_modifyScope]
      by_cases same : b.scope = scope
      · rw [if_pos ⟨same, same ▸ hlt⟩, if_pos same]
      · rw [if_neg fun h => same h.1, if_neg same]
    have parameters : (marked.scopeAt b.scope).parameters = (w.scopeAt b.scope).parameters := by
      rw [hmarked, if_pos rfl]
    rw [checkAlive_apply hd, Outcome.bind_value, Eval.bind_apply, Eval.modify_apply, Outcome.bind_value,
      Eval.bind_apply, ScopeId.record, Eval.gets_apply, Outcome.bind_value]
    change ∃ outcome v, Outcome.attempt ((if (isPositional b.key &&
      Entries.contains (marked.scopeAt b.scope).parameters b.key) = true then _ else _ : Eval Value) ctx marked) = _ ∧ _
    rw [parameters]
    cases refused : isPositional b.key && Entries.contains (w.scopeAt b.scope).parameters b.key with
    | true =>
      refine ⟨_, marked, rfl, rfl, fun scope => ?_⟩
      rw [hmarked]
      by_cases same : b.scope = scope
      · subst same
        rw [if_pos rfl, if_pos ⟨rfl, hd⟩, ScopeRecord.bindParameter, refused]
        rfl
      · rw [if_neg same, if_neg fun h => same h.1]
    | false =>
      refine ⟨_, _, rfl, rfl, fun scope => ?_⟩
      have there : b.scope.index < marked.scopes.size := (Array.size_modify ..).symm ▸ hlt
      rw [scopeAt_modifyScope, hmarked]
      by_cases same : b.scope = scope
      · subst same
        rw [if_pos ⟨rfl, there⟩, if_pos rfl, if_pos ⟨rfl, hd⟩, ScopeRecord.bindParameter, refused]
        rfl
      · rw [if_neg fun h => same h.1, if_neg same, if_neg fun h => same h.1]

/-- Parameters are bound in a scope: some were before, or it is alive and one is to be bound in it. -/
def TakesParameters (w : World) (bindings : List Binding) (scope : ScopeId) : Prop :=
  (w.scopeAt scope).parameterScope = true ∨
    (w.scopeAt scope).destroyed = false ∧ ∃ b ∈ bindings, b.scope = scope

/-- The values that a key is to have in a scope, one after the other. -/
def offered (w : World) (bindings : List Binding) (scope : ScopeId) (key : String) : List Value :=
  if (w.scopeAt scope).destroyed then []
  else (bindings.filter fun b => b.scope = scope ∧ b.key = key).map Binding.value

/-- The value that a key has in a scope in the end. A positional parameter keeps the first value, another one takes
the last. -/
def boundTo (w : World) (bindings : List Binding) (scope : ScopeId) (key : String) : Option Value :=
  let values := (Entries.get? (w.scopeAt scope).parameters key).toList ++ w.offered bindings scope key
  if isPositional key then values.head? else values.getLast?

/-- In each scope there is one parameter under a key. -/
def Keyed (w : World) : Prop :=
  ∀ scope, (Entries.keys (w.scopeAt scope).parameters).Nodup

theorem boundTo_nil (w : World) (scope : ScopeId) (key : String) :
    w.boundTo [] scope key = Entries.get? (w.scopeAt scope).parameters key := by
  have none : w.offered [] scope key = [] := by
    unfold offered
    split <;> rfl
  rw [boundTo, none, List.append_nil]
  cases Entries.get? (w.scopeAt scope).parameters key <;> simp

namespace Binds

variable (h : w.Binds b v)
include h

/-- A binding leaves all but the parameters alone. -/
theorem rest (scope : ScopeId) : v.scopeAt scope = { w.scopeAt scope with
    parameterScope := (v.scopeAt scope).parameterScope
    parameters := (v.scopeAt scope).parameters } := by
  rw [h.scope]
  split <;> rfl

theorem destroyed (scope : ScopeId) : (v.scopeAt scope).destroyed = (w.scopeAt scope).destroyed := by
  rw [h.rest]

theorem parent (scope : ScopeId) : (v.scopeAt scope).parent = (w.scopeAt scope).parent := by
  rw [h.rest]

theorem nested (hw : w.Nested) : v.Nested :=
  hw.ofSame h.parent (fun id => by rw [h.rest]) (fun id entry hentry => by rwa [h.rest] at hentry)
    (Nat.le_of_eq (congrArg Array.size h.vars.symm))

theorem keyed (hw : w.Keyed) : v.Keyed := by
  intro scope
  rw [h.scope]
  split
  · unfold ScopeRecord.bindParameter
    dsimp only
    split
    · exact hw scope
    · exact Entries.nodup_keys_insert (hw scope) b.key b.value
  · exact hw scope

theorem takesParameters : v.TakesParameters bindings scope ↔ w.TakesParameters (b :: bindings) scope := by
  unfold TakesParameters
  rw [h.destroyed, h.scope]
  by_cases concerned : b.scope = scope ∧ (w.scopeAt scope).destroyed = false
  · rw [if_pos concerned]
    exact iff_of_true (.inl rfl) (.inr ⟨concerned.2, b, List.mem_cons_self, concerned.1⟩)
  · rw [if_neg concerned]
    refine or_congr_right (and_congr_right fun alive => ?_)
    have other : b.scope ≠ scope := fun same => concerned ⟨same, alive⟩
    simp [other]

/-- After the binding a key is to have the same values, as far as they matter. -/
theorem boundTo : v.boundTo bindings scope key = w.boundTo (b :: bindings) scope key := by
  by_cases concerned : (b.scope = scope ∧ b.key = key) ∧ (w.scopeAt scope).destroyed = false
  · obtain ⟨⟨rfl, rfl⟩, alive⟩ := concerned
    have before : w.offered (b :: bindings) b.scope b.key = b.value :: v.offered bindings b.scope b.key := by
      simp [offered, h.destroyed, alive]
    have bound : v.scopeAt b.scope = (w.scopeAt b.scope).bindParameter b.key b.value := by
      rw [h.scope, if_pos ⟨rfl, alive⟩]
    rw [World.boundTo, World.boundTo, before, bound, ScopeRecord.get?_bindParameter, if_pos rfl]
    cases isPositional b.key with
    | true => cases Entries.get? (w.scopeAt b.scope).parameters b.key <;> simp
    | false => simp [List.getLast?_append, List.getLast?_cons]
  · have same : w.offered (b :: bindings) scope key = v.offered bindings scope key := by
      unfold offered
      rw [h.destroyed]
      cases alive : (w.scopeAt scope).destroyed with
      | true => rfl
      | false =>
        have other : ¬ (b.scope = scope ∧ b.key = key) := fun h => concerned ⟨h, alive⟩
        simp [other]
    have kept : Entries.get? (v.scopeAt scope).parameters key = Entries.get? (w.scopeAt scope).parameters key := by
      rw [h.scope]
      split
      · next found =>
        rw [ScopeRecord.get?_bindParameter, if_neg fun hkey => concerned ⟨⟨found.1, hkey⟩, found.2⟩]
      · rfl
    rw [World.boundTo, World.boundTo, same, kept]

end Binds

/-- What a list of bindings does to the state. -/
structure BindsAll (w : World) (bindings : List Binding) (v : World) : Prop where
  parent (scope : ScopeId) : (v.scopeAt scope).parent = (w.scopeAt scope).parent
  nested (hw : w.Nested) : v.Nested
  keyed (hw : w.Keyed) : v.Keyed
  taking (scope : ScopeId) : (v.scopeAt scope).parameterScope = true ↔ w.TakesParameters bindings scope
  bound (scope : ScopeId) (key : String) :
    Entries.get? (v.scopeAt scope).parameters key = w.boundTo bindings scope key

theorem bindsAll_nil (w : World) : w.BindsAll [] w where
  parent _ := rfl
  nested hw := hw
  keyed hw := hw
  taking scope := by simp [TakesParameters]
  bound scope key := (w.boundTo_nil scope key).symm

theorem BindsAll.cons {u : World} (h : w.Binds b u) (h' : u.BindsAll bindings v) :
    w.BindsAll (b :: bindings) v where
  parent scope := (h'.parent scope).trans (h.parent scope)
  nested hw := h'.nested (h.nested hw)
  keyed hw := h'.keyed (h.keyed hw)
  taking scope := (h'.taking scope).trans h.takesParameters
  bound scope key := (h'.bound scope key).trans h.boundTo

/-- Bindings are tried to the end. -/
theorem bindInTurn_apply (bindings : List Binding) (ctx : Context) (w : World) :
    ∃ v, Binding.bindInTurn bindings ctx w = .value () v ∧ w.BindsAll bindings v := by
  induction bindings generalizing w with
  | nil => exact ⟨w, rfl, w.bindsAll_nil⟩
  | cons b rest ih =>
    obtain ⟨outcome, u, run, binds⟩ := w.attempt_bind b ctx
    obtain ⟨v, hv, all⟩ := ih u
    refine ⟨v, ?_, .cons binds all⟩
    rw [Binding.bindInTurn, Eval.bind_apply, run]
    exact hv

/-! ## The nearest parameters -/

/-- The nearest scope of some kind, from a scope upwards. -/
inductive NearestOf (w : World) (p : ScopeId → Prop) : ScopeId → ScopeId → Prop
  | here {scope : ScopeId} (h : p scope) : NearestOf w p scope scope
  | above {scope parent owner : ScopeId} (h : ¬ p scope) (hparent : (w.scopeAt scope).parent = some parent)
    (h' : NearestOf w p parent owner) : NearestOf w p scope owner

theorem NearestOf.congr {p q : ScopeId → Prop} (hparent : ∀ id, (v.scopeAt id).parent = (w.scopeAt id).parent)
    (hpq : ∀ id, p id ↔ q id) (h : w.NearestOf p scope owner) : v.NearestOf q scope owner := by
  induction h with
  | here hp => exact .here ((hpq _).1 hp)
  | above hp habove _ ih => exact .above (fun hq => hp ((hpq _).2 hq)) ((hparent _).trans habove) ih

/-- The nearest scope in which parameters are bound is the first one upwards that is marked. -/
theorem Nested.find?_ancestors (hw : w.Nested) {p : ScopeId → Bool} :
    (w.ancestors scope).find? p = some owner ↔ w.NearestOf (fun id => p id = true) scope owner := by
  constructor
  · intro h
    induction hi : scope.index using Nat.strongRecOn generalizing scope with
    | _ i ih =>
      subst hi
      rw [hw.ancestors_eq, List.find?_cons] at h
      cases hp : p scope with
      | true =>
        rw [hp] at h
        cases h
        exact .here hp
      | false =>
        rw [hp] at h
        cases hparent : (w.scopeAt scope).parent with
        | none =>
          rw [hparent] at h
          cases h
        | some parent =>
          rw [hparent] at h
          exact .above (by simp [hp]) hparent (ih parent.index (hw.parent_lt hparent) h rfl)
  · intro h
    induction h with
    | here hp => rw [hw.ancestors_eq, List.find?_cons, hp]
    | above hp hparent _ ih => rw [hw.ancestors_eq, List.find?_cons, Bool.eq_false_iff.2 hp, hparent, ih]

/-! ## The list of parameters -/

/-- The parameters of a scope that are listed, with their keys. -/
def listed (parameters : Entries String Value) : List (String × Value) :=
  (parameters.filter fun parameter => (position? parameter.1).isSome).mergeSort fun a b =>
    keyNumber a.1 ≤ keyNumber b.1

theorem listed_singleton (parameter : String × Value) :
    listed [parameter] = if (position? parameter.1).isSome then [parameter] else [] := by
  unfold listed
  rw [List.filter_singleton]
  cases (position? parameter.1).isSome with
  | true => exact List.mergeSort_singleton _
  | false => exact List.mergeSort_nil

theorem mem_listed {parameters : Entries String Value} {parameter : String × Value} :
    parameter ∈ listed parameters ↔ parameter ∈ parameters ∧ (position? parameter.1).isSome = true := by
  rw [listed, List.mem_mergeSort, List.mem_filter]

theorem pairwise_listed (parameters : Entries String Value) :
    (listed parameters).Pairwise fun a b => keyNumber a.1 ≤ keyNumber b.1 := by
  refine (List.pairwise_mergeSort (fun a b c => ?_) (fun a b => ?_) _).imp fun h => of_decide_eq_true h
  · simp only [decide_eq_true_eq]
    exact Nat.le_trans
  · simp only [Bool.or_eq_true, decide_eq_true_eq]
    exact Nat.le_total ..

theorem nodup_listed {parameters : Entries String Value} (h : (Entries.keys parameters).Nodup) :
    ((listed parameters).map (·.1)).Nodup := by
  have perm := List.mergeSort_perm (parameters.filter fun parameter => (position? parameter.1).isSome) fun a b =>
    keyNumber a.1 ≤ keyNumber b.1
  exact (perm.map _).nodup_iff.2 (h.sublist (List.filter_sublist.map _))

/-- The places that parameters count are the numbers of their keys. -/
theorem filterMap_position? (parameters : Entries String Value) :
    (parameters.filterMap fun parameter => (position? parameter.1).map fun n => (n, parameter.2)) =
      (parameters.filter fun parameter => (position? parameter.1).isSome).map fun parameter =>
        (keyNumber parameter.1, parameter.2) := by
  induction parameters with
  | nil => rfl
  | cons parameter rest ih =>
    cases hposition : position? parameter.1 with
    | none => simp [hposition, ih]
    | some n => simp [hposition, ih, (position?_eq_some_iff.1 hposition).2]

theorem parameters_eq (w : World) (scope : ScopeId) :
    w.parameters scope = ((w.ancestors scope).find? fun id => (w.scopeAt id).parameterScope).elim []
      fun owner => (listed (w.scopeAt owner).parameters).map (·.2) := by
  rw [← List.head?_filter]
  change w.parameters scope = (w.parameterScopes scope).head?.elim [] _
  unfold parameters
  cases w.parameterScopes scope with
  | nil => rfl
  | cons owner rest =>
    rw [List.head?_cons, Option.elim_some]
    change (((w.scopeAt owner).parameters.filterMap fun parameter =>
      (position? parameter.1).map fun n => (n, parameter.2)).mergeSort fun a b => a.1 ≤ b.1).map (·.2) = _
    rw [filterMap_position?, listed, ← List.map_mergeSort, List.map_map]
    · rfl
    · exact fun _ _ _ _ => rfl

/-- The names of positional parameters are not those of variables. -/
theorem refused_of_positional {name : String} (hname : isPositional name = true) (scope : ScopeId) (value : Value)
    (declaration : Declaration) (ctx : Context) (w : World) :
    (∃ e, scope.declare name value declaration ctx w = .error e w ∧ e.kind = .assertion) ∧
      ∃ e, scope.set name value ctx w = .error e w ∧ e.kind = .assertion := by
  unfold ScopeId.declare ScopeId.propose ScopeId.set
  simp only [Eval.bind_apply]
  cases hd : (w.scopeAt scope).destroyed with
  | true =>
    rw [ScopeId.checkAlive_of_destroyed hd]
    exact ⟨⟨_, rfl, rfl⟩, _, rfl, rfl⟩
  | false =>
    rw [checkAlive_apply hd]
    simp only [Outcome.bind_value, hname, if_true]
    exact ⟨⟨_, rfl, rfl⟩, _, rfl, rfl⟩

/-- **Parameters are listed by their numbers.** Parameters are bound in scopes of a tree, one after the other. What
a scope then lists are the values of keys of the nearest scope in which parameters are bound: those keys that are
numerals of numbers of 64 bits, with a plus sign in front or without one. They are in the order of the numbers, with
no promise about keys of one number, and no key is listed twice. So of the positional keys those are left out whose numbers are too large, and of the other
keys those are listed that are numerals but for a plus sign.

A positional key has the first value that it was given, another one the last. No variable is declared or assigned
under a positional key. -/
theorem parameters_are_listed (hw : w.Nested) (hkeys : w.Keyed) (bindings : List Binding) (ctx : Context) :
    (∃ v, Binding.bindInTurn bindings ctx w = .value () v ∧ ∀ reader, ∃ parameters : List (String × Value),
      v.parameters reader = parameters.map (·.2) ∧ (parameters.map (·.1)).Nodup ∧
        parameters.Pairwise (fun a b => keyNumber a.1 ≤ keyNumber b.1) ∧
        ∀ key value, (key, value) ∈ parameters ↔
          (∃ owner, w.NearestOf (w.TakesParameters bindings) reader owner ∧
            w.boundTo bindings owner key = some value) ∧
          (isPositional key = true ∨ IsSigned key) ∧ keyNumber key < wordBound) ∧
    ∀ name, isPositional name = true → ∀ (scope : ScopeId) (value : Value) (declaration : Declaration) (u : World),
      (∃ e, scope.declare name value declaration ctx u = .error e u ∧ e.kind = .assertion) ∧
        ∃ e, scope.set name value ctx u = .error e u ∧ e.kind = .assertion := by
  obtain ⟨v, run, binds⟩ := bindInTurn_apply bindings ctx w
  refine ⟨⟨v, run, fun reader => ?_⟩, fun name hname scope value declaration u =>
    refused_of_positional hname scope value declaration ctx u⟩
  have nearest (owner : ScopeId) : (v.ancestors reader).find? (fun id => (v.scopeAt id).parameterScope) = some owner ↔
      w.NearestOf (w.TakesParameters bindings) reader owner := by
    rw [(binds.nested hw).find?_ancestors]
    exact ⟨.congr (fun id => (binds.parent id).symm) binds.taking,
      .congr binds.parent fun id => (binds.taking id).symm⟩
  rw [parameters_eq]
  cases hfound : (v.ancestors reader).find? fun id => (v.scopeAt id).parameterScope with
  | none =>
    refine ⟨[], rfl, .nil, .nil, fun key value => iff_of_false List.not_mem_nil ?_⟩
    rintro ⟨⟨owner, howner, -⟩, -⟩
    rw [← nearest, hfound] at howner
    cases howner
  | some owner =>
    have hkeyed := binds.keyed hkeys owner
    refine ⟨listed (v.scopeAt owner).parameters, rfl, nodup_listed hkeyed, pairwise_listed _, fun key value => ?_⟩
    rw [mem_listed, isSome_position?]
    refine and_congr_left fun _ => ⟨fun hmem => ⟨owner, (nearest owner).1 hfound, ?_⟩, ?_⟩
    · rw [← binds.bound]
      exact Entries.get?_of_mem hkeyed hmem
    · rintro ⟨other, hother, hvalue⟩
      rw [← nearest, hfound] at hother
      cases hother
      rw [← binds.bound] at hvalue
      exact Entries.mem_of_get?_eq_some hvalue

/-- A scope lists the parameters of the scope above it. The first of two values for a positional key stays. -/
theorem parameters_of_scope_above :
    let bindings : List Binding := [⟨⟨0⟩, "2", .integer 20⟩, ⟨⟨0⟩, "it", .integer 0⟩, ⟨⟨0⟩, "1", .integer 10⟩,
      ⟨⟨0⟩, "+3", .integer 30⟩, ⟨⟨0⟩, "18446744073709551616", .integer 40⟩, ⟨⟨0⟩, "1", .integer 11⟩]
    ∃ (v : World) (parameters : List (String × Value)),
      Binding.bindInTurn bindings (.ofBudget 3 default) ofCopies = .value () v ∧
      v.parameters ⟨1⟩ = parameters.map (·.2) ∧ ("1", .integer 10) ∈ parameters ∧ ("2", .integer 20) ∈ parameters ∧
      ("+3", .integer 30) ∈ parameters ∧ ("it", .integer 0) ∉ parameters ∧
      ("18446744073709551616", .integer 40) ∉ parameters := by
  intro bindings
  have hkeys : ofCopies.Keyed := fun scope => by
    rw [(bare_ofCopies scope).2]
    exact .nil
  obtain ⟨v, run, lists⟩ := (parameters_are_listed nested_ofCopies hkeys bindings (.ofBudget 3 default)).1
  obtain ⟨parameters, hlist, -, -, hmem⟩ := lists ⟨1⟩
  have above : ofCopies.NearestOf (ofCopies.TakesParameters bindings) ⟨1⟩ ⟨0⟩ := by
    refine .above ?_ rfl (.here (.inr ⟨rfl, _, List.mem_cons_self, rfl⟩))
    rintro (marked | ⟨-, b, hb, hscope⟩)
    · cases marked
    · simp only [bindings, List.mem_cons, List.not_mem_nil, or_false] at hb
      rcases hb with rfl | rfl | rfl | rfl | rfl | rfl <;> cases hscope
  have signed : IsSigned "+3" := ⟨"3", by decide, rfl⟩
  refine ⟨v, parameters, run, hlist, (hmem ..).2 ⟨⟨_, above, rfl⟩, .inl (by decide), by decide⟩,
    (hmem ..).2 ⟨⟨_, above, rfl⟩, .inl (by decide), by decide⟩,
    (hmem ..).2 ⟨⟨_, above, rfl⟩, .inr signed, by decide⟩, fun h => ?_, fun h => ?_⟩
  · rcases ((hmem ..).1 h).2.1 with positional | ⟨digits, -, hdigits⟩
    · exact absurd positional (by decide)
    · have sign := congrArg (fun text => text.toList.head?) hdigits
      simp [String.toList_append] at sign
  · exact absurd ((hmem ..).1 h).2.2 (by decide)

/-- A key with a plus sign is listed, and it is the name of a variable as well. A positional key whose number has
more than 64 bits is not listed. -/
theorem signed_listed_large_left_out :
    (isPositional "+1" = false ∧ ∃ v, Binding.bindInTurn [⟨⟨0⟩, "+1", .integer 1⟩] (.ofBudget 3 default) ofCopies =
      .value () v ∧ v.parameters ⟨0⟩ = [.integer 1]) ∧
    isPositional "18446744073709551616" = true ∧
      ∃ v, Binding.bindInTurn [⟨⟨0⟩, "18446744073709551616", .integer 1⟩] (.ofBudget 3 default) ofCopies =
        .value () v ∧ v.parameters ⟨0⟩ = [] := by
  refine ⟨⟨by decide, _, rfl, ?_⟩, by decide, _, rfl, ?_⟩
  · rw [parameters_eq]
    change (listed [("+1", .integer 1)]).map (·.2) = _
    rw [listed_singleton]
    rfl
  · rw [parameters_eq]
    change (listed [("18446744073709551616", .integer 1)]).map (·.2) = _
    rw [listed_singleton]
    rfl

end World

end Reactor
