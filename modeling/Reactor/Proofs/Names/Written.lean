import Reactor.Proofs.Names.Proposals

/-!
# States after a write

After a write a name is bound to a variable that holds the value, and all else is bound and holds what it
did (`World.Wrote`). Seen from all scopes this is what an assignment may do: it overwrites a variable
(`World.Overwritten`), or it extends a scope by a new one (`World.Extended`), and beside the name all
has the same answers (`World.Framed`).
-/

namespace Reactor

namespace ScopeRecord

/-- The scope with a lambda that follows a name, as the last one unless it does so already. -/
def followedBy (record : ScopeRecord) (name : String) (lambda : LambdaId) : ScopeRecord :=
  let listeners := (Entries.get? record.listeners name).getD []
  if listeners.contains lambda then record
  else { record with listeners := Entries.insert record.listeners name (listeners ++ [lambda]) }

theorem followedBy_eq (record : ScopeRecord) (name : String) (lambda : LambdaId) :
    record.followedBy name lambda =
      { record with listeners := (record.followedBy name lambda).listeners } := by
  unfold followedBy
  dsimp only
  split <;> rfl

theorem get?_followedBy (record : ScopeRecord) (name : String) (lambda : LambdaId) :
    (Entries.get? (record.followedBy name lambda).listeners name).getD [] =
      if lambda ∈ (Entries.get? record.listeners name).getD [] then
        (Entries.get? record.listeners name).getD []
      else (Entries.get? record.listeners name).getD [] ++ [lambda] := by
  unfold followedBy
  simp only [List.contains_iff_mem]
  split
  · rfl
  · rw [Entries.get?_insert, if_pos rfl]
    rfl

theorem mem_followedBy (record : ScopeRecord) (name : String) (lambda : LambdaId) :
    lambda ∈ (Entries.get? (record.followedBy name lambda).listeners name).getD [] := by
  rw [get?_followedBy]
  split
  · assumption
  · exact List.mem_append_right _ List.mem_cons_self

theorem get?_followedBy_of_ne (record : ScopeRecord) {name other : String} (lambda : LambdaId)
    (h : other ≠ name) : Entries.get? (record.followedBy name lambda).listeners other =
      Entries.get? record.listeners other := by
  unfold followedBy
  dsimp only
  split
  · rfl
  · rw [Entries.get?_insert, if_neg h.symm]

end ScopeRecord

namespace World

variable {w v : World} {scope owner reader : ScopeId} {name other : String} {id : VariableId} {x : Value}

/-- The lambdas that follow a name at a scope. -/
def followersAt (w : World) (owner : ScopeId) (name : String) : List LambdaId :=
  (Entries.get? (w.scopeAt owner).listeners name).getD []

theorem followers_eq (w : World) (scope : ScopeId) (name : String) :
    w.followers scope name = w.followersAt (w.home scope name) name := rfl

/-- A lambda has come to follow a name at a scope. -/
structure Followed (w v : World) (owner : ScopeId) (name : String) (lambda : LambdaId) : Prop where
  joined : lambda ∈ v.followersAt owner name
  kept : w.followersAt owner name <+: v.followersAt owner name
  other {scope : ScopeId} {other : String} (h : scope ≠ owner ∨ other ≠ name) :
    v.followersAt scope other = w.followersAt scope other
  scope (scope : ScopeId) :
    v.scopeAt scope = { w.scopeAt scope with listeners := (v.scopeAt scope).listeners }
  vars : v.vars = w.vars

/-- A name means the same from a scope in both states. -/
structure MeansSame (w v : World) (scope : ScopeId) (name : String) : Prop where
  find : v.findVariable? scope name = w.findVariable? scope name
  has : v.hasName scope name = w.hasName scope name
  get (must : Bool) (ctx : Context) : ∃ r, scope.get name must ctx w = .done r w ∧
    scope.get name must ctx v = .done r v

/-- A scope gives a value under a name. -/
def Shows (w : World) (scope : ScopeId) (name : String) (value : Value) : Prop :=
  ∀ must ctx, scope.get name must ctx w = .value value w

/-- What is asked of scopes beside one name has the same answers in both states. -/
structure Framed (w v : World) (name : String) : Prop where
  meansSame {reader : ScopeId} (hr : reader.index < w.scopes.size) {other : String}
    (h : other ≠ name) : w.MeansSame v reader other
  parameters {reader : ScopeId} (hr : reader.index < w.scopes.size) :
    v.parameters reader = w.parameters reader
  getParameter {reader : ScopeId} (hr : reader.index < w.scopes.size) (key : String)
    (ctx : Context) : ∃ r, reader.getParameter key ctx w = .done r w ∧
      reader.getParameter key ctx v = .done r v

/-- A variable has another value. Every scope that may read it by its name shows the value, and from
the others the name means what it did. -/
structure Overwritten (w v : World) (name : String) (id : VariableId) (x : Value) : Prop where
  record : v.variableAt id = { w.variableAt id with value := x }
  others {j : VariableId} (hj : j.index < w.vars.size) (h : j ≠ id) : v.variableAt j = w.variableAt j
  shows {reader owner : ScopeId} (h : w.Nearest name reader owner id)
    (halive : (w.scopeAt reader).destroyed = false)
    (hread : (w.scopeAt reader).pure = false ∨ (w.variableAt id).isPureReadable = true) :
    v.Shows reader name x
  meansSame {reader : ScopeId} (hr : reader.index < w.scopes.size)
    (h : ∀ owner, ¬ w.Nearest name reader owner id) : w.MeansSame v reader name

/-- A scope binds a name to a new variable. From scopes below it that did not know the name the value is
seen, and from all others the name means what it did. -/
structure Extended (w v : World) (scope : ScopeId) (name : String) (x : Value) : Prop where
  bound : ∃ id, v.own? scope name = some id ∧ w.vars.size ≤ id.index ∧ (v.variableAt id).value = x
  shows {reader : ScopeId} (h : scope ∈ w.ancestors reader)
    (hnone : ∀ owner id, ¬ w.Nearest name reader owner id)
    (halive : (w.scopeAt reader).destroyed = false) (hread : (w.scopeAt reader).pure = false) :
    v.Shows reader name x
  nearer {reader owner : ScopeId} {id : VariableId} (hr : reader.index < w.scopes.size)
    (h : w.Nearest name reader owner id) : w.MeansSame v reader name
  unseen {reader : ScopeId} (hr : reader.index < w.scopes.size) (h : scope ∉ w.ancestors reader) :
    w.MeansSame v reader name

/-- A scope that may read the variable shows its value. -/
theorem shows_of_found (hname : isPositional name = false)
    (halive : (w.scopeAt scope).destroyed = false)
    (h : w.findVariable? scope name = some (owner, id))
    (hread : (w.scopeAt scope).pure = false ∨ (w.variableAt id).isPureReadable = true) :
    w.Shows scope name (w.variableAt id).value := by
  intro must ctx
  rw [get_eq_look, look_of_found hname halive h hread]
  rfl

/-- A name means what it meant if the same variable is found and has not changed, or else the same
parameter. -/
theorem MeansSame.of_find (hscope : v.scopeAt reader = { w.scopeAt reader with
      vars := (v.scopeAt reader).vars
      parameters := (v.scopeAt reader).parameters
      listeners := (v.scopeAt reader).listeners
      handlers := (v.scopeAt reader).handlers })
    (hfind : v.findVariable? reader other = w.findVariable? reader other)
    (hvariable : ∀ o j, w.findVariable? reader other = some (o, j) → v.variableAt j = w.variableAt j)
    (hparameter : isPositional other = true ∨ w.findVariable? reader other = none →
      v.findParameter? reader other = w.findParameter? reader other) :
    w.MeansSame v reader other := by
  refine ⟨hfind, ?_, fun must ctx => ⟨w.look reader other must, get_eq_look .., ?_⟩⟩
  · rw [hasName, hasName, hfind]
    cases hfound : w.findVariable? reader other with
    | none => rw [hparameter (.inr hfound)]
    | some found => rfl
  · have records : (v.findVariable? reader other).map (fun found => v.variableAt found.2) =
        (w.findVariable? reader other).map fun found => w.variableAt found.2 := by
      rw [hfind]
      exact Option.map_congr fun found hfound => hvariable found.1 found.2 hfound
    rw [get_eq_look, look_congr hscope records hparameter]

theorem Stands.meansSame (h : w.Stands v) (hw : w.Nested) (hr : reader.index < w.scopes.size)
    (hfind : v.findVariable? reader other = w.findVariable? reader other)
    (hvariable : ∀ o j, w.findVariable? reader other = some (o, j) → v.variableAt j = w.variableAt j) :
    w.MeansSame v reader other :=
  .of_find (by rw [h.scope hr]) hfind hvariable fun _ => h.findParameter? hw hr other

/-- From a reader a name is looked up at a scope above, since no nearer one declares it. -/
def Asks (w : World) (reader scope : ScopeId) (name : String) : Prop :=
  scope ∈ w.ancestors reader ∧ w.findVariable? reader name = w.findVariable? scope name

/-! ## Written variables -/

/-- The value has been written to a variable, to which a scope binds the name. All else is bound and
holds what it did. -/
structure Wrote (w v : World) (owner : ScopeId) (name : String) (id : VariableId) (x : Value) : Prop where
  stands : w.Stands v
  own {scope : ScopeId} {other : String} (hs : scope.index < w.scopes.size)
    (h : scope ≠ owner ∨ other ≠ name) : v.own? scope other = w.own? scope other
  bound : v.own? owner name = some id
  value : (v.variableAt id).value = x
  others {j : VariableId} (hj : j.index < w.vars.size) (h : j ≠ id) : v.variableAt j = w.variableAt j

/-- A scope forgets those who follow a name. -/
def forget (w : World) (scope : ScopeId) (name : String) : World :=
  w.modifyScope scope fun record =>
    { record with listeners := Entries.modify record.listeners name fun _ => [] }

theorem own?_forget (w : World) (scope other : ScopeId) (name key : String) :
    (w.forget scope name).own? other key = w.own? other key := by
  unfold own? forget
  rw [scopeAt_modifyScope]
  split <;> rfl

section Stands

variable {u : World}

theorem Keeps.stands (h : w.Keeps u) : w.Stands u :=
  ⟨h.scopes, fun hs => by rw [h.scope hs]⟩

theorem Stands.forget (h : w.Stands u) (scope : ScopeId) (name : String) :
    w.Stands (u.forget scope name) where
  size := Nat.le_trans h.size (by simp [World.forget, modifyScope])
  scope {other} hs := by
    unfold World.forget
    rw [scopeAt_modifyScope]
    split
    · rw [h.scope hs]
    · exact h.scope hs

theorem Stands.storeValue (h : w.Stands u) (id : VariableId) (x : Value) :
    w.Stands (u.storeValue id x) :=
  ⟨h.size, fun hs => h.scope hs⟩

theorem Stands.bindVariable (h : w.Stands u) (scope : ScopeId) (name : String)
    (record : VariableRecord) : w.Stands (u.bindVariable scope name record) where
  size := Nat.le_trans h.size (by simp [World.bindVariable, modifyScope])
  scope {other} hs := by
    rw [scopeAt_bindVariable]
    split
    · rw [h.scope hs]
    · exact h.scope hs

theorem Keeps.own? (h : w.Keeps u) {scope : ScopeId} (hs : scope.index < w.scopes.size) (key : String) :
    u.own? scope key = w.own? scope key := by
  rw [World.own?, h.scope hs, ← World.own?]

/-- The value of a variable is stored. -/
theorem Wrote.ofStore (hw : w.Nested) (hu : w.Keeps u) (hown : w.own? owner name = some id)
    (howner : owner.index < w.scopes.size) : w.Wrote (u.storeValue id x) owner name id x where
  stands := hu.stands.storeValue id x
  own hs _ := hu.own? hs _
  bound := (hu.own? howner name).trans hown
  value := by
    have hlt := hw.bound (Entries.mem_of_get?_eq_some hown)
    rw [World.storeValue, variableAt_modifyVariable, if_pos ⟨rfl, Nat.lt_of_lt_of_le hlt hu.vars⟩]
  others hj hne := by
    rw [World.storeValue, variableAt_modifyVariable, if_neg fun found => hne found.1.symm, hu.record hj]

/-- A scope binds the name to a new variable. -/
theorem Wrote.ofBind (hu : w.Keeps u) (howner : owner.index < w.scopes.size)
    {record : VariableRecord} (hvalue : record.value = x) :
    w.Wrote (u.bindVariable owner name record) owner name ⟨u.vars.size⟩ x where
  stands := hu.stands.bindVariable owner name record
  own hs h := by
    rw [own?_bindVariable, if_neg, hu.own? hs]
    rintro ⟨rfl, -, rfl⟩
    exact h.elim (fun h => h rfl) fun h => h rfl
  bound := by rw [own?_bindVariable, if_pos ⟨rfl, Nat.lt_of_lt_of_le howner hu.scopes, rfl⟩]
  value := by rw [variableAt_bindVariable, if_pos rfl, hvalue]
  others hj hne := by
    rw [variableAt_bindVariable, if_neg, hu.record hj]
    exact Nat.ne_of_lt (Nat.lt_of_lt_of_le hj hu.vars)

/-- After the write nobody follows the name. -/
theorem Wrote.forget (h : w.Wrote u owner name id x) : w.Wrote (u.forget owner name) owner name id x where
  stands := h.stands.forget owner name
  own hs hne := (own?_forget ..).trans (h.own hs hne)
  bound := (own?_forget ..).trans h.bound
  value := h.value
  others hj hne := h.others hj hne

end Stands

namespace Wrote

variable (h : w.Wrote v owner name id x) (hw : w.Nested) (hr : reader.index < w.scopes.size)
include h hw hr

/-- A name that is found to be a variable that was not written means the same. -/
theorem meansSame (hfind : v.findVariable? reader other = w.findVariable? reader other)
    (hother : ∀ o j, w.findVariable? reader other = some (o, j) → j ≠ id) :
    w.MeansSame v reader other :=
  h.stands.meansSame hw hr hfind fun o j hfound =>
    h.others (hw.bound (of_findVariable? hfound).2) (hother o j hfound)

/-- Other names mean what they did. -/
theorem meansSame_of_ne (hid : w.own? owner name = some id ∨ w.vars.size ≤ id.index)
    (hne : other ≠ name) : w.MeansSame v reader other := by
  refine h.meansSame hw hr (h.stands.findVariable? hw hr fun above habove => ?_) ?_
  · exact h.own (Nat.lt_of_le_of_lt (hw.index_le habove) hr) (.inr hne)
  · rintro o j hfound rfl
    have hmem := (of_findVariable? hfound).2
    rcases hid with hid | hid
    · exact hne (hw.named (Entries.mem_of_get?_eq_some hid) hmem)
    · exact absurd (hw.bound hmem) (Nat.not_lt.2 hid)

/-- A variable that was there has been written, so all lookups end as they did. -/
theorem find_of_own (hown : w.own? owner name = some id) (other : String) :
    v.findVariable? reader other = w.findVariable? reader other := by
  refine h.stands.findVariable? hw hr fun above habove => ?_
  by_cases hne : above ≠ owner ∨ other ≠ name
  · exact h.own (Nat.lt_of_le_of_lt (hw.index_le habove) hr) hne
  · obtain ⟨rfl, rfl⟩ : above = owner ∧ other = name := by
      simpa [not_or] using hne
    rw [h.bound, hown]

/-- The lookup goes from a scope to its parent also in the second state. -/
theorem findVariable?_eq : v.findVariable? reader other =
    match v.own? reader other with
    | some id => some (reader, id)
    | none =>
      match (w.scopeAt reader).parent with
      | some parent => v.findVariable? parent other
      | none => none := by
  rw [findVariable?, h.stands.ancestors hw hr, hw.ancestors_eq, List.findSome?_cons]
  unfold own?
  cases Entries.get? (v.scopeAt reader).vars other with
  | some id => rfl
  | none =>
    cases hparent : (w.scopeAt reader).parent with
    | none => rfl
    | some parent =>
      dsimp only
      rw [findVariable?, h.stands.ancestors hw (Nat.lt_trans (hw.parent_lt hparent) hr)]
      rfl

/-- Where the lookup does not come to the scope that has written the name, it ends as it did. -/
theorem find_of_not_asks (hnot : ¬ w.Asks reader owner name) :
    v.findVariable? reader name = w.findVariable? reader name := by
  induction hi : reader.index using Nat.strongRecOn generalizing reader with
  | _ i ih =>
    subst hi
    have hne : reader ≠ owner := by
      rintro rfl
      exact hnot ⟨w.mem_ancestors_self reader, rfl⟩
    have hfind := hw.findVariable?_eq reader name
    rw [h.findVariable?_eq hw hr, h.own hr (.inl hne), hfind]
    cases hown : w.own? reader name with
    | some found => rfl
    | none =>
      cases hparent : (w.scopeAt reader).parent with
      | none => rfl
      | some parent =>
        rw [hown, hparent] at hfind
        have hlt := hw.parent_lt hparent
        refine ih parent.index hlt (Nat.lt_trans hlt hr) ?_ rfl
        rintro ⟨hmem, same⟩
        exact hnot ⟨hw.mem_ancestors_iff.2 (.inr ⟨parent, hparent, hmem⟩), hfind.trans same⟩

/-- Where the lookup does not come to the scope that has written a new variable, the name means what it
did. -/
theorem meansSame_of_not_asks (hid : w.vars.size ≤ id.index) (hnot : ¬ w.Asks reader owner name) :
    w.MeansSame v reader name := by
  refine h.meansSame hw hr (h.find_of_not_asks hw hr hnot) ?_
  rintro o j hfound rfl
  exact absurd (hw.bound (of_findVariable? hfound).2) (Nat.not_lt.2 hid)

/-- From a scope that did not know the name, the new variable is found if the scope that declares it is
above. -/
theorem find_of_mem (hnone : w.findVariable? reader name = none) (hmem : owner ∈ w.ancestors reader) :
    v.findVariable? reader name = some (owner, id) := by
  induction hi : reader.index using Nat.strongRecOn generalizing reader with
  | _ i ih =>
    subst hi
    rw [h.findVariable?_eq hw hr]
    by_cases hself : reader = owner
    · rw [hself, h.bound]
    · have hown : w.own? reader name = none :=
        findVariable?_eq_none_iff.1 hnone reader (w.mem_ancestors_self reader)
      rw [h.own hr (.inl hself), hown]
      rcases hw.mem_ancestors_iff.1 hmem with rfl | ⟨parent, hparent, hmem⟩
      · exact absurd rfl hself
      · rw [hparent]
        have hlt := hw.parent_lt hparent
        refine ih parent.index hlt (Nat.lt_trans hlt hr) ?_ hmem rfl
        rw [hw.findVariable?_eq, hown, hparent] at hnone
        exact hnone

omit hw in
/-- A scope that may read the written variable shows the written value. -/
theorem shows {o : ScopeId} (hname : isPositional name = false) (halive : (w.scopeAt reader).destroyed = false)
    (hfound : v.findVariable? reader name = some (o, id))
    (hread : (w.scopeAt reader).pure = false ∨ (v.variableAt id).isPureReadable = true) :
    v.Shows reader name x := by
  have same := h.stands.scope hr
  have shown := shows_of_found hname (by rw [same, halive]) hfound (by rw [same]; exact hread)
  rwa [h.value] at shown

end Wrote

section Outcomes

variable (h : w.Wrote v owner name id x) (hw : w.Nested)
include h hw

/-- Beside the name nothing has changed. -/
theorem Wrote.framed (hid : w.own? owner name = some id ∨ w.vars.size ≤ id.index) :
    w.Framed v name where
  meansSame hr _ hne := h.meansSame_of_ne hw hr hid hne
  parameters hr := h.stands.parameters hw hr
  getParameter {reader} hr key ctx := by
    have same := h.stands.scope hr
    have destroyed : (v.scopeAt reader).destroyed = (w.scopeAt reader).destroyed := by rw [same]
    have text : v.scopeText reader = w.scopeText reader := by rw [scopeText, scopeText, same]
    refine ⟨w.lookParameter reader key, getParameter_eq_lookParameter .., ?_⟩
    rw [getParameter_eq_lookParameter, lookParameter, lookParameter, destroyed, text,
      h.stands.findParameter? hw hr]

/-- A variable that was there has been overwritten. -/
theorem Wrote.overwritten (hname : isPositional name = false) (hown : w.own? owner name = some id)
    (hrecord : v.variableAt id = { w.variableAt id with value := x }) : w.Overwritten v name id x := by
  have find {reader : ScopeId} (hr : reader.index < w.scopes.size) :
      v.findVariable? reader name = w.findVariable? reader name := h.find_of_own hw hr hown name
  refine ⟨hrecord, h.others, fun {reader o} hn halive hread => ?_, fun {reader} hr hnot => ?_⟩
  · have hr := lt_of_alive halive
    refine h.shows hr hname halive ((find hr).trans (hw.findVariable?_eq_some_iff.2 hn)) ?_
    rw [hrecord]
    exact hread
  · refine h.meansSame hw hr (find hr) fun o j hfound => ?_
    rintro rfl
    exact hnot o (hw.findVariable?_eq_some_iff.1 hfound)

/-- A scope that did not know the name has been extended. -/
theorem Wrote.extended (hname : isPositional name = false) (hnew : w.findVariable? owner name = none)
    (fresh : w.vars.size ≤ id.index) : w.Extended v owner name x where
  bound := ⟨id, h.bound, fresh, h.value⟩
  shows {reader} hmem hnone halive hread := by
    have hr := lt_of_alive halive
    have none : w.findVariable? reader name = none := by
      cases hfound : w.findVariable? reader name with
      | none => rfl
      | some found => exact (hnone _ _ (hw.findVariable?_eq_some_iff.1 hfound)).elim
    exact h.shows hr hname halive (h.find_of_mem hw hr none hmem) (.inl hread)
  nearer hr hn := by
    have hfound := hw.findVariable?_eq_some_iff.2 hn
    refine h.meansSame_of_not_asks hw hr fresh fun asks => ?_
    rw [asks.2, hnew] at hfound
    cases hfound
  unseen hr hnot := h.meansSame_of_not_asks hw hr fresh fun asks => hnot asks.1

end Outcomes

end World

/-- Nobody follows the name, so nobody is told. -/
theorem ScopeId.notify_of_no_followers {scope : ScopeId} {name : String} {ctx : Context} {w : World}
    (h : w.followersAt scope name = []) :
    scope.notify name ctx w = .value () (w.forget scope name) := by
  have nobody : (Entries.get? (w.scopeAt scope).listeners name).getD [] = [] := h
  unfold notify liveListeners record
  simp only [Eval.bind_apply, Eval.gets_apply, Outcome.bind_value, nobody]
  rfl

end Reactor
