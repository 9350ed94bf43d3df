import Reactor.Proofs.Network.Write

/-!
# Growth of a network

Registrations come and go, and new lambdas are made of those that are there. What was wired stays wired,
and no lambda that was there gives anything else than before (`InOrder.grown`).

* `InOrder.modifyListeners` : callbacks are registered, or their registrations end.
* `InOrder.withLookup` : a new lambda reads a variable.
* `InOrder.withScript` : a new lambda computes something of others.
-/

namespace Reactor

namespace Entries

variable {κ : Type} [DecidableEq κ] {α : Type}

theorem mem_insert_self (entries : Entries κ α) (key : κ) (value : α) :
    (key, value) ∈ insert entries key value :=
  mem_of_get?_eq_some ((get?_insert ..).trans (if_pos rfl))

/-- A new key leaves all entries in place. -/
theorem mem_insert_of_new {entries : Entries κ α} {key : κ} {value : α} (h : entries.get? key = none)
    {entry : κ × α} (hentry : entry ∈ entries) : entry ∈ insert entries key value := by
  induction entries with
  | nil => cases hentry
  | cons first rest ih =>
    obtain ⟨k, a⟩ := first
    by_cases hk : k = key
    · rw [get?, if_pos hk] at h
      cases h
    · rw [get?, if_neg hk] at h
      rw [insert, if_neg hk]
      rcases List.mem_cons.1 hentry with rfl | hentry
      · exact List.mem_cons_self
      · exact List.mem_cons_of_mem _ (ih h hentry)

theorem contains_of_mem {entries : Entries κ α} {key : κ} {value : α} (h : (key, value) ∈ entries) :
    entries.contains key = true := by
  induction entries with
  | nil => cases h
  | cons first rest ih =>
    obtain ⟨k, a⟩ := first
    by_cases hk : k = key
    · simp [contains, get?, hk]
    · have later := (List.mem_cons.1 h).resolve_left fun same => hk (congrArg Prod.fst same).symm
      simpa [contains, get?, hk] using ih later

end Entries

namespace LambdaRecord

variable {id : LambdaId} {record : LambdaRecord} {key : ListenerKey} {listener : Listener}

/-- Registers a lambda that depends on the one of the record, unless it is registered already. -/
def enlist (id : LambdaId) (record : LambdaRecord) : LambdaRecord :=
  if Entries.contains record.listeners (.dependent id) then record
  else { record with listeners := Entries.insert record.listeners (.dependent id) (.dependent id) }

theorem enlist_eq (id : LambdaId) (record : LambdaRecord) :
    record.enlist id = { record with listeners := (record.enlist id).listeners } := by
  unfold enlist
  split <;> rfl

theorem contains_enlist_self (id : LambdaId) (record : LambdaRecord) :
    Entries.contains (record.enlist id).listeners (.dependent id) = true := by
  unfold enlist
  split
  · assumption
  · simp [Entries.contains_insert]

theorem contains_enlist (h : Entries.contains record.listeners key = true) :
    Entries.contains (record.enlist id).listeners key = true := by
  unfold enlist
  split
  · exact h
  · simp [Entries.contains_insert, h]

theorem mem_enlist (h : (key, listener) ∈ (record.enlist id).listeners) :
    (key, listener) ∈ record.listeners ∨ (key = .dependent id ∧ listener = .dependent id) := by
  unfold enlist at h
  split at h
  · exact .inl h
  · rcases Entries.mem_insert h with h | h
    · exact .inl h
    · cases h
      exact .inr ⟨rfl, rfl⟩

end LambdaRecord

/-- A lambda of a scope that has not been computed and with which nothing is registered. -/
structure LambdaRecord.New (scope : ScopeId) (record : LambdaRecord) : Prop where
  scope : record.scope = scope
  cache : record.cache = .empty
  listeners : record.listeners = []
  followed : record.followed = none
  notifying : record.notifying = []

/-- A plan with one more lambda. -/
def Plan.extended (plan : Plan) (n : Nat) (node : Node) : Plan :=
  fun i => if i = n then node else plan i

namespace World

variable {scope : ScopeId} {plan later : Plan} {need : Nat} {calm : Prop} {u v w : World}
  {k : LambdaId} {name : String}

/-! ## States whose scopes differ in who follows variables -/

section Scopes

variable (hscope : ∀ id, v.scopeAt id =
    { w.scopeAt id with listeners := (v.scopeAt id).listeners })
include hscope

theorem ancestors_of_scopeAt : v.ancestors = w.ancestors := by
  funext id
  refine ancestors_of_parents (fun other => ?_) id
  rw [hscope]

theorem findVariable?_of_scopeAt (scope : ScopeId) (name : String) :
    v.findVariable? scope name = w.findVariable? scope name := by
  have vars (id : ScopeId) : (v.scopeAt id).vars = (w.scopeAt id).vars := by rw [hscope]
  rw [findVariable?, findVariable?, ancestors_of_scopeAt hscope]
  simp only [vars]

theorem home_of_scopeAt (scope : ScopeId) (name : String) : v.home scope name = w.home scope name := by
  rw [home, home, findVariable?_of_scopeAt hscope]

theorem findParameter?_of_scopeAt (scope : ScopeId) (key : String) :
    v.findParameter? scope key = w.findParameter? scope key := by
  have parameters (id : ScopeId) : (v.scopeAt id).parameters = (w.scopeAt id).parameters := by
    rw [hscope]
  have parameterScope (id : ScopeId) :
      (v.scopeAt id).parameterScope = (w.scopeAt id).parameterScope := by rw [hscope]
  unfold findParameter? parameterScopes
  rw [ancestors_of_scopeAt hscope]
  simp only [parameters, parameterScope]

variable (hvars : v.vars = w.vars)
include hvars

theorem Readable.of_scopeAt (hw : w.Readable scope) : v.Readable scope := by
  have variableAt (id : VariableId) : v.variableAt id = w.variableAt id := by
    rw [World.variableAt, World.variableAt, hvars]
  have find (name : String) := findVariable?_of_scopeAt hscope scope name
  refine ⟨?_, fun {above} hmem => ?_, fun hf => ?_, fun hf => ?_, fun hf c hc => ?_,
    fun hf hf' => ?_, fun hp => ?_⟩
  · rw [hscope]
    exact hw.alive
  · rw [ancestors_of_scopeAt hscope] at hmem
    rw [hscope]
    exact hw.unhandled hmem
  · rw [find] at hf
    rw [hvars]
    exact hw.bound hf
  · rw [find] at hf
    rw [variableAt]
    exact hw.plain hf
  · rw [find] at hf
    rw [variableAt] at hc
    exact hw.condition hf hc
  · rw [find] at hf hf'
    exact hw.distinct hf hf'
  · rw [findParameter?_of_scopeAt hscope] at hp
    exact hw.parameter hp

theorem means_of_scopeAt : v.means scope = w.means scope := by
  funext name
  have variableAt (id : VariableId) : v.variableAt id = w.variableAt id := by
    rw [World.variableAt, World.variableAt, hvars]
  refine means_eq_of_found ?_ ?_ (findParameter?_of_scopeAt hscope scope name)
  · rw [hscope]
  · rw [findVariable?_of_scopeAt hscope]
    simp only [variableAt]

end Scopes

/-! ## More registrations and more lambdas -/

/-- The second state has all lambdas of the first one and all that is registered between them. It may
have more lambdas, and other callbacks. -/
structure Grown (scope : ScopeId) (plan later : Plan) (w v : World) : Prop where
  config : v.config = w.config
  vars : v.vars = w.vars
  scopes (id : ScopeId) : v.scopeAt id = { w.scopeAt id with listeners := (v.scopeAt id).listeners }
  keys {id : ScopeId} (h : (Entries.keys (w.scopeAt id).listeners).Nodup) :
    (Entries.keys (v.scopeAt id).listeners).Nodup
  register {name : String} {x : Value} (h : Entries.get? w.desk.registers name = some x) :
    Entries.get? v.desk.registers name = some x
  held {place : Place} (h : place ∈ entriesPlaces w.desk.registers) :
    place ∈ entriesPlaces v.desk.registers
  size : w.lambdas.size ≤ v.lambdas.size
  record {k : LambdaId} (hk : k.index < w.lambdas.size) : v.lambdaAt k =
    { w.lambdaAt k with
      listeners := (v.lambdaAt k).listeners
      nextListener := (v.lambdaAt k).nextListener }
  edge {k id : LambdaId} (hk : k.index < w.lambdas.size)
    (h : Entries.contains (w.lambdaAt k).listeners (.dependent id) = true) :
    Entries.contains (v.lambdaAt k).listeners (.dependent id) = true
  follower (name : String) (k : LambdaId) : k ∈ v.followers scope name ↔
    k ∈ w.followers scope name ∨
      (w.lambdas.size ≤ k.index ∧ k.index < v.lambdas.size ∧ (v.lambdaAt k).body = .lookup name)
  plan {i : Nat} (hi : i < w.lambdas.size) : later i = plan i

namespace Grown

variable (h : w.Grown scope plan later v)
include h

theorem registered {key : ListenerKey} {listener : Listener}
    (hl : w.Registered plan need calm k key listener) : v.Registered later need calm k key listener := by
  cases hl with
  | dependent hid hk =>
    exact .dependent (Nat.lt_of_lt_of_le hid h.size) (h.plan hid ▸ hk)
  | callback hkey ho => exact .callback hkey (ho.later fun _ _ => h.register)

theorem shallow (hw : w.Wired scope plan need calm) {n : Nat} (hk : k.index < w.lambdas.size)
    (hn : w.Shallow n k) : v.Shallow n k := by
  induction n generalizing k with
  | zero => exact hn
  | succ n ih =>
    intro id hid
    rw [h.record hk] at hid
    refine ih (hw.lt_of_input hk ?_) (hn id hid)
    rw [hw.inputs_eq hk]
    exact hid

theorem wiredAt (hw : w.Wired scope plan need calm) (hk : k.index < w.lambdas.size)
    (hregistered : ∀ key listener, (key, listener) ∈ (v.lambdaAt k).listeners →
      (key, listener) ∈ (w.lambdaAt k).listeners ∨ v.Registered later need calm k key listener) :
    v.WiredAt scope later need calm k where
  follows := by
    have follows := (hw.lambda hk).follows
    rw [h.plan hk, h.record hk]
    generalize plan k.index = node at follows
    cases follows with
    | lookup hb hi => exact .lookup hb hi
    | script hb he hf => exact .script hb (he.later fun _ _ => h.register) hf
  scope := by
    rw [h.record hk]
    exact (hw.lambda hk).scope
  followed := by
    rw [h.record hk]
    exact (hw.lambda hk).followed
  held := h.held (hw.lambda hk).held
  older hid := by
    rw [h.plan hk] at hid
    exact (hw.lambda hk).older hid
  edge hid := by
    rw [h.plan hk] at hid
    exact h.edge (hw.lt_of_input hk hid) ((hw.lambda hk).edge hid)
  registered hl := by
    rcases hregistered _ _ hl with hl | hl
    · exact h.registered ((hw.lambda hk).registered hl)
    · exact hl
  shallow := by
    rw [h.config]
    exact h.shallow hw hk (hw.lambda hk).shallow

theorem answer (hk : k.index < w.lambdas.size) : v.answer scope later k = w.answer scope plan k := by
  rw [World.answer, World.answer, h.config, means_of_scopeAt h.scopes h.vars]
  exact Plan.answer_congr (P := fun i => i < w.lambdas.size) (fun _ hi => h.plan hi) (fun _ _ _ => rfl)
    (fun i hi id _ hlt => Nat.lt_trans hlt hi) hk

end Grown

/-- A network that has grown is in order if its new lambdas are wired and have not been computed. -/
theorem InOrder.grown (hw : w.InOrder scope plan need calm) (h : w.Grown scope plan later v)
    (hregistered : ∀ {k : LambdaId}, k.index < w.lambdas.size → ∀ key listener,
      (key, listener) ∈ (v.lambdaAt k).listeners →
      (key, listener) ∈ (w.lambdaAt k).listeners ∨ v.Registered later need calm k key listener)
    (hnew : ∀ {k : LambdaId}, w.lambdas.size ≤ k.index → k.index < v.lambdas.size →
      v.WiredAt scope later need calm k ∧ (v.lambdaAt k).cache = .empty ∧
        (v.lambdaAt k).notifying = []) : v.InOrder scope later need calm := by
  have outside {k : LambdaId} (hk : v.lambdas.size ≤ k.index) : v.lambdaAt k = default :=
    lambdaAt_of_size_le hk
  refine ⟨⟨hw.wired.readable.of_scopeAt h.scopes h.vars, fun hc => ?_, fun id => h.keys (hw.wired.keys id),
    fun {k} hk => ?_, fun {k} hk name hb => ?_, fun {name k} hk => ?_⟩, ⟨fun k id => ?_, fun k => ?_⟩,
    fun {k x} hc => ?_⟩
  · rw [h.config]
    exact hw.wired.failFast hc
  · rcases Nat.lt_or_ge k.index w.lambdas.size with hlt | hge
    · exact h.wiredAt hw.wired hlt (hregistered hlt)
    · exact (hnew hge hk).1
  · rw [h.follower]
    rcases Nat.lt_or_ge k.index w.lambdas.size with hlt | hge
    · rw [h.record hlt] at hb
      exact .inl (hw.wired.follower hlt hb)
    · exact .inr ⟨hge, hk, hb⟩
  · rcases (h.follower name k).1 hk with hk | ⟨-, hlt, hb⟩
    · obtain ⟨hlt, hb⟩ := hw.wired.reader hk
      refine ⟨Nat.lt_of_lt_of_le hlt h.size, ?_⟩
      rw [h.record hlt]
      exact hb
    · exact ⟨hlt, hb⟩
  · rcases Nat.lt_or_ge k.index w.lambdas.size with hlt | hge
    · rw [h.record hlt]
      exact hw.idle.computed k id
    · rcases Nat.lt_or_ge k.index v.lambdas.size with hlt | hge'
      · rw [(hnew hge hlt).2.1]
        intro hc
        cases hc
      · rw [outside hge']
        intro hc
        cases hc
  · rcases Nat.lt_or_ge k.index w.lambdas.size with hlt | hge
    · rw [h.record hlt]
      exact hw.idle.notified k
    · rcases Nat.lt_or_ge k.index v.lambdas.size with hlt | hge'
      · exact (hnew hge hlt).2.2
      · rw [outside hge']
        rfl
  · rcases Nat.lt_or_ge k.index w.lambdas.size with hlt | hge
    · rw [h.answer hlt]
      rw [h.record hlt] at hc
      exact hw.coherent hc
    · rcases Nat.lt_or_ge k.index v.lambdas.size with hlt | hge'
      · rw [(hnew hge hlt).2.1] at hc
        cases hc
      · rw [outside hge'] at hc
        cases hc

/-! ## Callbacks -/

/-- Callbacks are registered with a lambda, or their registrations end. -/
theorem InOrder.modifyListeners (hw : w.InOrder scope plan need calm) (k : LambdaId)
    {f : LambdaRecord → LambdaRecord}
    (hf : ∀ r, f r = { r with listeners := (f r).listeners, nextListener := (f r).nextListener })
    (hedge : ∀ r id, Entries.contains r.listeners (.dependent id) = true →
      Entries.contains (f r).listeners (.dependent id) = true)
    (hcallback : ∀ r key listener, (key, listener) ∈ (f r).listeners →
      (key, listener) ∈ r.listeners ∨ ∃ c : Callback, listener = .callback c ∧
        (∀ id, key ≠ .dependent id) ∧ c.body.Observes c.scope w.desk.registers need (Permitted calm)) :
    (w.modifyLambda k f).InOrder scope plan need calm := by
  have size : (w.modifyLambda k f).lambdas.size = w.lambdas.size := Array.size_modify ..
  have same : w.Grown scope plan plan (w.modifyLambda k f) := by
    refine ⟨rfl, rfl, fun _ => rfl, fun h => h, fun h => h, fun h => h, Nat.le_of_eq size.symm,
      fun {j} _ => ?_, fun {j id} _ h => ?_, fun name j => ?_, fun _ => rfl⟩
    · rw [lambdaAt_modifyLambda]
      split
      · exact hf _
      · rfl
    · rw [lambdaAt_modifyLambda]
      split
      · exact hedge _ _ h
      · exact h
    · have followers : (w.modifyLambda k f).followers scope name = w.followers scope name :=
        followers_congr (w := w) (v := w.modifyLambda k f) rfl scope name
      rw [followers]
      refine ⟨fun h => .inl h, ?_⟩
      rintro (h | ⟨hge, hlt, -⟩)
      · exact h
      · exact absurd (size ▸ hlt) (Nat.not_lt.2 hge)
  refine hw.grown same (fun {j} _ key listener hl => ?_) fun hge hlt =>
    absurd (size ▸ hlt) (Nat.not_lt.2 hge)
  rw [lambdaAt_modifyLambda] at hl
  split at hl
  · rcases hcallback _ _ _ hl with hl | ⟨c, rfl, hkey, ho⟩
    · exact .inl hl
    · exact .inr (.callback hkey ho)
  · exact .inl hl

/-! ## New lambdas -/

theorem lambdaAt_push (w : World) (record : LambdaRecord) (k : LambdaId) :
    ({ w with lambdas := w.lambdas.push record } : World).lambdaAt k =
      if k.index = w.lambdas.size then record else w.lambdaAt k :=
  getD_push ..

/-- A lambda is registered with others, each of which may have been registered with already. -/
structure Enlisted (id : LambdaId) (ks : List LambdaId) (w v : World) : Prop where
  rest : v = { w with lambdas := v.lambdas }
  size : v.lambdas.size = w.lambdas.size
  record (k : LambdaId) : v.lambdaAt k = { w.lambdaAt k with listeners := (v.lambdaAt k).listeners }
  edge {k other : LambdaId} (h : Entries.contains (w.lambdaAt k).listeners (.dependent other) = true) :
    Entries.contains (v.lambdaAt k).listeners (.dependent other) = true
  listener {k : LambdaId} {key : ListenerKey} {listener : Listener}
    (h : (key, listener) ∈ (v.lambdaAt k).listeners) : (key, listener) ∈ (w.lambdaAt k).listeners ∨
      (k ∈ ks ∧ key = .dependent id ∧ listener = .dependent id)
  enlisted {k : LambdaId} (h : k ∈ ks) :
    Entries.contains (v.lambdaAt k).listeners (.dependent id) = true

theorem modifyLambda_of_eq {w : World} {k : LambdaId} {f : LambdaRecord → LambdaRecord}
    (h : f (w.lambdaAt k) = w.lambdaAt k) :
    w.modifyLambda k f = w := by
  have same : w.lambdas.modify k.index f = w.lambdas := by
    refine Array.ext (Array.size_modify ..) fun i hi hi' => ?_
    rw [Array.getElem_modify]
    split
    · rename_i hk
      subst hk
      simpa [lambdaAt, Array.getD, hi'] using h
    · rfl
  rw [modifyLambda, same]

theorem addDependent_eq {source id : LambdaId} (hne : id ≠ source) :
    (w.addDependent source id).1 = w.modifyLambda source (.enlist id) := by
  unfold addDependent
  by_cases h : Entries.contains (w.lambdaAt source).listeners (.dependent id) = true
  · have same : (w.lambdaAt source).enlist id = w.lambdaAt source := if_pos h
    rw [if_pos (.inr h), modifyLambda_of_eq same]
  · rw [if_neg (by simp [hne, h])]
    refine congrArg (fun lambdas => { w with lambdas }) (Array.ext ?_ fun i hi hi' => ?_)
    · rw [Array.size_modify, Array.size_modify]
    · rw [Array.getElem_modify, Array.getElem_modify]
      split
      · rename_i found
        subst found
        rw [Array.size_modify] at hi
        have record : w.lambdas[source.index] = w.lambdaAt source := by
          simp [lambdaAt, Array.getD, hi]
        rw [record]
        exact (if_neg h).symm
      · rfl

theorem Enlisted.cons {id source : LambdaId} {ks : List LambdaId} (hne : id ≠ source)
    (hlt : source.index < w.lambdas.size) (h : (w.addDependent source id).1.Enlisted id ks v) :
    w.Enlisted id (source :: ks) v := by
  rw [addDependent_eq hne] at h
  have changed (k : LambdaId) := lambdaAt_modifyLambda w source k (.enlist id)
  refine ⟨h.rest, h.size.trans (Array.size_modify ..), fun k => ?_, fun {k other} hk => h.edge ?_,
    fun {k key listener} hl => ?_, fun {k} hk => ?_⟩
  · rw [h.record k, changed]
    split
    · rw [LambdaRecord.enlist_eq]
    · rfl
  · rw [changed]
    split
    · exact LambdaRecord.contains_enlist hk
    · exact hk
  · rcases h.listener hl with hl | ⟨hk, hl⟩
    · rw [changed] at hl
      split at hl
      · rename_i hk
        rcases LambdaRecord.mem_enlist hl with hl | hl
        · exact .inl hl
        · exact .inr ⟨hk.1 ▸ List.mem_cons_self, hl⟩
      · exact .inl hl
    · exact .inr ⟨List.mem_cons_of_mem _ hk, hl⟩
  · rcases List.mem_cons.1 hk with rfl | hk
    · refine h.edge ?_
      rw [changed, if_pos ⟨rfl, hlt⟩]
      exact LambdaRecord.contains_enlist_self _ _
    · exact h.enlisted hk

/-- A lambda is registered with others in turn. -/
theorem enlisted_foldl {id : LambdaId} {ks : List LambdaId}
    (h : ∀ k ∈ ks, k.index < id.index ∧ k.index < w.lambdas.size) :
    w.Enlisted id ks (ks.foldl (fun w source => (w.addDependent source id).1) w) := by
  induction ks generalizing w with
  | nil =>
    exact ⟨rfl, rfl, fun _ => rfl, fun h => h, fun h => .inl h, fun h => (List.not_mem_nil h).elim⟩
  | cons source ks ih =>
    obtain ⟨⟨holder, hlt⟩, h⟩ := List.forall_mem_cons.1 h
    have hne : id ≠ source := fun he => absurd holder (he ▸ Nat.lt_irrefl _)
    refine .cons hne hlt (ih fun k hk => ⟨(h k hk).1, ?_⟩)
    rw [addDependent_eq hne]
    exact Nat.lt_of_lt_of_eq (h k hk).2 (Array.size_modify ..).symm

/-- A lambda is registered with all lambdas among some values. -/
theorem foldl_addDependent (id : LambdaId) (values : List Value) (w : World) :
    values.foldl (fun v value => match value.lambda? with
      | some source => (v.addDependent source id).1
      | none => v) w = (lambdasOf values).foldl (fun v source => (v.addDependent source id).1) w := by
  induction values generalizing w with
  | nil => rfl
  | cons value values ih =>
    rw [List.foldl_cons, ih]
    cases hl : value.lambda? with
    | none =>
      have same : lambdasOf (value :: values) = lambdasOf values := by simp [lambdasOf, hl]
      rw [same]
    | some source =>
      have split : lambdasOf (value :: values) = source :: lambdasOf values := by
        simp [lambdasOf, hl]
      rw [split, List.foldl_cons]

/-- A new lambda is registered with all lambdas among its inputs. -/
theorem new_apply (record : LambdaRecord) (ctx : Context) (w : World) :
    LambdaId.new record ctx w = .value ⟨w.lambdas.size⟩
      ((lambdasOf record.inputs).foldl (fun x source => (x.addDependent source ⟨w.lambdas.size⟩).1)
        { w with lambdas := w.lambdas.push record }) :=
  congrArg (Outcome.value _) (foldl_addDependent _ _ _)

section New

variable {record : LambdaRecord} {node : Node} {register : String}

/-- A lambda has been made of others. It is registered with them, and the host holds it. -/
structure Joined (scope : ScopeId) (record : LambdaRecord) (register : String) (w v : World) : Prop where
  config : v.config = w.config
  vars : v.vars = w.vars
  scopes (id : ScopeId) : v.scopeAt id = { w.scopeAt id with listeners := (v.scopeAt id).listeners }
  keys {id : ScopeId} (h : (Entries.keys (w.scopeAt id).listeners).Nodup) :
    (Entries.keys (v.scopeAt id).listeners).Nodup
  registers : v.desk.registers =
    Entries.insert w.desk.registers register (.lambda ⟨w.lambdas.size⟩)
  lambdas : ∃ u, World.Enlisted ⟨w.lambdas.size⟩ (lambdasOf record.inputs)
    { w with lambdas := w.lambdas.push record } u ∧ v.lambdas = u.lambdas
  follower (name : String) (k : LambdaId) : k ∈ v.followers scope name ↔
    k ∈ w.followers scope name ∨ (k.index = w.lambdas.size ∧ record.body = .lookup name)

namespace Joined

variable (h : w.Joined scope record register v)
include h

theorem size : v.lambdas.size = w.lambdas.size + 1 := by
  obtain ⟨u, enlisted, hlambdas⟩ := h.lambdas
  rw [hlambdas, enlisted.size]
  exact Array.size_push _

/-- All lambdas are as they were made, but for those that are registered with them. -/
theorem record_eq (k : LambdaId) : v.lambdaAt k =
    { if k.index = w.lambdas.size then record else w.lambdaAt k with listeners := (v.lambdaAt k).listeners } := by
  obtain ⟨u, enlisted, hlambdas⟩ := h.lambdas
  rw [lambdaAt, hlambdas, ← lambdaAt, ← lambdaAt_push]
  exact enlisted.record k

theorem old (hk : k.index < w.lambdas.size) :
    v.lambdaAt k = { w.lambdaAt k with listeners := (v.lambdaAt k).listeners } := by
  have same := h.record_eq k
  rwa [if_neg (Nat.ne_of_lt hk)] at same

theorem self : v.lambdaAt ⟨w.lambdas.size⟩ =
    { record with listeners := (v.lambdaAt ⟨w.lambdas.size⟩).listeners } := by
  have same := h.record_eq ⟨w.lambdas.size⟩
  rwa [if_pos rfl] at same

theorem edge {id : LambdaId} (hk : k.index < w.lambdas.size)
    (he : Entries.contains (w.lambdaAt k).listeners (.dependent id) = true) :
    Entries.contains (v.lambdaAt k).listeners (.dependent id) = true := by
  obtain ⟨u, enlisted, hlambdas⟩ := h.lambdas
  rw [lambdaAt, hlambdas]
  refine enlisted.edge ?_
  rwa [lambdaAt_push, if_neg (Nat.ne_of_lt hk)]

/-- The new lambda is registered with its inputs. -/
theorem enlisted (hk : k ∈ lambdasOf record.inputs) :
    Entries.contains (v.lambdaAt k).listeners (.dependent ⟨w.lambdas.size⟩) = true := by
  obtain ⟨u, enlisted, hlambdas⟩ := h.lambdas
  rw [lambdaAt, hlambdas]
  exact enlisted.enlisted hk

/-- Nothing else is registered. -/
theorem listener {key : ListenerKey} {listener : Listener} (hl : (key, listener) ∈ (v.lambdaAt k).listeners) :
    (key, listener) ∈ (if k.index = w.lambdas.size then record else w.lambdaAt k).listeners ∨
      (k ∈ lambdasOf record.inputs ∧ key = .dependent ⟨w.lambdas.size⟩ ∧
        listener = .dependent ⟨w.lambdas.size⟩) := by
  obtain ⟨u, enlisted, hlambdas⟩ := h.lambdas
  rw [lambdaAt, hlambdas] at hl
  rw [← lambdaAt_push]
  exact enlisted.listener hl

variable (hregister : Entries.get? w.desk.registers register = none)
include hregister

/-- The network has grown by one lambda. -/
theorem grown : w.Grown scope plan (plan.extended w.lambdas.size node) v where
  config := h.config
  vars := h.vars
  scopes := h.scopes
  keys := h.keys
  register {name x} hx := by
    rw [h.registers, Entries.get?_insert, if_neg]
    · exact hx
    · rintro rfl
      rw [hregister] at hx
      cases hx
  held {place} hplace := by
    rw [h.registers]
    obtain ⟨entry, hentry, hmem⟩ := Value.mem_entriesPlaces.1 hplace
    exact Value.mem_entriesPlaces.2 ⟨entry, Entries.mem_insert_of_new hregister hentry, hmem⟩
  size := h.size ▸ Nat.le_succ _
  record hk := by rw [h.old hk]
  edge hk he := h.edge hk he
  follower name k := by
    rw [h.follower]
    refine or_congr_right ⟨?_, ?_⟩
    · rintro ⟨hk, hb⟩
      obtain rfl : k = ⟨w.lambdas.size⟩ := congrArg LambdaId.mk hk
      refine ⟨Nat.le_refl _, h.size ▸ Nat.lt_succ_self _, ?_⟩
      rw [h.self]
      exact hb
    · rintro ⟨hge, hlt, hb⟩
      have hk : k.index = w.lambdas.size := Nat.le_antisymm (Nat.le_of_lt_succ (Nat.lt_of_lt_of_eq hlt h.size)) hge
      obtain rfl : k = ⟨w.lambdas.size⟩ := congrArg LambdaId.mk hk
      rw [h.self] at hb
      exact ⟨rfl, hb⟩
  plan hi := if_neg (Nat.ne_of_lt hi)

variable (hfollows : record.Follows scope need calm w.desk.registers node)
  (hinputs : ∀ k ∈ lambdasOf record.inputs, k.index < w.lambdas.size)
include hfollows hinputs

/-- The new lambda is wired as the plan says. -/
theorem wiredAt (hw : w.Wired scope plan need calm) (hnew : record.New scope) (hlevels : 1 < w.config.maxDepth)
    (hshallow : ∀ k ∈ lambdasOf record.inputs, w.Shallow (w.config.maxDepth - 2) k) :
    v.WiredAt scope (plan.extended w.lambdas.size node) need calm ⟨w.lambdas.size⟩ := by
  have hnode : plan.extended w.lambdas.size node w.lambdas.size = node := if_pos rfl
  have grown : w.Grown scope plan (plan.extended w.lambdas.size node) v := h.grown hregister
  refine ⟨?_, ?_, ?_, ?_, fun {id} hid => ?_, fun {id} hid => ?_, fun {key listener} hl => ?_, ?_⟩
  · rw [h.self, hnode]
    cases hfollows with
    | lookup hb hi => exact .lookup hb hi
    | script hb he hf => exact .script hb (he.later fun _ _ => grown.register) hf
  · rw [h.self]
    exact hnew.scope
  · rw [h.self]
    exact hnew.followed
  · rw [h.registers]
    refine Value.mem_entriesPlaces.2 ⟨_, Entries.mem_insert_self .., ?_⟩
    exact List.mem_singleton_self _
  · rw [hnode, hfollows.inputs_eq] at hid
    exact hinputs id hid
  · rw [hnode, hfollows.inputs_eq] at hid
    exact h.enlisted hid
  · rcases h.listener hl with hl | ⟨hmem, -⟩
    · rw [if_pos rfl, hnew.listeners] at hl
      cases hl
    · exact absurd (hinputs _ hmem) (Nat.lt_irrefl _)
  · rw [h.config]
    obtain ⟨levels, hmax⟩ : ∃ levels, w.config.maxDepth = levels + 2 :=
      ⟨w.config.maxDepth - 2, by omega⟩
    rw [hmax] at hshallow ⊢
    intro id hid
    rw [h.self] at hid
    exact grown.shallow hw (hinputs id hid) (hshallow id hid)

end Joined

theorem InOrder.joined (hw : w.InOrder scope plan need calm) (h : w.Joined scope record register v)
    (hnew : record.New scope) (hfollows : record.Follows scope need calm w.desk.registers node)
    (hinputs : ∀ k ∈ lambdasOf record.inputs, k.index < w.lambdas.size)
    (hlevels : 1 < w.config.maxDepth)
    (hshallow : ∀ k ∈ lambdasOf record.inputs, w.Shallow (w.config.maxDepth - 2) k)
    (hregister : Entries.get? w.desk.registers register = none) :
    v.InOrder scope (plan.extended w.lambdas.size node) need calm := by
  refine hw.grown (h.grown hregister) (fun {k} hk key listener hl => ?_) fun {k} hge hlt => ?_
  · rcases h.listener hl with hl | ⟨hmem, rfl, rfl⟩
    · rw [if_neg (Nat.ne_of_lt hk)] at hl
      exact .inl hl
    · refine .inr (.dependent (h.size ▸ Nat.lt_succ_self _) ?_)
      show k ∈ (if w.lambdas.size = w.lambdas.size then node else _).inputs
      rw [if_pos rfl, hfollows.inputs_eq]
      exact hmem
  · have hk : k.index = w.lambdas.size := Nat.le_antisymm (Nat.le_of_lt_succ (Nat.lt_of_lt_of_eq hlt h.size)) hge
    obtain rfl : k = ⟨w.lambdas.size⟩ := congrArg LambdaId.mk hk
    refine ⟨h.wiredAt hregister hfollows hinputs hw.wired hnew hlevels hshallow, ?_, ?_⟩
    · rw [h.self]
      exact hnew.cache
    · rw [h.self]
      exact hnew.notifying

end New

end World

end Reactor
