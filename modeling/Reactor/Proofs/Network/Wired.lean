import Reactor.Proofs.Network.Names

/-!
# Wired networks

`World.Wired` says that the lambdas of a state are those of a plan, that every lambda is registered with
its inputs and with the variable that it reads, that the host holds all of them, and that they nest less
deep than the runtime permits. This part of the state stays as it is when results are kept and forgotten
(`World.Similar`), and changes only when lambdas or registrations are added.

`World.Coherent` says that a lambda that keeps a result keeps what it would give if it were computed.
-/

namespace Reactor

/-- The lambdas among some values. -/
def lambdasOf (values : List Value) : List LambdaId :=
  values.filterMap Value.lambda?

/-- An error that may arise: any, unless the network is a calm one. -/
def Permitted (calm : Prop) (e : Error) : Prop :=
  calm → e.kind.isRecoverable = true

section Wiring

variable (scope : ScopeId) (plan : Plan) (need : Nat) (calm : Prop)

/-- A lambda reads and computes what a plan says. -/
inductive LambdaRecord.Follows (registers : Entries String Value) (record : LambdaRecord) : Node → Prop
  | lookup {name : String} (hbody : record.body = .lookup name) (hinputs : record.inputs = []) :
    Follows registers record ⟨record.source, [], fun means _ => means name⟩
  | script {e : Expr} {f : List (Except Error Value) → Except Error Value}
    (hbody : record.body = .script e)
    (he : e.Computes scope registers (lambdasOf record.inputs) need f)
    (hf : ∀ ds e, f ds = .error e → Permitted calm e) :
    Follows registers record ⟨record.source, lambdasOf record.inputs, fun _ ds => f ds⟩

/-- What is registered with a lambda: one of which it is an input, or a callback. -/
inductive World.Registered (w : World) (k : LambdaId) : ListenerKey → Listener → Prop
  | dependent {id : LambdaId} (hid : id.index < w.lambdas.size) (h : k ∈ (plan id.index).inputs) :
    Registered w k (.dependent id) (.dependent id)
  | callback {key : ListenerKey} {c : Callback} (hkey : ∀ id, key ≠ .dependent id)
    (h : c.body.Observes c.scope w.desk.registers need (Permitted calm)) :
    Registered w k key (.callback c)

/-- A lambda has at most a number of levels below and including itself. -/
def World.Shallow (w : World) : Nat → LambdaId → Prop
  | 0, _ => False
  | n + 1, k => ∀ id ∈ lambdasOf (w.lambdaAt k).inputs, w.Shallow n id

/-- A lambda is as a plan says. -/
structure World.WiredAt (w : World) (k : LambdaId) : Prop where
  follows : (w.lambdaAt k).Follows scope need calm w.desk.registers (plan k.index)
  scope : (w.lambdaAt k).scope = scope
  followed : (w.lambdaAt k).followed = none
  held : Place.lambda k ∈ entriesPlaces w.desk.registers
  older {id : LambdaId} (h : id ∈ (plan k.index).inputs) : id.index < k.index
  edge {id : LambdaId} (h : id ∈ (plan k.index).inputs) :
    Entries.contains (w.lambdaAt id).listeners (.dependent k) = true
  registered {key : ListenerKey} {listener : Listener}
    (h : (key, listener) ∈ (w.lambdaAt k).listeners) :
    w.Registered plan need calm k key listener
  shallow : w.Shallow (w.config.maxDepth - 1) k

/-- The lambdas of a state are those of a plan, with all their registrations. -/
structure World.Wired (w : World) : Prop where
  readable : w.Readable scope
  failFast (h : calm) : w.config.failFast = false
  keys (id : ScopeId) : (Entries.keys (w.scopeAt id).listeners).Nodup
  lambda {k : LambdaId} (hk : k.index < w.lambdas.size) : w.WiredAt scope plan need calm k
  follower {k : LambdaId} (hk : k.index < w.lambdas.size) {name : String}
    (h : (w.lambdaAt k).body = .lookup name) : k ∈ w.followers scope name
  reader {name : String} {k : LambdaId} (h : k ∈ w.followers scope name) :
    k.index < w.lambdas.size ∧ (w.lambdaAt k).body = .lookup name

/-- What a lambda would give if it were computed anew. -/
def World.answer (w : World) (k : LambdaId) : Except Error Value :=
  plan.answer w.config.failFast (w.means scope) k.index

/-- A kept result is what the lambda would give. -/
def World.Coherent (w : World) : Prop :=
  ∀ {k : LambdaId} {v : Value}, (w.lambdaAt k).cache = .holding v →
    Answers (.ok v) (w.answer scope plan k)

end Wiring

/-- A lambda that follows a plan has the inputs that the plan says. -/
theorem LambdaRecord.Follows.inputs_eq {scope : ScopeId} {need : Nat} {calm : Prop}
    {registers : Entries String Value} {record : LambdaRecord} {node : Node}
    (h : record.Follows scope need calm registers node) : node.inputs = lambdasOf record.inputs := by
  cases h with
  | lookup hb hi =>
    rw [hi]
    rfl
  | script hb he hf => rfl

/-! ## States that differ in what lambdas keep -/

namespace World

/-- The second state differs from the first in what lambdas keep, and in how often they have been
invalidated and by whom they are being notified. -/
structure Similar (w v : World) : Prop where
  config : v.config = w.config
  scopes : v.scopes = w.scopes
  vars : v.vars = w.vars
  registers : v.desk.registers = w.desk.registers
  size : v.lambdas.size = w.lambdas.size
  record (k : LambdaId) : v.lambdaAt k =
    { w.lambdaAt k with
      cache := (v.lambdaAt k).cache
      generation := (v.lambdaAt k).generation
      notifying := (v.lambdaAt k).notifying }

/-- The second state differs from the first in what lambdas keep. -/
structure Recached (w v : World) : Prop where
  config : v.config = w.config
  scopes : v.scopes = w.scopes
  vars : v.vars = w.vars
  registers : v.desk.registers = w.desk.registers
  size : v.lambdas.size = w.lambdas.size
  record (k : LambdaId) : v.lambdaAt k = { w.lambdaAt k with cache := (v.lambdaAt k).cache }

variable {u v w : World} {scope : ScopeId} {plan : Plan} {need : Nat} {calm : Prop} {k : LambdaId}

theorem Recached.refl (w : World) : w.Recached w :=
  ⟨rfl, rfl, rfl, rfl, rfl, fun _ => rfl⟩

theorem Recached.trans (h : u.Recached v) (h' : v.Recached w) : u.Recached w where
  config := h'.config.trans h.config
  scopes := h'.scopes.trans h.scopes
  vars := h'.vars.trans h.vars
  registers := h'.registers.trans h.registers
  size := h'.size.trans h.size
  record k := by
    rw [h'.record k, h.record k]

theorem Recached.similar (h : w.Recached v) : w.Similar v where
  config := h.config
  scopes := h.scopes
  vars := h.vars
  registers := h.registers
  size := h.size
  record k := by
    rw [h.record k]

theorem Beside.recached (h : w.Beside v) : w.Recached v where
  config := h.config
  scopes := h.scopes
  vars := h.vars
  registers := h.registers
  size := congrArg Array.size h.lambdas
  record k := by
    rw [lambdaAt, h.lambdas]
    rfl

theorem Similar.refl (w : World) : w.Similar w :=
  ⟨rfl, rfl, rfl, rfl, rfl, fun _ => rfl⟩

theorem Similar.trans (h : u.Similar v) (h' : v.Similar w) : u.Similar w where
  config := h'.config.trans h.config
  scopes := h'.scopes.trans h.scopes
  vars := h'.vars.trans h.vars
  registers := h'.registers.trans h.registers
  size := h'.size.trans h.size
  record k := by
    rw [h'.record k, h.record k]

/-- A change of one lambda that leaves all but its result alone. -/
theorem Recached.modifyLambda {f : LambdaRecord → LambdaRecord} (w : World) (id : LambdaId)
    (hf : ∀ r : LambdaRecord, f r = { r with cache := (f r).cache }) :
    w.Recached (w.modifyLambda id f) where
  config := rfl
  scopes := rfl
  vars := rfl
  registers := rfl
  size := Array.size_modify ..
  record k := by
    rw [lambdaAt_modifyLambda]
    split
    · exact hf _
    · rfl

namespace Similar

variable (h : w.Similar v)
include h

theorem inputs (k : LambdaId) : (v.lambdaAt k).inputs = (w.lambdaAt k).inputs := by
  rw [h.record k]

theorem listeners (k : LambdaId) : (v.lambdaAt k).listeners = (w.lambdaAt k).listeners := by
  rw [h.record k]

theorem body (k : LambdaId) : (v.lambdaAt k).body = (w.lambdaAt k).body := by
  rw [h.record k]

theorem shallow {n : Nat} (hk : w.Shallow n k) : v.Shallow n k := by
  induction n generalizing k with
  | zero => exact hk
  | succ n ih =>
    intro id hid
    rw [h.inputs] at hid
    exact ih (hk id hid)

theorem follows {node : Node} (hk : (w.lambdaAt k).Follows scope need calm w.desk.registers node) :
    (v.lambdaAt k).Follows scope need calm v.desk.registers node := by
  have hinputs := h.inputs k
  have hbody := h.body k
  have hsource : (v.lambdaAt k).source = (w.lambdaAt k).source := by rw [h.record k]
  rw [h.registers]
  cases hk with
  | lookup hb hi =>
    rw [← hsource]
    exact .lookup (hbody.trans hb) (hinputs.trans hi)
  | script hb he hf =>
    rw [← hsource, ← hinputs]
    rw [← hinputs] at he
    exact .script (hbody.trans hb) he hf

theorem registered {key : ListenerKey} {listener : Listener}
    (hl : w.Registered plan need calm k key listener) :
    v.Registered plan need calm k key listener := by
  cases hl with
  | dependent hid hk => exact .dependent (h.size ▸ hid) hk
  | callback hkey ho => exact .callback hkey (h.registers ▸ ho)

theorem wiredAt (hk : w.WiredAt scope plan need calm k) : v.WiredAt scope plan need calm k where
  follows := h.follows hk.follows
  scope := by
    rw [h.record k]
    exact hk.scope
  followed := by
    rw [h.record k]
    exact hk.followed
  held := h.registers ▸ hk.held
  older hid := hk.older hid
  edge hid := by
    rw [h.listeners]
    exact hk.edge hid
  registered hl := by
    rw [h.listeners] at hl
    exact h.registered (hk.registered hl)
  shallow := by
    rw [h.config]
    exact h.shallow hk.shallow

theorem wired (hw : w.Wired scope plan need calm) : v.Wired scope plan need calm where
  readable := hw.readable.congr h.scopes h.vars
  failFast hc := by
    rw [h.config]
    exact hw.failFast hc
  keys id := by
    rw [scopeAt_congr h.scopes]
    exact hw.keys id
  lambda hk := h.wiredAt (hw.lambda (h.size ▸ hk))
  follower hk name hb := by
    rw [followers_congr h.scopes]
    exact hw.follower (h.size ▸ hk) ((h.body _).symm.trans hb)
  reader hk := by
    rw [followers_congr h.scopes] at hk
    obtain ⟨hlt, hb⟩ := hw.reader hk
    exact ⟨h.size ▸ hlt, (h.body _).trans hb⟩

theorem answer (k : LambdaId) : v.answer scope plan k = w.answer scope plan k := by
  rw [World.answer, World.answer, h.config, means_congr h.scopes h.vars]

end Similar

/-! ## Facts about wired networks -/

namespace Wired

variable (hw : w.Wired scope plan need calm)
include hw

theorem inputs_eq (hk : k.index < w.lambdas.size) :
    (plan k.index).inputs = lambdasOf (w.lambdaAt k).inputs :=
  (hw.lambda hk).follows.inputs_eq

theorem source_eq (hk : k.index < w.lambdas.size) :
    (plan k.index).source = (w.lambdaAt k).source := by
  have h := (hw.lambda hk).follows
  generalize plan k.index = node at h
  cases h with
  | lookup hb hi => rfl
  | script hb he hf => rfl

theorem answer_eq (hk : k.index < w.lambdas.size) :
    w.answer scope plan k = answerOf w.config.failFast (w.lambdaAt k).source
      ((plan k.index).compute (w.means scope)
        ((plan k.index).inputs.map fun id => w.answer scope plan id)) := by
  rw [World.answer, Plan.answer_eq fun id hid => (hw.lambda hk).older hid, hw.source_eq hk]
  rfl

theorem lt_of_input (hk : k.index < w.lambdas.size) {id : LambdaId}
    (hid : id ∈ (plan k.index).inputs) : id.index < w.lambdas.size :=
  Nat.lt_trans ((hw.lambda hk).older hid) hk

/-- The lambdas that depend on one are those of which it is an input. -/
theorem mem_dependents_iff (hk : k.index < w.lambdas.size) {id : LambdaId} :
    id ∈ w.dependents k ↔ id.index < w.lambdas.size ∧ k ∈ (plan id.index).inputs := by
  constructor
  · intro h
    obtain ⟨⟨key, listener⟩, hmem, hl⟩ := List.mem_filterMap.1 h
    cases (hw.lambda hk).registered hmem with
    | dependent hid hin =>
      cases hl
      exact ⟨hid, hin⟩
    | callback hkey ho => cases hl
  · rintro ⟨hid, hin⟩
    obtain ⟨listener, hl⟩ := Option.isSome_iff_exists.1 ((hw.lambda hid).edge hin)
    have hmem := Entries.mem_of_get?_eq_some hl
    refine List.mem_filterMap.2 ⟨_, hmem, ?_⟩
    cases (hw.lambda hk).registered hmem with
    | dependent _ _ => rfl
    | callback hkey ho => exact absurd rfl (hkey id)

end Wired

end World

end Reactor
