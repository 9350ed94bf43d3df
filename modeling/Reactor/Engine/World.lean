import Reactor.Engine.Place
import Reactor.Prediction.Learner
import Reactor.Script.Expr
import Reactor.Store

/-!
# The state of the engine

* `World` : the scopes, variables, lambdas, queues, cells and forks of a runtime, each named by its
  place in a table, with the runtime's configuration, store, learner and reports.
* `LambdaRecord` : a deferred computation with its cache and its listeners.
* `ScopeRecord`, `VariableRecord` : a lexical scope, and a variable, which copies of a scope share.
-/

namespace Reactor

/-! ## Lambdas -/

/-- What a lambda computes. -/
inductive Body where
  | script (e : Expr)
  /-- Looks a variable up, which must exist. -/
  | lookup (name : String)
  /-- Waits for a forked computation. -/
  | await (fork : ForkId)
  deriving Inhabited

/-- Whether a lambda has a result, or which thread is computing one. -/
inductive Cache where
  | empty
  | computing (thread : ThreadId)
  | holding (value : Value)
  deriving Inhabited

/-- What runs with a new value: an expression, evaluated in a scope with the value as its item. -/
structure Callback where
  scope : ScopeId
  body : Expr
  deriving Inhabited

/-- The places that a callback names. -/
def Callback.places (callback : Callback) : List Place :=
  [.scope callback.scope]

/-- The key of a registration: a lambda that depends, a handle given out, or a chosen text. -/
inductive ListenerKey where
  | dependent (id : LambdaId)
  | handle (id : LambdaId) (count : Nat)
  | chosen (text : String)
  deriving DecidableEq, Repr, Inhabited

/-- Who listens to a lambda. -/
inductive Listener where
  /-- Another lambda computed from this one. -/
  | dependent (id : LambdaId)
  | callback (callback : Callback)
  deriving Inhabited

/-- A deferred computation. -/
structure LambdaRecord where
  operation : String
  source : Segment
  scope : ScopeId
  inputs : List Value
  body : Body
  /-- A lambda that is not fixable never keeps a result. -/
  fixable : Bool
  cache : Cache := .empty
  /-- The number of invalidations so far. -/
  generation : Nat := 0
  listeners : Entries ListenerKey Listener := []
  nextListener : Nat := 1
  /-- The lambda that the last result was read from, if that was itself deferred. -/
  followed : Option LambdaId := none
  /-- The threads that are notifying this lambda. -/
  notifying : List ThreadId := []

/-- A lambda without a record counts as fixable. -/
instance : Inhabited LambdaRecord :=
  ⟨{ operation := "", source := default, scope := default, inputs := [], body := default
     fixable := true }⟩

/-! ## Scopes -/

/-- The options of a variable. -/
structure VariableFlags where
  readonly : Bool := false
  volatile : Bool := false
  fixed : Bool := false
  pure : Bool := false
  numeric : Bool := false
  parameter : Bool := false
  deriving DecidableEq, Repr, Inhabited

/-- The options as one number, a bit each. -/
def VariableFlags.bits (flags : VariableFlags) : Nat :=
  flags.readonly.toNat + 2 * flags.volatile.toNat + 4 * flags.fixed.toNat + 8 * flags.pure.toNat +
    16 * flags.numeric.toNat + 32 * flags.parameter.toNat

/-- A condition on the values of a variable, with the source text by which it is recognised. -/
structure Constraint where
  predicate : Value
  source : String
  deriving Inhabited

/-- How a variable is declared. -/
structure Declaration where
  flags : VariableFlags := {}
  constraint : Option Constraint := none
  deriving Inhabited

/-- A variable. -/
structure VariableRecord where
  value : Value
  flags : VariableFlags
  constraint : Option Constraint
  /-- The thread that declared it. -/
  thread : ThreadId
  deriving Inhabited

/-- Pure scopes may read it: it is pure, or it can never change. -/
def VariableRecord.isPureReadable (record : VariableRecord) : Bool :=
  (record.flags.readonly && record.flags.fixed) || record.flags.pure

/-- A lexical scope. -/
structure ScopeRecord where
  name : String
  parent : Option ScopeId
  source : Segment
  pure : Bool
  /-- Parameters have been bound here. -/
  parameterScope : Bool := false
  destroyed : Bool := false
  vars : Entries String VariableId := []
  parameters : Entries String Value := []
  /-- The lambdas that follow a variable, by its name. -/
  listeners : Entries String (List LambdaId) := []
  handlers : List Value := []

/-- A scope without a record counts as destroyed. -/
instance : Inhabited ScopeRecord :=
  ⟨{ name := "", parent := none, source := default, pure := false, destroyed := true }⟩

/-! ## Resources -/

/-- A first-in, first-out queue and those who are told what is written to it. -/
structure QueueRecord where
  items : List Value := []
  subscribers : Entries Nat Callback := []
  nextSubscriber : Nat := 0
  deriving Inhabited

/-- A computation that runs on its own. -/
structure ForkRecord where
  scope : ScopeId
  body : Expr
  outcome : Option (Except Error Value) := none
  deriving Inhabited

/-! ## The runtime -/

/-- The settings of a runtime. -/
structure Configuration where
  /-- Errors that no handler takes surface as failures rather than as values. -/
  failFast : Bool := false
  /-- The greatest number of nested evaluations and notifications of one thread. -/
  maxDepth : Nat := 1000
  debugScope : Bool := false
  debugEvents : Bool := false
  /-- The least number of elements that are fixed in parallel. -/
  parallelThreshold : Nat := 2
  /-- The age in milliseconds beyond which learned predictions are not loaded. -/
  predictionExpiry : Option Nat := some 604800000
  deriving DecidableEq, Repr, Inhabited

/-- An error that reached the root of its scopes. -/
structure Report where
  error : Error
  deriving DecidableEq, Repr, Inhabited

/-- A computation that was forked, and the deferred value that stands for its result. -/
structure Forked where
  fork : ForkId
  value : Value
  deriving Inhabited

/-- What a host holds to end a registration: a key, or nothing if the value can never change. -/
inductive Handle where
  | registered (key : ListenerKey)
  | unchanging
  deriving DecidableEq, Repr, Inhabited

/-- What scripts share with their host, and what the host holds under names of its own. -/
structure Desk where
  registers : Entries String Value := []
  counters : Entries String Nat := []
  definitions : Entries String Expr := []
  scopes : Entries String ScopeId := []
  handles : Entries String Handle := []
  forks : Entries String Forked := []
  learners : Entries String Learner := []
  /-- The contents of files. -/
  files : Entries String (List UInt8) := []
  log : List String := []
  deriving Inhabited

/-- The state of a runtime and its host. -/
structure World where
  config : Configuration := {}
  scopes : Array ScopeRecord := #[]
  vars : Array VariableRecord := #[]
  lambdas : Array LambdaRecord := #[]
  queues : Array QueueRecord := #[]
  cells : Array Value := #[]
  forks : Array ForkRecord := #[]
  /-- The queues that URIs name. -/
  namedQueues : Entries String QueueId := []
  /-- Values declared in every root scope. -/
  globals : List (String × Value) := []
  store : Store := {}
  learner : Learner := {}
  reports : List Report := []
  /-- The number of threads so far. -/
  threads : Nat := 1
  /-- The number of marks given to copied values so far. -/
  marks : Nat := 0
  /-- The threads that wait, with what their open computations hold. -/
  parked : Entries ThreadId (List Place) := []
  /-- The time in milliseconds since the epoch. It passes only while everyone waits. -/
  now : Nat := 1735689600000
  desk : Desk := {}
  deriving Inhabited

namespace World

/-- The scope with an id. -/
def scopeAt (w : World) (id : ScopeId) : ScopeRecord :=
  w.scopes.getD id.index default

/-- The variable with an id. -/
def variableAt (w : World) (id : VariableId) : VariableRecord :=
  w.vars.getD id.index default

/-- The lambda with an id. -/
def lambdaAt (w : World) (id : LambdaId) : LambdaRecord :=
  w.lambdas.getD id.index default

/-- The queue with an id. -/
def queueAt (w : World) (id : QueueId) : QueueRecord :=
  w.queues.getD id.index default

/-- The content of a cell. -/
def cellAt (w : World) (id : CellId) : Value :=
  w.cells.getD id.index default

/-- The fork with an id. -/
def forkAt (w : World) (id : ForkId) : ForkRecord :=
  w.forks.getD id.index default

/-- Changes a scope. -/
def modifyScope (w : World) (id : ScopeId) (f : ScopeRecord → ScopeRecord) : World :=
  { w with scopes := w.scopes.modify id.index f }

/-- Changes a variable. -/
def modifyVariable (w : World) (id : VariableId) (f : VariableRecord → VariableRecord) : World :=
  { w with vars := w.vars.modify id.index f }

/-- Changes a lambda. -/
def modifyLambda (w : World) (id : LambdaId) (f : LambdaRecord → LambdaRecord) : World :=
  { w with lambdas := w.lambdas.modify id.index f }

/-- Changes a queue. -/
def modifyQueue (w : World) (id : QueueId) (f : QueueRecord → QueueRecord) : World :=
  { w with queues := w.queues.modify id.index f }

/-- The id of a scope in messages: its name and its number, counted from one. -/
def scopeText (w : World) (id : ScopeId) : String :=
  (w.scopeAt id).name ++ "-" ++ toString (id.index + 1)

/-- A thread begins to wait; its open computations hold some places. -/
def park (w : World) (thread : ThreadId) (held : List Place) : World :=
  { w with parked := (thread, held) :: w.parked }

/-- A thread no longer waits. -/
def unpark (w : World) (thread : ThreadId) : World :=
  { w with parked := Entries.erase w.parked thread }

/-- Changes the desk. -/
def modifyDesk (w : World) (f : Desk → Desk) : World :=
  { w with desk := f w.desk }

/-! ## Changes and the records that they leave alone -/

theorem getD_modify {α : Type} (xs : Array α) (i j : Nat) (f : α → α) (d : α) :
    (xs.modify i f).getD j d = if i = j ∧ j < xs.size then f (xs.getD j d) else xs.getD j d := by
  by_cases hj : j < xs.size
  · by_cases hij : i = j <;> simp [Array.getD, hj, hij, Array.getElem_modify]
  · simp [Array.getD, hj]

/-- What is behind an index of a table that grows by one record. -/
theorem getD_push {α : Type} (xs : Array α) (x d : α) (i : Nat) :
    (xs.push x).getD i d = if i = xs.size then x else xs.getD i d := by
  rcases Nat.lt_trichotomy i xs.size with hi | hi | hi
  · simp [Array.getD, Array.getElem_push, hi, Nat.lt_succ_of_lt hi, Nat.ne_of_lt hi]
  · simp [Array.getD, hi]
  · simp [Array.getD, Nat.not_lt.2 (Nat.succ_le_of_lt hi), Nat.not_lt.2 (Nat.le_of_lt hi),
      Nat.ne_of_gt hi]

theorem scopeAt_modifyScope (w : World) (id other : ScopeId) (f : ScopeRecord → ScopeRecord) :
    (w.modifyScope id f).scopeAt other =
      if id = other ∧ other.index < w.scopes.size then f (w.scopeAt other)
      else w.scopeAt other := by
  obtain ⟨i⟩ := id
  obtain ⟨j⟩ := other
  exact (getD_modify _ i j f _).trans (by simp [scopeAt])

theorem variableAt_modifyVariable (w : World) (id other : VariableId)
    (f : VariableRecord → VariableRecord) :
    (w.modifyVariable id f).variableAt other =
      if id = other ∧ other.index < w.vars.size then f (w.variableAt other)
      else w.variableAt other := by
  obtain ⟨i⟩ := id
  obtain ⟨j⟩ := other
  exact (getD_modify _ i j f _).trans (by simp [variableAt])

theorem lambdaAt_modifyLambda (w : World) (id other : LambdaId) (f : LambdaRecord → LambdaRecord) :
    (w.modifyLambda id f).lambdaAt other =
      if id = other ∧ other.index < w.lambdas.size then f (w.lambdaAt other)
      else w.lambdaAt other := by
  obtain ⟨i⟩ := id
  obtain ⟨j⟩ := other
  exact (getD_modify _ i j f _).trans (by simp [lambdaAt])

theorem queueAt_modifyQueue (w : World) (id other : QueueId) (f : QueueRecord → QueueRecord) :
    (w.modifyQueue id f).queueAt other =
      if id = other ∧ other.index < w.queues.size then f (w.queueAt other)
      else w.queueAt other := by
  obtain ⟨i⟩ := id
  obtain ⟨j⟩ := other
  exact (getD_modify _ i j f _).trans (by simp [queueAt])

@[simp] theorem lambdaAt_modifyScope (w : World) (id : ScopeId) (f : ScopeRecord → ScopeRecord)
    (lambda : LambdaId) : (w.modifyScope id f).lambdaAt lambda = w.lambdaAt lambda := rfl

@[simp] theorem variableAt_modifyScope (w : World) (id : ScopeId) (f : ScopeRecord → ScopeRecord)
    (other : VariableId) : (w.modifyScope id f).variableAt other = w.variableAt other := rfl

@[simp] theorem scopeAt_modifyLambda (w : World) (id : LambdaId)
    (f : LambdaRecord → LambdaRecord) (scope : ScopeId) :
    (w.modifyLambda id f).scopeAt scope = w.scopeAt scope := rfl

@[simp] theorem variableAt_modifyLambda (w : World) (id : LambdaId)
    (f : LambdaRecord → LambdaRecord) (other : VariableId) :
    (w.modifyLambda id f).variableAt other = w.variableAt other := rfl

@[simp] theorem scopeAt_modifyVariable (w : World) (id : VariableId)
    (f : VariableRecord → VariableRecord) (scope : ScopeId) :
    (w.modifyVariable id f).scopeAt scope = w.scopeAt scope := rfl

@[simp] theorem lambdaAt_modifyVariable (w : World) (id : VariableId)
    (f : VariableRecord → VariableRecord) (lambda : LambdaId) :
    (w.modifyVariable id f).lambdaAt lambda = w.lambdaAt lambda := rfl

end World

end Reactor
