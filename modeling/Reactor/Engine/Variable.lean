import Reactor.Engine.Notify
import Reactor.Value.Fix
import Reactor.Value.Text

/-!
# Variables

A variable is declared in a scope and assigned from that scope or from one below it. A new value is
prepared as the options of the variable say, then checked against its constraint, then stored, and
then all who follow the variable are notified.

* `ScopeId.propose`, `ScopeId.proposeValue` : what a declaration and an assignment would store.
* `ScopeId.declare`, `ScopeId.set`.
* `ScopeId.listen`, `ScopeId.notify` : those who follow a variable.
* `LambdaId.ofVariable` : a lambda that follows a variable.
-/

namespace Reactor

namespace World

/-- Adds a variable, which a scope binds to a name. -/
def bindVariable (w : World) (scope : ScopeId) (name : String) (record : VariableRecord) : World :=
  let id : VariableId := ⟨w.vars.size⟩
  { w with vars := w.vars.push record }.modifyScope scope fun record =>
    { record with vars := Entries.insert record.vars name id }

/-- Gives a variable a value. -/
def storeValue (w : World) (id : VariableId) (value : Value) : World :=
  w.modifyVariable id fun record => { record with value }

theorem variableAt_bindVariable (w : World) (scope : ScopeId) (name : String)
    (record : VariableRecord) (id : VariableId) :
    (w.bindVariable scope name record).variableAt id =
      if id.index = w.vars.size then record else w.variableAt id :=
  getD_push w.vars record default id.index

theorem scopeAt_bindVariable (w : World) (scope other : ScopeId) (name : String)
    (record : VariableRecord) :
    (w.bindVariable scope name record).scopeAt other =
      if scope = other ∧ other.index < w.scopes.size then
        { w.scopeAt other with vars := Entries.insert (w.scopeAt other).vars name ⟨w.vars.size⟩ }
      else w.scopeAt other :=
  scopeAt_modifyScope { w with vars := w.vars.push record } scope other _

end World

namespace ScopeId

/-! ## Those who follow a variable -/

/-- The lambdas that live among those that follow a variable of a scope. -/
def liveListeners (scope : ScopeId) (name : String) : Eval (List LambdaId) := do
  match (Entries.get? (← scope.record).listeners name).getD [] with
  | [] => return []
  | listeners =>
    let live ← Eval.liveness
    return listeners.filter live.hasLambda

/-- Notifies all who follow a variable of a scope. -/
def notify (scope : ScopeId) (name : String) : Eval Unit := do
  let listeners ← scope.liveListeners name
  Eval.modify fun w => w.modifyScope scope fun record =>
    { record with listeners := Entries.modify record.listeners name fun _ => listeners }
  LambdaId.propagate listeners

/-- Has a lambda notified whenever the variable is assigned, at the scope that declares it or else
at this one. Other values are not registered. -/
def listen (scope : ScopeId) (name : String) (listener : Value) : Eval Unit := do
  scope.checkAlive
  match listener.lambda? with
  | none => pure ()
  | some lambda =>
    let target ← Eval.gets fun w => ((w.findVariable? scope name).map (·.1)).getD scope
    Eval.modify fun w => w.modifyScope target fun record =>
      let listeners := (Entries.get? record.listeners name).getD []
      if listeners.contains lambda then record
      else { record with listeners := Entries.insert record.listeners name (listeners ++ [lambda]) }

/-! ## Checks -/

/-- A variable is assigned by the thread that declared it, unless it is volatile. -/
def checkThread (name : String) (record : VariableRecord) : Eval Unit := do
  if !record.flags.volatile && record.thread ≠ (← Eval.thread).id then
    Eval.fail (.new .concurrencyViolation
      ("Variable '" ++ name ++ "' belongs to another thread; declare it volatile to share it"))

/-- The value that a variable stores: a fixed variable stores the deeply fixed value, and a numeric
one refuses values that are neither deferred nor numbers. -/
def prepare (name : String) (value : Value) (flags : VariableFlags) : Eval Value := do
  let value ← if flags.fixed then Eval.holding value.places (value.fixDeep false) else pure value
  if flags.numeric && !value.isLambda && !value.tag.isNumeric then
    Eval.fail (.new .invalidCast
      ("Variable '" ++ name ++ "' is numeric and cannot hold " ++ value.tag.name))
  else value.share

/-- The failure of a constraint. -/
def constraintFailed (name source detail : String) : Error :=
  .new .constraintViolation
    ("Constraint '" ++ source ++ "' on variable '" ++ name ++ "' failed: " ++ detail)

/-- What a constraint says of a new value and the one before it: a condition that is deferred is
computed in a scope of its own with the parameters `it` and `previous`. -/
def verdict (scope : ScopeId) (name : String) (constraint : Constraint) (value previous : Value) :
    Eval Value := do
  match constraint.predicate.lambda? with
  | none => return constraint.predicate
  | some lambda =>
    let child ← scope.child (← scope.record).pure "constraint"
    let _ ← child.bind "it" value
    let _ ← child.bind "previous" previous
    let outcome ← (Eval.holding [.scope child] (lambda.applyIn child)).attempt
    child.destroy
    match outcome with
    | .ok verdict => return verdict
    | .error e => Eval.fail (constraintFailed name constraint.source e.describe)

/-- Fails unless the constraint allows the value. -/
def checkConstraint (scope : ScopeId) (name : String) (constraint : Constraint)
    (value previous : Value) : Eval Unit :=
  Eval.holding (value.placesBefore previous.places) do
    if !(← (← scope.verdict name constraint value previous).isTrue) then
      Eval.fail (constraintFailed name constraint.source ((← value.human) ++ " is not allowed"))

/-- The value under its constraint, if there is one: checked, and marked with its source. -/
def constrain (scope : ScopeId) (name : String) (constraint : Option Constraint)
    (value : Value) (previous : World → Value) : Eval Value := do
  match constraint with
  | none => return value
  | some constraint =>
    scope.checkConstraint name constraint value (← Eval.gets previous)
    (← Eval.ofExcept (value.constrain constraint.source)).share

/-- The value as a variable stores it: prepared, and checked against the constraint. -/
def storable (scope : ScopeId) (name : String) (value : Value) (flags : VariableFlags)
    (constraint : Option Constraint) (previous : World → Value) : Eval Value := do
  let value ← prepare name value flags
  scope.constrain name constraint value previous

/-! ## Declaration and assignment -/

/-- The constraint of a variable that is declared again: it stays the same. -/
def keepConstraint (name : String) (old new : Option Constraint) :
    Except Error (Option Constraint) :=
  match old, new with
  | some old, some new =>
    if old.source = new.source then .ok (some new)
    else .error (.new .constraintViolation
      ("Cannot change the constraint on variable '" ++ name ++ "' from '" ++ old.source ++
        "' to '" ++ new.source ++ "'"))
  | some old, none => .ok (some old)
  | none, new => .ok new

/-- The options of a variable in a scope: those of a pure scope are pure, and none is volatile. -/
def declaredFlags (scope : ScopeId) (name : String) (flags : VariableFlags) :
    Eval VariableFlags := do
  if !(← scope.record).pure then return flags
  else if flags.volatile then
    Eval.fail (.new .purityViolation
      ("Cannot declare volatile variable '" ++ name ++ "' in a pure scope"))
  else return { flags with pure := true }

/-- A variable that may be declared, and what is held until all who follow it have been notified. -/
structure Proposal where
  record : VariableRecord
  held : List Place

/-- What a declaration would store: the options, the constraint and the value have been checked
against those of the variable that it takes the place of, if there is one. -/
def propose (scope : ScopeId) (name : String) (value : Value) (declaration : Declaration) :
    Eval Proposal := do
  scope.checkAlive
  if isPositional name then
    Eval.fail (.assertion ("Cannot declare positional parameter '" ++ name ++ "' as a variable"))
  else
    let flags ← scope.declaredFlags name declaration.flags
    let existing ← Eval.gets fun w =>
      (Entries.get? (w.scopeAt scope).vars name).map w.variableAt
    let constraint ← (match existing with
      | none => pure declaration.constraint
      | some existing => do
        if existing.flags.readonly then Eval.fail (.readonly name)
        else
          checkThread name existing
          Eval.ofExcept (keepConstraint name existing.constraint declaration.constraint))
    let previous := (existing.map (·.value)).getD .void
    let condition := (constraint.map (·.predicate)).getD .void
    let held := previous.placesBefore condition.places
    Eval.holding held do
      let value ← scope.storable name value flags constraint fun _ => previous
      let thread := (← Eval.thread).id
      return { record := { value, flags, constraint, thread }, held }

/-- Declares a variable, possibly again. The value of the variable that it takes the place of is
held until all who follow it have been notified. -/
def declare (scope : ScopeId) (name : String) (value : Value) (declaration : Declaration) :
    Eval Value := do
  let proposal ← scope.propose name value declaration
  Eval.modify fun w => w.bindVariable scope name proposal.record
  let value := proposal.record.value
  Eval.holding (value.places ++ proposal.held) (scope.notify name)
  return value

/-- Fails if a pure scope stands between a scope and the one that declares a variable. -/
def checkReach (scope owner : ScopeId) (name : String) : Eval Unit := do
  let w ← Eval.world
  match ((w.ancestors scope).takeWhile (· ≠ owner)).find? fun scope => (w.scopeAt scope).pure with
  | some pure =>
    Eval.fail (.new .purityViolation
      ("Cannot set variable '" ++ name ++ "' declared outside pure scope " ++ w.scopeText pure))
  | none => return ()

/-- What an assignment would store: it has been checked against the options and the constraint of
the variable. -/
def proposeValue (scope owner : ScopeId) (id : VariableId) (name : String) (value : Value) :
    Eval Value := do
  scope.checkReach owner name
  let record ← Eval.gets fun w => w.variableAt id
  if record.flags.readonly then Eval.fail (.readonly name)
  else
    checkThread name record
    Eval.holding [.variable id]
      (scope.storable name value record.flags record.constraint fun w => (w.variableAt id).value)

/-- Assigns a variable of a scope. The variable is held until all who follow it have been
notified. -/
def assign (scope owner : ScopeId) (id : VariableId) (name : String) (value : Value) :
    Eval Value := do
  let value ← scope.proposeValue owner id name value
  Eval.modify fun w => w.storeValue id value
  Eval.holding (value.places ++ [.variable id]) (owner.notify name)
  return value

/-- Assigns a variable in the scope that declares it. A name that is not declared is declared
here. -/
def set (scope : ScopeId) (name : String) (value : Value) : Eval Value := do
  scope.checkAlive
  if isPositional name then
    Eval.fail (.assertion ("Cannot set positional parameter '" ++ name ++ "'"))
  else
    match ← Eval.gets fun w => w.findVariable? scope name with
    | some (owner, id) => scope.assign owner id name value
    | none => scope.declare name value {}

end ScopeId

/-- A lambda that reads a variable when it is forced and follows its assignments. -/
def LambdaId.ofVariable (scope : ScopeId) (name : String) : Eval LambdaId := do
  let lambda ← ofBody scope "variable" (.lookup name)
  scope.listen name (.lambda lambda)
  return lambda

end Reactor
