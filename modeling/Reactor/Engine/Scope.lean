import Reactor.Engine.Eval
import Reactor.Text.Numeral

/-!
# Scopes

Scopes form a tree. A name is looked up from a scope upwards, first among the variables and then
among the parameters.

* `World.ancestors` : a scope and all above it, innermost first.
* `World.findVariable?`, `World.findParameter?`, `World.parameters` : what names mean.
* `ScopeId.child`, `ScopeId.twin`, `ScopeId.destroy`, `ScopeId.clear` : the life of a scope.
* `ScopeId.get`, `ScopeId.getParameter`, `ScopeId.bind` : reading names and binding parameters.
-/

namespace Reactor

/-- The name is a number, which only a parameter can have. -/
def isPositional (name : String) : Bool :=
  !name.isEmpty && name.toList.all Char.isDigit

/-- The place that a parameter name counts, as far as it is a number of 64 bits. -/
def position? (name : String) : Option Nat :=
  let digits :=
    match name.toList with
    | '+' :: digits => digits
    | digits => digits
  Text.naturalBelow? wordBound digits

namespace World

/-- A scope and those above it, at most a given number. -/
def ancestorsUpTo (w : World) : Nat → ScopeId → List ScopeId
  | 0, _ => []
  | n + 1, id =>
    id :: (match (w.scopeAt id).parent with
      | some parent => w.ancestorsUpTo n parent
      | none => [])

/-- A scope and all above it, innermost first. A parent is made before its children, so there are
no more than the number of the scope says. -/
def ancestors (w : World) (id : ScopeId) : List ScopeId :=
  w.ancestorsUpTo (id.index + 1) id

/-- A scope is the first of its own ancestors. -/
theorem head?_ancestors (w : World) (id : ScopeId) : (w.ancestors id).head? = some id := rfl

theorem mem_ancestors_self (w : World) (id : ScopeId) : id ∈ w.ancestors id :=
  List.mem_of_head? (w.head?_ancestors id)

/-- The first scope from this one upwards that declares a variable, with the variable. -/
def findVariable? (w : World) (id : ScopeId) (name : String) : Option (ScopeId × VariableId) :=
  (w.ancestors id).findSome? fun scope =>
    (Entries.get? (w.scopeAt scope).vars name).map fun found => (scope, found)

/-- The scopes above and including this one in which parameters have been bound. -/
def parameterScopes (w : World) (id : ScopeId) : List ScopeId :=
  (w.ancestors id).filter fun scope => (w.scopeAt scope).parameterScope

/-- The value of a parameter. A positional one is only looked for in the nearest scope that has
parameters. -/
def findParameter? (w : World) (id : ScopeId) (key : String) : Option Value :=
  let scopes := w.parameterScopes id
  (if isPositional key then scopes.take 1 else scopes).findSome? fun scope =>
    Entries.get? (w.scopeAt scope).parameters key

/-- The positional parameters of the nearest scope that has parameters, in order. -/
def parameters (w : World) (id : ScopeId) : List Value :=
  match w.parameterScopes id with
  | [] => []
  | scope :: _ =>
    let numbered := (w.scopeAt scope).parameters.filterMap fun (key, value) =>
      (position? key).map fun n => (n, value)
    (numbered.mergeSort fun a b => a.1 ≤ b.1).map (·.2)

/-- A variable or a parameter has the name. -/
def hasName (w : World) (id : ScopeId) (name : String) : Bool :=
  (w.findVariable? id name).isSome || (w.findParameter? id name).isSome

/-- One scope is somewhere above another. -/
def isAbove (w : World) (ancestor id : ScopeId) : Bool :=
  (w.ancestors id).tail.contains ancestor

end World

namespace ScopeRecord

/-- Without variables, parameters, listeners and handlers. -/
def emptied (record : ScopeRecord) : ScopeRecord :=
  { record with vars := [], parameters := [], listeners := [], handlers := [] }

/-- Emptied for good. -/
def ended (record : ScopeRecord) : ScopeRecord :=
  if record.destroyed then record else { record.emptied with destroyed := true }

@[simp] theorem pure_emptied (record : ScopeRecord) : record.emptied.pure = record.pure := rfl

@[simp] theorem vars_emptied (record : ScopeRecord) : record.emptied.vars = [] := rfl

@[simp] theorem pure_ended (record : ScopeRecord) : record.ended.pure = record.pure := by
  unfold ended
  split <;> rfl

@[simp] theorem parent_ended (record : ScopeRecord) : record.ended.parent = record.parent := by
  unfold ended
  split <;> rfl

theorem vars_ended (record : ScopeRecord) :
    record.ended.vars = record.vars ∨ record.ended.vars = [] := by
  unfold ended
  split
  · exact .inl rfl
  · exact .inr rfl

end ScopeRecord

namespace ScopeId

/-- The record of a scope. -/
def record (scope : ScopeId) : Eval ScopeRecord :=
  Eval.gets fun w => w.scopeAt scope

/-- The id of a scope in messages. -/
def text (scope : ScopeId) : Eval String :=
  Eval.gets fun w => w.scopeText scope

/-- Fails if the scope has been destroyed. -/
def checkAlive (scope : ScopeId) : Eval Unit := do
  if (← scope.record).destroyed then
    Eval.fail (.assertion ("Scope " ++ (← scope.text) ++ " has been destroyed"))

/-- Adds a scope, which takes the next number. -/
def create (record : ScopeRecord) : Eval ScopeId :=
  Eval.modifyGet fun w => (⟨w.scopes.size⟩, { w with scopes := w.scopes.push record })

/-- A new scope below another one. Below a pure scope there are only pure ones. -/
def child (scope : ScopeId) (pure : Bool) (name : String) : Eval ScopeId := do
  scope.checkAlive
  let parent ← scope.record
  if parent.pure && !pure then
    Eval.fail (.new .purityViolation
      ("Cannot create impure scope '" ++ name ++ "' inside pure scope " ++ (← scope.text)))
  else create { name, parent := some scope, source := parent.source, pure }

/-- A scope beside another one that starts with the same variables, parameters and handlers. The
variables are shared, later declarations are not. -/
def twin (scope : ScopeId) : Eval ScopeId := do
  scope.checkAlive
  create { ← scope.record with name := "copy", destroyed := false, listeners := [] }

/-- Binds a parameter. A positional one can be bound once. -/
def bind (scope : ScopeId) (key : String) (value : Value) : Eval Value := do
  scope.checkAlive
  Eval.modify fun w => w.modifyScope scope fun record => { record with parameterScope := true }
  if isPositional key && Entries.contains (← scope.record).parameters key then
    Eval.fail (.assertion
      ("Cannot change positional parameter '" ++ key ++ "' in " ++ (← scope.text)))
  else
    Eval.modify fun w => w.modifyScope scope fun record =>
      { record with parameters := Entries.insert record.parameters key value }
    return value

/-- The value of a parameter; void if there is none. -/
def getParameter (scope : ScopeId) (key : String) : Eval Value := do
  scope.checkAlive
  return (← Eval.gets fun w => w.findParameter? scope key).getD .void

/-- The value that a name has. A name without one is void, or fails if it must have one. -/
def get (scope : ScopeId) (name : String) (must : Bool) : Eval Value := do
  scope.checkAlive
  if isPositional name then scope.getParameter name
  else
    match ← Eval.gets fun w => w.findVariable? scope name with
    | some (_, id) =>
      let found ← Eval.gets fun w => w.variableAt id
      if (← scope.record).pure && !found.isPureReadable then
        Eval.fail (.new .purityViolation
          ("Pure scope " ++ (← scope.text) ++ " cannot read variable '" ++ name ++
            "', which is neither pure nor readonly and fixed"))
      else return found.value
    | none =>
      match ← Eval.gets fun w => w.findParameter? scope name with
      | some value => return value
      | none =>
        if must then Eval.fail (.variableNotFound name (← scope.text)) else return .void

/-- Drops all that a scope holds. It cannot be used after that. -/
def destroy (scope : ScopeId) : Eval Unit :=
  Eval.modify fun w => w.modifyScope scope ScopeRecord.ended

/-- Drops all that a scope holds, unless it is pure. -/
def clear (scope : ScopeId) : Eval Unit := do
  if (← scope.record).pure then
    Eval.fail (.new .purityViolation ("Cannot clear pure scope " ++ (← scope.text)))
  else
    scope.checkAlive
    Eval.modify fun w => w.modifyScope scope ScopeRecord.emptied

end ScopeId

end Reactor
