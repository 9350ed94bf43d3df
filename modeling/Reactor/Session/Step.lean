import Reactor.Engine.World

/-!
# Steps of a session

* `Action` : what a host does with a runtime, its scopes, values, store and learners.
* `Step` : an action in a scope.
-/

namespace Reactor

/-- New settings of a runtime, as far as they are given. -/
structure ConfigurationChange where
  failFast : Option Bool := none
  maxDepth : Option Nat := none
  debugScope : Option Bool := none
  debugEvents : Option Bool := none
  parallelThreshold : Option Nat := none
  deriving Repr, Inhabited

/-- The settings after a change. -/
def Configuration.change (config : Configuration) (change : ConfigurationChange) : Configuration :=
  { config with
    failFast := change.failFast.getD config.failFast
    maxDepth := change.maxDepth.getD config.maxDepth
    debugScope := change.debugScope.getD config.debugScope
    debugEvents := change.debugEvents.getD config.debugEvents
    parallelThreshold := change.parallelThreshold.getD config.parallelThreshold }

/-- A change that gives nothing changes nothing. -/
theorem Configuration.change_empty (config : Configuration) : config.change {} = config := rfl

mutual

/-- What a host does. Where a name is given for the result, the desk holds it under that name. A
learner without a name is that of the runtime. -/
inductive Action where
  | eval (e : Expr) (name : Option String)
  | define (name : String) (body : Expr)
  | drop (name : String)
  | counter (name : String)
  /-- The steps run on a thread of their own. -/
  | onThread (steps : List Step)
  -- Scopes
  | rootScope (source : String) (file : Option String) (name : String)
  | childScope (pure : Bool) (label name : String)
  | twinScope (name : String)
  | inChildScope (pure : Bool) (label : String) (e : Expr)
  | describeScope
  | isBelow (other : String)
  | clear
  | destroy
  -- Variables and parameters
  | declare (name : String) (e : Expr) (flags : VariableFlags) (constraint : Option (Expr × String))
  | set (name : String) (e : Expr)
  | get (name : String) (must : Bool) (register : Option String)
  | bind (name : String) (e : Expr)
  | getParameter (name : String)
  | parameters
  | hasName (name : String)
  | describeVariable (name : String)
  | listenVariable (name : String) (e : Expr)
  | notifyVariable (name : String)
  | countListeners (name : String)
  -- Errors
  | addHandler (e : Expr)
  | handleError (error : Error) (register : Option String)
  | reports (clear : Bool)
  | report (error : Error)
  -- Lambdas
  | reference (name register : String)
  | describeLambda (e : Expr)
  | applyIn (e : Expr)
  | listen (e body : Expr) (name : String)
  | listenAs (e : Expr) (key : String) (body : Expr)
  | unlisten (e : Expr) (name : String)
  | subscribe (e body : Expr)
  | fork (operation : String) (body : Expr) (name : String)
  | awaitFork (name : String) (millis : Nat)
  | forkState (name : String)
  -- The runtime
  | configure (change : ConfigurationChange)
  | resolve (text : String) (register : Option String)
  | hasScheme (name : String)
  | load (key : String) (register : Option String)
  | save (key : String) (e : Expr) (ttl : Option Nat)
  | storeSet (key : String) (e : Expr) (ttl : Option Nat)
  | storePush (key : String) (e : Expr)
  | storePop (key : String) (millis : Nat)
  | storeRemove (key : String)
  | storeSize
  | newLearner (name : String) (expiry : Option Nat)
  | learn (learner : Option String) (operation : String) (inputs : List Expr) (output : ValueType)
  | predict (learner : Option String) (operation : String) (inputs : List Expr)
  | learnerSize (learner : Option String)
  | clearLearner (learner : Option String)
  | saveLearner (learner : Option String) (file : String)
  /-- The file is written with the bytes first, if there are some. -/
  | loadLearner (learner : Option String) (file : String) (bytes : Option (List UInt8))

/-- An action in the scope that the desk holds under a name. -/
inductive Step where
  | mk (scope : String) (action : Action)

end

instance : Inhabited Step := ⟨.mk "" .describeScope⟩

end Reactor
