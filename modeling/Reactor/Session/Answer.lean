import Reactor.Script.Reply
import Reactor.Session.View

/-!
# Answers of a session

* `Result` : what an action gives, as it stands when the action is done.
* `Answer` : a result or a failure, with what was logged.
-/

namespace Reactor

/-- What a host is told of a scope. -/
structure ScopeInfo where
  id : String
  parent : Option String
  record : ScopeRecord
  deriving Inhabited

/-- What a host is told of a variable. -/
structure VariableInfo where
  record : VariableRecord
  value : View
  deriving Inhabited

/-- What a host is told of a lambda. -/
structure LambdaInfo where
  record : LambdaRecord
  /-- The result that the lambda keeps. -/
  cached : Option View
  scope : String
  deriving Inhabited

mutual

/-- What an action gives. -/
inductive Result where
  | view (view : View)
  /-- Facts that are no value. -/
  | reply (reply : Reply)
  | scope (info : ScopeInfo)
  | variable (info : VariableInfo)
  | lambda (info : LambdaInfo)
  | handle (handle : Handle)
  | configuration (config : Configuration)
  /-- The reports and how many of them are left. -/
  | reports (reports : List Report) (left : Nat)
  | size (n : Nat)
  | answers (answers : List Answer)

/-- A result or a failure, with what was logged. -/
inductive Answer where
  | mk (outcome : Except Error Result) (log : List String)

end

instance : Inhabited Result := ⟨.size 0⟩
instance : Inhabited Answer := ⟨.mk (.ok (.size 0)) []⟩

namespace Result

/-- Done, and nothing more to say. -/
def done : Result :=
  .reply (.flag true)

end Result

end Reactor
