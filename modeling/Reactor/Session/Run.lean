import Reactor.Engine.Fork
import Reactor.Engine.Machine
import Reactor.Prediction.Snapshot
import Reactor.Session.Answer
import Reactor.Session.Step

/-!
# Running steps

* `Action.run` : what an action does and gives.
* `Step.run` : the answer of a step. What was logged goes with it.
-/

namespace Reactor

/-! ## The desk -/

namespace Desk

/-- The scope that the desk holds under a name. -/
def scope (desk : Desk) (name : String) : ScopeId :=
  (Entries.get? desk.scopes name).getD ⟨0⟩

end Desk

/-- Changes the desk. -/
def Eval.modifyDesk (f : Desk → Desk) : Eval Unit :=
  Eval.modify fun w => w.modifyDesk f

/-- Holds a value in a register, if one is named. -/
def keepValue (register : Option String) (v : Value) : Eval Unit :=
  match register with
  | none => pure ()
  | some name => Eval.modifyDesk fun desk =>
    { desk with registers := Entries.insert desk.registers name v }

/-- Shows a value, after it has been held in a register if one is named. -/
def showValue (v : Value) (register : Option String) : Eval Result := do
  let v ← v.share
  keepValue register v
  return .view (← Eval.gets v.view)

/-- Holds a scope under a name and shows its id. -/
def keepScope (scope : ScopeId) (name : String) : Eval Result := do
  Eval.modifyDesk fun desk => { desk with scopes := Entries.insert desk.scopes name scope }
  return .reply (.text (← scope.text))

/-! ## The runtime -/

/-- A new root scope, in which the globals are declared. One that cannot be declared is left out. -/
def ScopeId.root (source : Segment) : Eval ScopeId := do
  let scope ← create { name := "root", parent := none, source, pure := false }
  for (name, value) in ← Eval.gets World.globals do
    let _ ← (scope.declare name value { flags := { readonly := true } }).attempt
  return scope

/-- The text of a script, as it was read from a file if one is given. -/
def Segment.ofScript (source : String) (file : Option String) : Segment :=
  match file with
  | some file => (Segment.whole source).withFile file
  | none => Segment.whole source

/-- The lambda of a deferred value. -/
def Value.requireLambda (v : Value) : Eval LambdaId :=
  match v.lambda? with
  | some lambda => pure lambda
  | none => Eval.fail (.assertion "not a lambda")

/-- A learner that the desk holds, or that of the runtime. -/
def World.learnerNamed (w : World) : Option String → Learner
  | none => w.learner
  | some name => (Entries.get? w.desk.learners name).getD {}

/-- Changes a learner that the desk holds, or that of the runtime. -/
def World.setLearner (w : World) (learner : Learner) : Option String → World
  | none => { w with learner }
  | some name => w.modifyDesk fun desk =>
    { desk with learners := Entries.insert desk.learners name learner }

/-- Uses the store with the time of the clock. -/
def useStore {α : Type} (f : Store → Nat → Except Error (α × Store)) : Eval α := do
  let w ← Eval.world
  let (a, store) ← Eval.ofExcept (f w.store w.now)
  Eval.modify fun w => { w with store }
  return a

/-- Takes the first element of the list at a key; void if none arrives in time. -/
def popStore (key : String) (millis : Nat) : Eval Value := do
  match ← useStore fun store now => store.pop now key with
  | some item => return item
  | none =>
    if millis ≠ 0 then Eval.wait (.time ((← Eval.gets World.now) + millis))
    return .void

/-- What the name of every file ends in. -/
def fileEnding : String := ".bin"

/-- The greatest length in bytes of the name of a file with its ending. -/
def maxFileName : Nat := 255

/-- Files are kept in one directory, into which every name leads that is not too long and holds no
slash and no null character. -/
def isFileName (name : String) : Bool :=
  !(name.toList.any fun c => c == '/' || c.toNat == 0) &&
    (name ++ fileEnding).utf8ByteSize ≤ maxFileName

/-- Writes a file. -/
def writeFile (name : String) (bytes : List UInt8) : Eval Unit :=
  if isFileName name then
    Eval.modifyDesk fun desk => { desk with files := Entries.insert desk.files name bytes }
  else Eval.fail Snapshot.ioFailure

/-- Reads a file, which is gone after that. -/
def takeFile (name : String) : Eval (List UInt8) := do
  match ← Eval.gets fun w => Entries.get? w.desk.files name with
  | some bytes =>
    Eval.modifyDesk fun desk => { desk with files := Entries.erase desk.files name }
    return bytes
  | none => Eval.fail Snapshot.ioFailure

/-- Merges a snapshot into a learner and gives the number of entries that were taken over. -/
def loadSnapshot (learner : Option String) (bytes : List UInt8) : Eval Nat := do
  match Snapshot.decode? bytes with
  | none => Eval.fail Snapshot.invalid
  | some entries =>
    Eval.modifyGet fun w =>
      let (merged, count) := (w.learnerNamed learner).merge w.now entries
      (count, w.setLearner merged learner)

/-- What a host is told of a lambda. -/
def LambdaId.describe (lambda : LambdaId) : Eval LambdaInfo := do
  let record ← lambda.record
  let cached ← (match record.cache with
    | .holding v => do return some (← Eval.gets v.view)
    | _ => pure none)
  return { record, cached, scope := ← record.scope.text }

/-! ## Actions -/

namespace Action

mutual

/-- What an action in a scope does and gives. -/
def run (scope : ScopeId) : Action → Eval Result
  | .eval e name => do
    match ← e.reply scope none with
    | .value v => showValue v name
    | reply => return .reply reply
  | .define name body => do
    Eval.modifyDesk fun desk =>
      { desk with definitions := Entries.insert desk.definitions name body }
    return .done
  | .drop name => do
    let found ← Eval.gets fun w => Entries.contains w.desk.registers name
    Eval.modifyDesk fun desk => { desk with registers := Entries.erase desk.registers name }
    return .reply (.flag found)
  | .counter name => do
    return .reply (.integer ((← Eval.gets fun w => Entries.get? w.desk.counters name).getD 0))
  | .onThread steps => do
    let id ← Eval.modifyGet fun w => (w.threads, { w with threads := w.threads + 1 })
    return .answers (← Eval.onThread id false (runAll steps))
  | .rootScope source file name => do
    keepScope (← ScopeId.root (Segment.ofScript source file)) name
  | .childScope pure label name => do keepScope (← scope.child pure label) name
  | .twinScope name => do keepScope (← scope.twin) name
  | .inChildScope pure label e => do
    let child ← scope.child pure label
    showValue (← Eval.holding [.scope child] (e.eval child none)) none
  | .describeScope => do
    let record ← scope.record
    let parent ← record.parent.mapM ScopeId.text
    return .scope { id := ← scope.text, parent, record }
  | .isBelow other => do
    return .reply (.flag (← Eval.gets fun w => w.isAbove (w.desk.scope other) scope))
  | .clear => do scope.clear; return .done
  | .destroy => do scope.destroy; return .done
  | .declare name e flags constraint => do
    let v ← e.eval scope none
    let constraint ← Eval.holding v.places (match constraint with
      | some (predicate, source) => do
        return some { predicate := ← predicate.eval scope none, source }
      | none => pure none)
    showValue (← scope.declare name v { flags, constraint }) none
  | .set name e => do
    let v ← e.eval scope none
    showValue (← scope.set name v) none
  | .get name must register => do showValue (← scope.get name must) register
  | .bind name e => do
    let v ← e.eval scope none
    showValue (← scope.bind name v) none
  | .getParameter name => do showValue (← scope.getParameter name) none
  | .parameters => do showValue (.list (← Eval.gets fun w => w.parameters scope)) none
  | .hasName name => do return .reply (.flag (← Eval.gets fun w => w.hasName scope name))
  | .describeVariable name => do
    let w ← Eval.world
    match w.findVariable? scope name with
    | none => return .reply .absent
    | some (_, id) =>
      let record := w.variableAt id
      return .variable { record, value := record.value.view w }
  | .listenVariable name e => do
    scope.listen name (← e.eval scope none)
    return .done
  | .notifyVariable name => do scope.notify name; return .done
  | .countListeners name => do
    return .reply (.integer (← scope.liveListeners name).length)
  | .addHandler e => do
    scope.addHandler (← e.eval scope none)
    return .done
  | .handleError error register => do showValue (← scope.handleError error) register
  | .reports forget => do
    let reports ← Eval.gets World.reports
    if forget then
      Eval.modify fun w => { w with reports := [] }
      return .reports reports 0
    else return .reports reports reports.length
  | .report error => do
    Eval.modify fun w => { w with reports := w.reports ++ [{ error }] }
    return .done
  | .reference name register => do
    showValue (.lambda (← LambdaId.ofVariable scope name)) (some register)
  | .describeLambda e => do
    return .lambda (← (← (← e.eval scope none).requireLambda).describe)
  | .applyIn e => do
    let v ← e.eval scope none
    let lambda ← v.requireLambda
    showValue (← Eval.holding v.places (lambda.applyIn scope)) none
  | .listen e body name => do
    let v ← e.eval scope none
    let handle ← (match v.lambda? with
      | some lambda => do return Handle.registered (← lambda.listen { scope, body })
      | none => pure .unchanging)
    Eval.modifyDesk fun desk => { desk with handles := Entries.insert desk.handles name handle }
    return .handle handle
  | .listenAs e key body => do
    (← (← e.eval scope none).requireLambda).listenAs (.ofText key) { scope, body }
    return .done
  | .unlisten e name => do
    let v ← e.eval scope none
    let handle := (← Eval.gets fun w => Entries.get? w.desk.handles name).getD
      (.registered (.ofText name))
    match v.lambda?, handle with
    | some lambda, .registered key => return .reply (.flag (← lambda.unlisten key))
    | _, _ => return .reply (.flag false)
  | .subscribe e body => do
    let v ← e.eval scope none
    return .reply (.text (← Eval.holding v.places (v.subscribe { scope, body })))
  | .fork operation body name => do
    let forked ← scope.fork operation body
    Eval.modifyDesk fun desk => { desk with forks := Entries.insert desk.forks name forked }
    showValue forked.value (some name)
  | .awaitFork name millis => do
    let forked ← Eval.gets fun w => (Entries.get? w.desk.forks name).getD default
    showValue (← forked.fork.await (some millis)) none
  | .forkState name => do
    let outcome ← Eval.gets fun w =>
      (w.forkAt ((Entries.get? w.desk.forks name).getD default).fork).outcome
    return .reply (.text (ForkState.ofOutcome outcome).name)
  | .configure change => do
    Eval.modify fun w => { w with config := w.config.change change }
    return .configuration (← Eval.gets World.config)
  | .resolve text register => do showValue (.uri (← Uri.resolve text)) register
  | .hasScheme name => return .reply (.flag (Uri.hasScheme name))
  | .load key register => do
    showValue (← useStore fun store now => .ok (store.get now key)) register
  | .save key e ttl => do
    let v ← e.eval scope none
    let v ← Eval.holding v.places (v.fixDeep false)
    let v ← v.share
    useStore fun store now => (store.set now key v ttl).map fun store => ((), store)
    showValue v none
  | .storeSet key e ttl => do
    let v ← e.eval scope none
    useStore fun store now => (store.set now key v ttl).map fun store => ((), store)
    return .done
  | .storePush key e => do
    let v ← e.eval scope none
    useStore fun store now => (store.push now key v).map fun store => ((), store)
    return .done
  | .storePop key millis => do showValue (← popStore key millis) none
  | .storeRemove key => do
    return .reply (.flag (← useStore fun store now => .ok (store.remove now key)))
  | .storeSize => do return .size (← Eval.gets fun w => w.store.size w.now)
  | .newLearner name expiry => do
    Eval.modify fun w => w.setLearner { expiry } (some name)
    return .done
  | .learn learner operation inputs output => do
    let inputs ← Expr.evalAll scope none inputs
    Eval.modify fun w =>
      w.setLearner
        ((w.learnerNamed learner).learn w.now operation (w.inputShapes inputs) output) learner
    return .done
  | .predict learner operation inputs => do
    let inputs ← Expr.evalAll scope none inputs
    return .reply (.prediction (← Eval.gets fun w =>
      (w.learnerNamed learner).predict operation (w.inputShapes inputs)))
  | .learnerSize learner => do
    return .size (← Eval.gets fun w => (w.learnerNamed learner).entries.length)
  | .clearLearner learner => do
    Eval.modify fun w => w.setLearner (w.learnerNamed learner).clear learner
    return .done
  | .saveLearner learner file => do
    writeFile file (← Eval.gets fun w => Snapshot.encode (w.learnerNamed learner))
    return .done
  | .loadLearner learner file bytes => do
    match bytes with
    | some bytes => writeFile file bytes
    | none => pure ()
    return .reply (.integer (← loadSnapshot learner (← takeFile file)))

/-- The answer of a step. What was logged goes with it. -/
def runStep : Step → Eval Answer
  | .mk name action => do
    let scope ← Eval.gets fun w => w.desk.scope name
    let outcome ← (run scope action).attempt
    let log ← Eval.gets fun w => w.desk.log
    Eval.modifyDesk fun desk => { desk with log := [] }
    return .mk outcome log

/-- The answers of steps in order. -/
def runAll : List Step → Eval (List Answer)
  | [] => return []
  | step :: steps => do
    let answer ← runStep step
    let answers ← runAll steps
    return answer :: answers

end

end Action

/-- The answer of a step. -/
def Step.run (step : Step) : Eval Answer :=
  Action.runStep step

end Reactor
