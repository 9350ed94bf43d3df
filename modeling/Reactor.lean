import Reactor.Prediction.Snapshot
import Reactor.Value.Cast
import Reactor.Value.Stream
import Reactor.Engine.Liveness
import Reactor.Engine.Scope
import Reactor.Engine.Variable
import Reactor.Script.Answer
import Reactor.Script.Evaluate
import Reactor.Engine.Fork
import Reactor.Engine.Machine
import Reactor.Session.View
import Reactor.Session.Step
import Reactor.Session.Basic
import Reactor.Proofs.Advice
import Reactor.Proofs.Variables.Invariant
import Reactor.Proofs.Network.Alive
import Reactor.Proofs.Queues.Run
import Reactor.Proofs.Trees.RoundTrip
import Reactor.Proofs.Shelves.Run
import Reactor.Proofs.Ordering.Agreement
import Reactor.Proofs.Names.Assignment
import Reactor.Proofs.Purity.Confinement
import Reactor.Proofs.Network.Telling
import Reactor.Proofs.Failures.Assertions
import Reactor.Proofs.Failures.Reports
import Reactor.Proofs.Failures.Sources
import Reactor.Proofs.Failures.Panics
import Reactor.Proofs.Learning.Runs
import Reactor.Proofs.Tracking.Readers
import Reactor.Proofs.Chains.Force
import Reactor.Proofs.Chains.Run
import Reactor.Proofs.Network.Fixing
import Reactor.Proofs.Traversals.Ends
import Reactor.Proofs.Traversals.Run
import Reactor.Proofs.Passes.Run
import Reactor.Proofs.Chains.Bound
import Reactor.Proofs.Fixing.Again
import Reactor.Proofs.Histories.Readings
import Reactor.Proofs.Forks.Observers
import Reactor.Proofs.Refusals.Calls
import Reactor.Proofs.Calendar.Overruns
import Reactor.Proofs.Trees.Dates
import Reactor.Proofs.Learning.Files
import Reactor.Proofs.Operators.Integers
import Reactor.Proofs.Ranges.Shifts
import Reactor.Proofs.Casts
import Reactor.Proofs.Sorting.Values
import Reactor.Proofs.Collections.Equals
import Reactor.Proofs.Collections.Slots
import Reactor.Proofs.Learning.Choices
import Reactor.Proofs.Names.Parameters
import Reactor.Proofs.Tracking.Feedback
