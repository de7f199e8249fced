import ReminderFlow.FileTree
import ReminderFlow.Log.Logger
import ReminderFlow.Main
import ReminderFlow.Proofs.CommandLine.Command
import ReminderFlow.Proofs.CommandLine.Plan
import ReminderFlow.Proofs.Condition.Evaluation
import ReminderFlow.Proofs.Condition.Numeric
import ReminderFlow.Proofs.Document
import ReminderFlow.Proofs.Document.Alike
import ReminderFlow.Proofs.Document.Frame
import ReminderFlow.Proofs.Document.Hash
import ReminderFlow.Proofs.Document.Lens
import ReminderFlow.Proofs.Document.Merge
import ReminderFlow.Proofs.Document.Refusal
import ReminderFlow.Proofs.Engine.Answers
import ReminderFlow.Proofs.Engine.Callbacks
import ReminderFlow.Proofs.Engine.Completion
import ReminderFlow.Proofs.Engine.Conduct
import ReminderFlow.Proofs.Engine.Deadline
import ReminderFlow.Proofs.Engine.Delivery
import ReminderFlow.Proofs.Engine.Duration
import ReminderFlow.Proofs.Engine.Ensures
import ReminderFlow.Proofs.Engine.ForkJoin
import ReminderFlow.Proofs.Engine.Independence
import ReminderFlow.Proofs.Engine.Lifecycle
import ReminderFlow.Proofs.Engine.Logging
import ReminderFlow.Proofs.Engine.Moves
import ReminderFlow.Proofs.Engine.Offers
import ReminderFlow.Proofs.Engine.Persistence
import ReminderFlow.Proofs.Engine.Plans
import ReminderFlow.Proofs.Engine.Pointers
import ReminderFlow.Proofs.Engine.Proper
import ReminderFlow.Proofs.Engine.Registered
import ReminderFlow.Proofs.Engine.Reminder
import ReminderFlow.Proofs.Engine.Retention
import ReminderFlow.Proofs.Engine.Safety
import ReminderFlow.Proofs.Engine.Scheduler
import ReminderFlow.Proofs.Engine.Shutdown
import ReminderFlow.Proofs.Engine.Standstill
import ReminderFlow.Proofs.Json.LongNumber
import ReminderFlow.Proofs.Json.Number
import ReminderFlow.Proofs.Json.Proper
import ReminderFlow.Proofs.Json.RoundTrip
import ReminderFlow.Proofs.Machine.Breakdown
import ReminderFlow.Proofs.Machine.Load
import ReminderFlow.Proofs.Machine.Operators
import ReminderFlow.Proofs.Machine.RoundTrip
import ReminderFlow.Proofs.Machine.Validation
import ReminderFlow.Proofs.Number.Nearest
import ReminderFlow.Proofs.Number.Rational
import ReminderFlow.Proofs.Number.Shortest
import ReminderFlow.Proofs.Path
import ReminderFlow.Proofs.Record
import ReminderFlow.Proofs.Run.Address
import ReminderFlow.Proofs.Run.Ensures
import ReminderFlow.Proofs.Run.Proper
import ReminderFlow.Proofs.Run.Reminder
import ReminderFlow.Proofs.Run.Rest
import ReminderFlow.Proofs.Run.Turn
import ReminderFlow.Proofs.Service.Trigger
import ReminderFlow.Proofs.Store
import ReminderFlow.Proofs.Store.Map
import ReminderFlow.Service.Form
