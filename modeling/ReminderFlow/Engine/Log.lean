import ReminderFlow.Engine.Basic

namespace ReminderFlow

/-- A fault of the store as the log reports it. -/
def StoreError.report (directory : String) : StoreError → String
  | blocked fault => s!"{fault.kind}: {fault.message directory}"
  | invalidId id => s!"ValueError: {(invalidId id).message}"
  | tooDeep => s!"ValueError: {tooDeep.message}"
  | integerTooLong => s!"ValueError: {integerTooLong.message}"
  | e => s!"OSError: {e.message}"

namespace Engine

def logger : String := "reminder_orchestrator.orchestrator.workflow.engine"

/-- A record that is made inside an execution, in a branch unless that has no name. -/
def inside (id branch : String) (r : Log.Record) : Log.Record :=
  r.within (.bind id (if branch = "" then none else some branch))

namespace Event

/-- What an event logs, where the store has its records in a directory. -/
def log (directory : String) : Event → List Log.Record
  | started id deadline =>
    [{ level := .info, logger := logger, message := "Execution started"
       extra := [("execution_id", .str id), ("deadline", .str deadline.text)] }]
  | chain id (.entered branch state type) =>
    [inside id branch { level := .debug, logger := logger, message := "Entering state"
                        extra := [("state", .str state), ("type", .str type)] }]
  | chain id (.refused branch executor text) =>
    [inside id branch { level := .warning, logger := logger, message := "Task executor failed"
                        extra := [("executor_id", .str executor), ("cause", .str text)] }]
  | performed _ reply => reply.log
  | settled id _ (some crash) =>
    [inside id "" { level := .error, logger := logger, message := "Execution crashed"
                    exception := some crash.report }]
  | written r (some fault) =>
    [{ level := .error, logger := logger, message := "Failed to persist execution record"
       extra := [("execution_id", .str r.executionId), ("status", .str r.status)]
       exception := some (fault.report directory) }]
  | dropped id =>
    [{ level := .warning, logger := logger, message := "Execution record dropped after shutdown"
       extra := [("execution_id", .str id)] }]
  | finished id outcome =>
    [inside id ""
      { level := if outcome.status = .succeeded then .info else .warning
        logger := logger, message := "Execution finished"
        extra := [("status", .str outcome.status.name), ("error", .ofValue outcome.error),
          ("cause", .ofValue outcome.cause)] }]
  | complained id report =>
    [inside id "" { level := .error, logger := logger, message := "Execution done callback failed"
                    exception := some report }]
  | _ => []

end Event

def log (directory : String) (events : List Event) : List Log.Record :=
  events.flatMap (Event.log directory)

end Engine

end ReminderFlow
