import ReminderFlow.Executor.Basic
import ReminderFlow.Text.Blank

namespace ReminderFlow

/-- A channel that only logs. -/
structure Notifier where
  channel : String
  /-- The member of the document that names the recipient. -/
  recipientField : String
  sender : String

namespace Notifier

def logger : String := "reminder_orchestrator.orchestrator.workflow.executors"

def fault (text : String) : Fault := .ofText "ValueError" text

def missing (n : Notifier) : Fault :=
  fault s!"Missing {Text.quote n.recipientField} for {n.channel} reminder"

/-- The recipient that a document names: a text that is not blank. -/
def recipient? (n : Notifier) : Value → Except Fault (List (String × Value) × String)
  | .obj members =>
    match members.lookup n.recipientField with
    | some (.str s) =>
      if Text.isBlankText s then .error n.missing else .ok (members, s)
    | _ => .error n.missing
  | _ => .error (fault s!"{n.channel} reminder expects an object document")

/-- The receipt names the sender if there is one. -/
def receipt (n : Notifier) (recipient : String) : Value :=
  .obj ([("channel", .str n.channel), ("to", .str recipient), ("status", .str "logged")]
    ++ (if n.sender = "" then [] else [("from", .str n.sender)]))

def record (n : Notifier) (recipient : String) : Log.Record where
  level := .info
  logger := logger
  message := "Reminder delivered (dry run)"
  extra := [("channel", .str n.channel), ("recipient", .str recipient),
    ("sender", if n.sender = "" then .null else .str n.sender)]

def reply (n : Notifier) (document : Value) : Reply :=
  match n.recipient? document with
  | .error f => { result := .error f }
  | .ok (members, recipient) =>
    { result := .ok (.ofValue (.obj (Members.insert "delivery" (n.receipt recipient) members)))
      log := [n.record recipient] }

def executor (n : Notifier) : Executor :=
  ⟨"LoggingNotifier", fun _ document => n.reply document⟩

theorem isFunction_executor (n : Notifier) : n.executor.IsFunction := by
  refine ⟨fun v => (n.reply v).result, fun _ v => ⟨rfl, ?_⟩⟩
  simp only [executor, reply]
  split <;> rfl

end Notifier

end ReminderFlow
