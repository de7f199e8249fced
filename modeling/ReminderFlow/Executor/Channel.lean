import ReminderFlow.Executor.Notifier
import ReminderFlow.Executor.Registry
import ReminderFlow.Executor.Webhook
import ReminderFlow.Machine.Reminder
import ReminderFlow.Settings.Basic

namespace ReminderFlow

structure Channel where
  name : String
  /-- The member of a document that names the recipient. -/
  recipientField : String
  mode : String
  url : String
  timeout : Double
  sender : String

inductive ChannelError where
  | unsupported (channel mode : String)
  | address (message : String)

def ChannelError.message : ChannelError → String
  | unsupported channel mode => s!"Unsupported {channel} executor: {mode}"
  | address message => message

namespace Channel

/-- A sender is a member of what is posted, unless it is empty. -/
def senderFields (c : Channel) : List (String × Value) :=
  if c.sender = "" then [] else [("sender", .str c.sender)]

def executor (c : Channel) (network : Network) : Except ChannelError Executor :=
  match ChannelMode.choices.lookup c.mode with
  | some .log => .ok (Notifier.executor ⟨c.name, c.recipientField, c.sender⟩)
  | some .webhook =>
    match Webhook.make? c.url (.float c.timeout) c.senderFields with
    | .ok w => .ok (w.executor network)
    | .error message => .error (.address message)
  | none => .error (.unsupported c.name c.mode)

end Channel

/-- The two channels. -/
structure Channels where
  email : Channel
  sms : Channel

namespace Channels

def ofSettings (c : Settings) : Channels where
  email := ⟨"email", "email", c.emailMode.name, c.emailUrl, c.webhookTimeout, c.verifiedEmail⟩
  sms := ⟨"sms", "phone", c.smsMode.name, c.smsUrl, c.webhookTimeout, ""⟩

/-- The registry of the channels; the email channel is made first. -/
def registry (c : Channels) (network : Network) : Except ChannelError Registry := do
  let email ← c.email.executor network
  let sms ← c.sms.executor network
  pure ⟨[(Machine.emailExecutor, email), (Machine.smsExecutor, sms)]⟩

def record (c : Channels) : Log.Record where
  level := .info
  logger := Notifier.logger
  message := "Creating reminder executors"
  extra := [("email_executor", .str c.email.mode), ("sms_executor", .str c.sms.mode)]

end Channels

end ReminderFlow
