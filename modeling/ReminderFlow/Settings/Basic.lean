import ReminderFlow.FilePath
import ReminderFlow.Settings.Field

namespace ReminderFlow

/-- How a channel delivers: by a log record only, or by a post to a web service. -/
inductive ChannelMode where
  | log
  | webhook
  deriving DecidableEq

namespace ChannelMode

def name : ChannelMode → String
  | log => "log"
  | webhook => "webhook"

def choices : List (String × ChannelMode) := [(log.name, log), (webhook.name, webhook)]

theorem lookup_name (m : ChannelMode) : choices.lookup m.name = some m := by
  cases m <;> decide

end ChannelMode

structure Settings where
  logLevel : String
  executionTimeout : Double
  statePath : String
  /-- Without a file the built-in machine is run. -/
  definitionPath : Option String
  workers : Nat
  emailMode : ChannelMode
  emailUrl : String
  smsMode : ChannelMode
  smsUrl : String
  webhookTimeout : Double
  /-- Reminders by email name this sender. -/
  verifiedEmail : String

namespace Settings

def pathField (_location : List String) (text : String) : Checked String :=
  .valid (FilePath.normal text)

def fields (s : Source) : Checked Settings :=
  let seconds (name : String) (default : Int) :=
    s.field name (Double.ofInt default) positiveSeconds
  let mode (name : String) := s.field name ChannelMode.log (oneOf ChannelMode.choices)
  Settings.mk <$> s.field "LOG_LEVEL" "INFO" asGiven
    <*> seconds "REMINDER_EXECUTION_TIMEOUT_SECONDS" 300
    <*> s.field "REMINDER_STATE_PATH" "reminder_state" pathField
    <*> s.field "REMINDER_DEFINITION_PATH" none (fun l t => some <$> pathField l t)
    <*> s.field "REMINDER_TASK_WORKERS" 8 (wholeBetween 1 256)
    <*> mode "REMINDER_EMAIL_EXECUTOR"
    <*> s.field "REMINDER_EMAIL_WEBHOOK_URL" "" asGiven
    <*> mode "REMINDER_SMS_EXECUTOR"
    <*> s.field "REMINDER_SMS_WEBHOOK_URL" "" asGiven
    <*> seconds "REMINDER_WEBHOOK_TIMEOUT_SECONDS" 30
    <*> s.field "VERIFIED_EMAIL" "" asGiven

/-- A channel by web service whose address is blank. -/
def lacksUrl (mode : ChannelMode) (url : String) : Bool :=
  mode = .webhook && Text.isBlankText url

def urlIssue (name channel : String) : Issue :=
  .value s!"{name} is required when the {channel} executor is 'webhook'"

/-- The first channel that lacks its address is reported. -/
def checkUrls (c : Settings) : Checked Settings :=
  if lacksUrl c.emailMode c.emailUrl then
    .fail (urlIssue "REMINDER_EMAIL_WEBHOOK_URL" "email")
  else if lacksUrl c.smsMode c.smsUrl then .fail (urlIssue "REMINDER_SMS_WEBHOOK_URL" "sms")
  else .valid c

def read (s : Source) : Checked Settings := (fields s).andThen checkUrls

/-- The directory of the execution records. -/
def executionsPath (c : Settings) : String := FilePath.child c.statePath "executions"

/-- The settings by name, with the directory that follows from them. -/
def toJson (c : Settings) : Value :=
  .obj [("log_level", .str c.logLevel), ("execution_timeout_seconds", .float c.executionTimeout),
    ("state_path", .str c.statePath),
    ("definition_path", (c.definitionPath.map Value.str).getD .null),
    ("task_workers", .int c.workers),
    ("email_executor", .str c.emailMode.name), ("email_webhook_url", .str c.emailUrl),
    ("sms_executor", .str c.smsMode.name), ("sms_webhook_url", .str c.smsUrl),
    ("webhook_timeout_seconds", .float c.webhookTimeout), ("verified_email", .str c.verifiedEmail),
    ("executions_dir", .str c.executionsPath)]

end Settings

end ReminderFlow
