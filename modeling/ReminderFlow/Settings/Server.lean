import ReminderFlow.Settings.Field

namespace ReminderFlow

structure ServerSettings where
  host : String
  port : Nat
  requestTimeout : Double
  /-- Origins that browsers may call from, separated by commas; a star stands for all of them. -/
  origins : String

namespace ServerSettings

open Settings

def read (s : Source) : Checked ServerSettings :=
  ServerSettings.mk <$> s.field "REMINDER_HOST" "127.0.0.1" asGiven
    <*> s.field "REMINDER_PORT" 8000 (wholeBetween 1 65535)
    <*> s.field "REMINDER_REQUEST_TIMEOUT_SECONDS" (Double.ofInt 300) positiveSeconds
    <*> s.field "REMINDER_CORS_ORIGINS" "*" asGiven

/-- The origins without blanks around them; empty ones do not count. -/
def originList (c : ServerSettings) : List String :=
  ((c.origins.splitOn ",").map Text.trim).filter (· ≠ "")

/-- The settings by name, with the list of origins that follows from them. -/
def toJson (c : ServerSettings) : Value :=
  .obj [("host", .str c.host), ("port", .int c.port),
    ("request_timeout_seconds", .float c.requestTimeout), ("cors_origins", .str c.origins),
    ("parsed_cors_origins", .arr (c.originList.map .str))]

end ServerSettings

end ReminderFlow
