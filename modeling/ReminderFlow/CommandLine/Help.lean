import ReminderFlow.CommandLine.Command

namespace ReminderFlow.CommandLine.Program

/-- How a program is called. -/
def usage : Program → String
  | main => "usage: reminders [-h] [--version] \x7bdefinition,run,serve\x7d ...\n"
  | definition => "usage: reminders definition [-h]\n"
  | run => "usage: reminders run [-h] --input INPUT [--timeout-seconds TIMEOUT_SECONDS]\n"
  | serve => "usage: reminders serve [-h] [--host HOST] [--port PORT]\n"

def helpLines : Program → List String
  | main =>
    ["Deliver reminders by email, SMS, or both after a delay",
     "",
     "positional arguments:",
     "  \x7bdefinition,run,serve\x7d",
     "    definition          Validate the configured state machine and print it as",
     "                        JSON",
     "    run                 Run one execution and print its terminal document",
     "    serve               Serve the HTTP trigger",
     "",
     "options:",
     "  -h, --help            show this help message and exit",
     "  --version             show program's version number and exit"]
  | definition =>
    ["options:",
     "  -h, --help  show this help message and exit"]
  | run =>
    ["options:",
     "  -h, --help            show this help message and exit",
     "  --input INPUT         Path to a JSON reminder request, or '-' to read stdin",
     "  --timeout-seconds TIMEOUT_SECONDS",
     "                        Execution deadline (defaults to",
     "                        REMINDER_EXECUTION_TIMEOUT_SECONDS)"]
  | serve =>
    ["options:",
     "  -h, --help   show this help message and exit",
     "  --host HOST  Bind address (defaults to REMINDER_HOST)",
     "  --port PORT  Port (defaults to REMINDER_PORT)"]

def help (p : Program) : String :=
  p.usage ++ "\n" ++ String.join (p.helpLines.map (· ++ "\n"))

end ReminderFlow.CommandLine.Program
