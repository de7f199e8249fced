import ReminderFlow.CommandLine.Help
import ReminderFlow.Service.Basic

namespace ReminderFlow.CommandLine

/-- A fault that no command reports in words of its own. -/
inductive Fault where
  | logLevel (given : String)
  | machine (e : LoadError)
  | inputNotUtf8
  | inputNumberTooLong (digits : Nat)
  | inputTooDeep
  /-- Not a fault of the input: half of a surrogate pair, which no value here can hold. -/
  | inputHalfPair
  | channel (e : ChannelError)
  | start (e : Engine.StartError)
  | outcome (fault : ReminderFlow.Fault)
  | closing
  | settings (issues : List Issue)

def Fault.raised : Fault → ReminderFlow.Fault
  | .logLevel given => .ofText "ValueError" s!"Unknown level: {Text.quote given.toUpper}"
  | .machine e => e.fault
  | .inputNotUtf8 => .ofText "UnicodeDecodeError" "The input is not UTF-8"
  | .inputNumberTooLong digits => .ofText "ValueError" (Text.overLimit digits)
  | .inputTooDeep => .tooDeep
  | .inputHalfPair => .ofText "UnicodeError" "surrogates not allowed"
  | .channel e => .ofText "ValueError" e.message
  | .start e => e.fault
  | .outcome fault => fault
  | .closing => .ofText "TimeoutError" ""
  | .settings issues => .ofText "ValidationError" ("\n".intercalate (issues.map Issue.message))

inductive Ending where
  | exit (code : Nat)
  | fault (f : Fault)

structure Report where
  ending : Ending
  output : String := ""
  errors : String := ""
  log : List Log.Record := []
  /-- Whether the command line itself is why there is nothing more. -/
  usage : Bool := false

namespace Report

def ofRefusal : Refusal → Report
  | .help p => { ending := .exit 0, output := p.help, usage := true }
  | .version =>
    { ending := .exit 0, output := s!"reminder-orchestrator {version}\n", usage := true }
  | .misuse p message =>
    { ending := .exit 2, errors := p.usage ++ s!"{p.name}: error: {message}\n", usage := true }

def issueLine (i : Issue) : String :=
  String.join (i.location.map (· ++ ": ")) ++ i.message ++ "\n"

/-- Wrong settings are told before there is a log. -/
def ofIssues (issues : List Issue) : Report where
  ending := .exit 2
  errors := "Configuration error (check your .env):\n" ++ String.join (issues.map issueLine)

def ofFault (f : Fault) (log : List Log.Record) : Report := { ending := .fault f, log := log }

def logger : String := "reminder_orchestrator.orchestrator.main"

/-- A machine that is refused for a reason is reported; other faults are passed on. -/
def ofRefusedMachine (cause : String) (log : List Log.Record) : Report where
  ending := .exit 2
  errors := s!"Invalid state machine definition: {cause}\n"
  log := log ++ [{ level := .error, logger := logger
                   message := "Invalid state machine definition"
                   extra := [("cause", .str cause)] }]

def ofLoadError (e : LoadError) : Report :=
  match e.report? with
  | some (_, cause) => ofRefusedMachine cause []
  | none => ofFault (.machine e) []

def ofServiceError (log : List Log.Record) : ServiceError → Report
  | .settings issues => ofFault (.settings issues) log
  | .machine e => ofLoadError e
  | .channel e => ofFault (.channel e) log
  | .unregistered ids => ofRefusedMachine (ServiceError.unregisteredMessage ids) log

/-- An input that cannot be read. -/
def ofBadInput (reason : String) (log : List Log.Record) : Report where
  ending := .exit 2
  errors := s!"Cannot read input: {reason}\n"
  log := log

/-- The line that tells how an execution has ended. -/
def endLine (id : String) (o : Outcome) : Except ReminderFlow.Fault String := do
  let error ← (Datum.ofValue o.error).text
  let cause ← (Datum.ofValue o.cause).text
  pure s!"Execution {id} {o.status.name}: {error}: {cause}\n"

/-- The report on an execution: its document, or why there is none. -/
def ofOutcome (id : String) (o : Outcome) (log : List Log.Record) : Report :=
  match o.status, o.document with
  | .succeeded, some doc =>
    { ending := .exit 0, output := Json.pretty doc.value ++ "\n", log := log }
  | _, _ =>
    match endLine id o with
    | .ok line => { ending := .exit 1, log := log, errors := line }
    | .error fault => ofFault (.outcome fault) log

/-- Only records that reach the threshold are written. -/
def limited (threshold : Nat) (r : Report) : Report :=
  { r with log := r.log.filter fun x => threshold ≤ x.level.number }

end Report

end ReminderFlow.CommandLine
