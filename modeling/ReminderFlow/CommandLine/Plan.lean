import ReminderFlow.CommandLine.Report
import ReminderFlow.Engine.Log

namespace ReminderFlow.CommandLine

/-- An execution that has been started, and what has been logged before. -/
structure Launch where
  id : String
  scheduler : Scheduler
  log : List Log.Record
  threshold : Nat
  /-- Where the records are kept. -/
  directory : String

namespace Launch

/-- All that is logged by now. -/
def records (l : Launch) : List Log.Record :=
  (l.log ++ Engine.log l.directory l.scheduler.history.reverse).filter fun x =>
    l.threshold ≤ x.level.number

/-- The report on an execution that has ended, once the engine is closed. -/
def report (l : Launch) (o : Outcome) : Report :=
  match l.scheduler.close? with
  | some scheduler => .ofOutcome l.id o { l with scheduler := scheduler }.records
  | none => .ofFault .closing l.records

/-- The launch as it stands so many nanoseconds after the start, or when the execution is done. -/
def upTo (l : Launch) (nanoseconds : Nat) : Launch :=
  { l with scheduler :=
      l.scheduler.waitFor (Scheduler.isDone l.id) (nanoseconds - l.scheduler.now) }

/-- The outcome, once the execution is done. -/
def outcome? (l : Launch) : Option Outcome := do
  let x ← l.scheduler.engine.execution? l.id
  if x.phase.isDone then x.outcome? else none

end Launch

/-- Where the service is to be reached. -/
structure Binding where
  host : String
  port : Int

inductive Plan where
  | done (r : Report)
  | execution (l : Launch)
  | service (r : Report) (binding : Binding) (s : Service)

/-- The text of an input: a hyphen stands for the standard input. -/
def inputText (s : Surroundings) (input : String) : Except FileFault String :=
  if input = "-" then .ok s.input else Entry.readText (s.files (FilePath.normal input))

/-- The value that an input holds, or the report that it holds none. -/
def readInput (s : Surroundings) (input : String) (log : List Log.Record) : Except Report Value :=
  match inputText s input with
  | .error .notUtf8 => .error (.ofFault .inputNotUtf8 log)
  | .error fault => .error (.ofBadInput (fault.message (FilePath.normal input)) log)
  | .ok text =>
    if s.room.reads text then
      match Json.read text with
      | .ok v => .ok v
      | .error (.malformed fault offset) => .error (.ofBadInput (fault.message text offset) log)
      | .error (.integerTooLong digits) => .error (.ofFault (.inputNumberTooLong digits) log)
      | .error .halfPair => .error (.ofFault .inputHalfPair log)
    else .error (.ofFault .inputTooDeep log)

/-- Print the state machine. -/
def definition (s : Surroundings) (c : Settings) : Report :=
  match s.machine c with
  | .error e => .ofLoadError e
  | .ok (m, log) => { ending := .exit 0, output := Json.pretty m.toJson ++ "\n", log := log }

/-- Start an execution; what is wrong with the machine is found before the input is read. -/
def launch (s : Surroundings) (c : Settings) (threshold : Nat) (input : String)
    (timeout : Option Double) : Except Report Launch := do
  let (m, loaded) ← (s.machine c).mapError .ofLoadError
  let v ← readInput s input loaded
  let channels := Channels.ofSettings c
  let log := loaded ++ [channels.record]
  let registry ← (channels.registry s.network).mapError fun e => .ofFault (.channel e) log
  let limit := Datum.float (timeout.getD c.executionTimeout)
  let id := s.id 0
  if !s.room.walks (.ofValue v) then throw (.ofFault .inputTooDeep log)
  let scheduler ← ((s.scheduler c registry).start id (some m) (.ofValue v) limit).mapError fun e =>
    .ofFault (.start e) log
  pure ⟨id, scheduler, log, threshold, c.executionsPath⟩

/-- Where the service is to be reached: an empty host and port zero are none. -/
def binding (c : ServerSettings) (host : Option String) (port : Option Int) : Binding where
  host := (host.filter (· ≠ "")).getD c.host
  port := (port.filter (· ≠ 0)).getD c.port

/-- Set the service up. -/
def serve (s : Surroundings) (host : Option String) (port : Option Int) : Plan :=
  match ServerSettings.read s.source with
  | .invalid issues => .done (.ofFault (.settings issues) [])
  | .valid c =>
    match Service.make s none with
    | .error (e, log) => .done (.ofServiceError log e)
    | .ok (service, log) => .service { ending := .exit 0, log := log } (binding c host port) service

namespace Plan

/-- Only records that reach the threshold are written. -/
def limited (threshold : Nat) : Plan → Plan
  | done r => done (r.limited threshold)
  | execution l => execution l
  | service r b s => service (r.limited threshold) b s

def ofLaunch : Except Report Launch → Plan
  | .ok l => execution l
  | .error r => done r

/-- What a command comes to under these settings. -/
def ofCommand (s : Surroundings) (c : Settings) (threshold : Nat) (command : Command) : Plan :=
  limited threshold (match command with
    | .definition => done (definition s c)
    | .run input timeout => ofLaunch (launch s c threshold input timeout)
    | .serve host port => serve s host port)

/-- What a command line comes to: the command is looked at first, then the settings. -/
def make (s : Surroundings) (arguments : List String) : Plan :=
  match Command.parse arguments with
  | .error refusal => done (.ofRefusal refusal)
  | .ok command =>
    match Settings.read s.source with
    | .invalid issues => done (.ofIssues issues)
    | .valid c =>
      match Log.threshold? c.logLevel with
      | none => done (.ofFault (.logLevel c.logLevel) [])
      | some threshold => ofCommand s c threshold command

end Plan

end ReminderFlow.CommandLine
