import ReminderFlow.Json.Finite
import ReminderFlow.Service.Origin
import ReminderFlow.Service.Payload
import ReminderFlow.Service.Trigger
import ReminderFlow.Surroundings

namespace ReminderFlow

def version : String := "0.1.0"

inductive ServiceError where
  | settings (issues : List Issue)
  | machine (e : LoadError)
  | channel (e : ChannelError)
  | unregistered (ids : List String)

def ServiceError.unregisteredMessage (ids : List String) : String :=
  "Task states reference unregistered executors: " ++ ", ".intercalate ids

structure Service where
  trigger : Trigger
  policy : Http.OriginPolicy
  scheduler : Scheduler
  codec : Codec
  id : Nat → String

namespace Service

def title : String := "Reminder Orchestrator"

def readyRecord (c : Settings) (registry : Registry) : Log.Record where
  level := .info
  logger := "reminder_orchestrator.server.app"
  message := "Reminder service ready"
  extra := [("executors", .list (registry.ids.map .str)), ("state_dir", .str c.executionsPath)]

/-- The executors that are given, or those of the channels, and what is logged of them. -/
def executors (s : Surroundings) (c : Settings) (given : Option Registry) :
    Except ChannelError (Registry × List Log.Record) :=
  match given with
  | some r => .ok (r, [])
  | none =>
    let channels := Channels.ofSettings c
    (channels.registry s.network).map fun r => (r, [channels.record])

/-- Set the service up. What is logged on the way is told also where that fails. -/
def make (s : Surroundings) (given : Option Registry) :
    Except (ServiceError × List Log.Record) (Service × List Log.Record) := do
  let c ← (Settings.read s.source).toExcept.mapError fun e => (.settings e, [])
  let server ← (ServerSettings.read s.source).toExcept.mapError fun e => (.settings e, [])
  let (machine, loaded) ← (s.machine c).mapError fun e => (.machine e, [])
  let (registry, created) ← (executors s c given).mapError fun e => (.channel e, loaded)
  match registry.missing machine.executorIds with
  | [] =>
    let trigger : Trigger :=
      ⟨machine, .float c.executionTimeout, .double server.requestTimeout, s.room⟩
    pure (⟨trigger, ⟨server.originList⟩, s.scheduler c registry, s.codec, s.id⟩,
      loaded ++ created ++ [readyRecord c registry])
  | ids => throw (.unregistered ids, loaded ++ created)

inductive Route where
  | health
  | machine
  | reminders
  | executions
  | execution (id : String)

namespace Route

/-- The route of a path in segments, the first of which is empty. -/
def ofSegments? : List String → Option Route
  | ["", "reminders"] => some reminders
  | ["", "api", "v1", "health"] => some health
  | ["", "api", "v1", "definition"] => some machine
  | ["", "api", "v1", "executions"] => some executions
  | ["", "api", "v1", "executions", id] => if id = "" then none else some (execution id)
  | _ => none

def ofPath? (path : String) : Option Route := ofSegments? (path.splitOn "/")

/-- The one method that a route takes. -/
def method : Route → String
  | reminders => "POST"
  | _ => "GET"

end Route

/-- The path without slashes at its end, if it is a route only so. -/
def redirect? (path : String) : Option String :=
  let bare := String.ofList (path.toList.reverse.dropWhile (· = '/')).reverse
  if bare ≠ path && (Route.ofPath? bare).isSome then some bare else none

/-- A record as the service shows it, unless its status is none. -/
def executionJson? (r : Record) : Option Value :=
  if (Status.ofName? r.status).isNone then none
  else some (.obj [("executionId", .str r.executionId), ("status", .str r.status),
    ("startedAt", .str r.startedAt), ("deadline", .str r.deadline), ("updatedAt", .str r.updatedAt),
    ("completedAt", Record.optional r.completedAt),
    ("currentStates", Record.statesJson r.currentStates), ("input", r.input.finiteOrNull),
    ("output", r.output.finiteOrNull), ("error", Record.optional r.error),
    ("cause", Record.optional r.cause)])

def store (s : Service) : Store :=
  (s.scheduler.engine.archive.map Archive.store).getD (.empty s.codec)

/-- Take a request for a reminder. Bodies that are not JSON are answered like those that are no
object; an answer with a number that is not finite cannot be given. -/
def createReminder (s : Service) (r : Http.Request) : Service × Option Http.Response :=
  match Http.Payload.ofRequest r with
  | .error refusal => (s, some refusal)
  | .ok .bytes => (s, some (.json Trigger.invalidRequest.status Trigger.invalidRequest.body))
  | .ok (.value v) =>
    let id := s.id s.scheduler.engine.executions.length
    match s.trigger.submit s.scheduler id (.ofValue v) with
    | (scheduler, .ok response) =>
      ({ s with scheduler := scheduler },
        if response.body.allFinite then some (.json response.status response.body) else none)
    | (scheduler, .error _) => ({ s with scheduler := scheduler }, none)

/-- The answer of a route, unless the service breaks down over it. -/
def serve (s : Service) (r : Http.Request) : Route → Service × Option Http.Response
  | .health => (s, some (.json 200 (.obj [("status", .str "ok"), ("version", .str version)])))
  | .machine =>
    let shown := s.trigger.machine.toJson.finiteOrNull
    (s, if shown.depth ≤ s.codec.writeDepth then some (.json 200 shown) else none)
  | .reminders => s.createReminder r
  | .executions =>
    (s, (s.store.list.toOption.bind fun rs => rs.mapM executionJson?).map fun shown =>
      .json 200 (.arr shown))
  | .execution id =>
    match s.store.get id with
    | .ok (some record) => (s, (executionJson? record).map (.json 200))
    | .ok none => (s, some (.detail 404 "Execution not found"))
    | .error _ => (s, none)

def dispatch (s : Service) (r : Http.Request) : Service × Option Http.Response :=
  match Route.ofPath? r.path with
  | some route =>
    if r.method = route.method then s.serve r route
    else (s, some (.detail 405 "Method Not Allowed"))
  | none =>
    match redirect? r.path with
    | some bare => (s, some { Http.Response.text 307 "" with location := some bare })
    | none => (s, some (.detail 404 "Not Found"))

def handle (s : Service) (r : Http.Request) : Service × Http.Response :=
  match Http.OriginPolicy.question? r with
  | some (origin, method) => (s, s.policy.preflight origin method)
  | none =>
    let (s, response) := s.dispatch r
    (s, (response.map (s.policy.tell r)).getD .serverError)

/-- The answer where a redirect leads to, for one that is followed. -/
def handleFollowing (s : Service) (r : Http.Request) : Service × Http.Response :=
  match s.handle r with
  | (s, response) =>
    match response.location with
    | some path => s.handle { r with target := path }
    | none => (s, response)

end Service

end ReminderFlow
