import ReminderFlow.Json.Depth
import ReminderFlow.Json.Reader
import ReminderFlow.Outcome
import ReminderFlow.Validation

namespace ReminderFlow

structure Record where
  executionId : String
  status : String
  startedAt : String
  deadline : String
  updatedAt : String
  input : Value
  /-- The state that each active chain is in; the main chain has the empty name. -/
  currentStates : List (String × String)
  completedAt : Option String
  output : Value
  error : Option String
  cause : Option String

namespace Record

def optional : Option String → Value
  | some s => .str s
  | none => .null

def statesJson (states : List (String × String)) : Value :=
  .obj (states.map fun m => (m.1, .str m.2))

def members (r : Record) : List (String × Value) :=
  [("execution_id", .str r.executionId), ("status", .str r.status),
    ("started_at", .str r.startedAt), ("deadline", .str r.deadline), ("updated_at", .str r.updatedAt),
    ("input", r.input),
    ("current_states", statesJson r.currentStates), ("completed_at", optional r.completedAt),
    ("output", r.output), ("error", optional r.error), ("cause", optional r.cause)]

def toJson (r : Record) : Value := .obj r.members

/-- The record with these members, or everything that is wrong with them. Other members do not
matter. -/
def ofMembers (members : List (String × Value)) : Checked Record :=
  let text (field : String) := requiredMember members field fun l v => v.asText l
  let optionalText (field : String) :=
    optionalMember members field none fun l v => v.asOptionalText l
  let anything (field : String) := optionalMember members field Value.null fun _ v => .valid v
  let texts := optionalMember members "current_states" [] fun l v => v.asTexts l
  Record.mk <$> text "execution_id" <*> text "status" <*> text "started_at" <*> text "deadline"
    <*> text "updated_at" <*> anything "input" <*> texts <*> optionalText "completed_at"
    <*> anything "output" <*> optionalText "error" <*> optionalText "cause"

/-- The record in a text, if there is one that is not nested too deep. -/
def read? (codec : Codec) (text : String) : Option Record :=
  match Json.read text with
  | .ok (.obj members) =>
    if (Value.obj members).depth ≤ codec.readDepth then (ofMembers members).toOption else none
  | _ => none

/-- Whether the input and the output are not nested too deep to be written. -/
def isShallow (codec : Codec) (r : Record) : Bool :=
  r.input.depth ≤ codec.writeDepth && r.output.depth ≤ codec.writeDepth

/-- Earlier executions first; of those that started together, by their ids. -/
def before (a b : Record) : Bool :=
  a.startedAt < b.startedAt || (a.startedAt = b.startedAt && a.executionId ≤ b.executionId)

/-- A text or nothing, where an outcome has one. -/
def textOrNull : Value → Option (Option String)
  | .null => some none
  | .str s => some (some s)
  | _ => none

/-- The report on an execution that runs. -/
def running (id : String) (started deadline updated : Instant) (input : Document)
    (states : List (String × String)) : Record where
  executionId := id
  status := Status.running.name
  startedAt := started.text
  deadline := deadline.text
  updatedAt := updated.text
  input := input.value
  currentStates := states
  completedAt := none
  output := .null
  error := none
  cause := none

/-- The last report on an execution, unless the error or the cause is neither a text nor null. -/
def last? (id : String) (started deadline updated : Instant) (input : Document)
    (states : List (String × String)) (at_ : Instant) (outcome : Outcome) : Option Record := do
  let error ← textOrNull outcome.error
  let cause ← textOrNull outcome.cause
  pure { running id started deadline updated input states with
    status := outcome.status.name, completedAt := some at_.text
    output := (outcome.document.map Document.value).getD .null, error := error, cause := cause }

end Record

end ReminderFlow
