import ReminderFlow.Datum
import ReminderFlow.Json.Writer
import ReminderFlow.Log.Level

namespace ReminderFlow

namespace Datum

/-- The text of a key in an object, if it can be one. -/
def keyText? : Datum → Option String
  | str s => some s
  | null => some "null"
  | bool b => some (if b then "true" else "false")
  | int n => if n.natAbs < tenTo Text.wholeLimit then some (toString n) else none
  | float x => some (NumberLayout.document.write x)
  | _ => none

mutual

/-- A datum as a log line shows it: what is no JSON is shown by its text. What has no text spoils
the line. -/
def shown? : Datum → Option Value
  | null => some .null
  | bool b => some (.bool b)
  | int n => if n.natAbs < tenTo Text.wholeLimit then some (.int n) else none
  | float x => some (.float x)
  | str s => some (.str s)
  | list items => (shownItems? items).map .arr
  | tuple items => (shownItems? items).map .arr
  | dict entries => (shownEntries? entries).map .obj
  | foreign thing => thing.text.toOption.map .str

def shownItems? : List Datum → Option (List Value)
  | [] => some []
  | d :: rest => do
    let v ← shown? d
    let more ← shownItems? rest
    pure (v :: more)

def shownEntries? : List (Datum × Datum) → Option (List (String × Value))
  | [] => some []
  | (k, d) :: rest => do
    let name ← k.keyText?
    let v ← shown? d
    let more ← shownEntries? rest
    pure ((name, v) :: more)

end

end Datum

namespace Log

structure Context where
  executionId : Option String
  branch : Option String

namespace Context

def none : Context := ⟨.none, .none⟩

/-- Binding an execution starts without a branch unless one is given. -/
def bind (executionId : String) (branch : Option String) : Context := ⟨executionId, branch⟩

def onBranch (c : Context) (branch : Option String) : Context := { c with branch := branch }

end Context

structure Record where
  level : Level
  logger : String
  message : String
  extra : List (String × Datum) := []
  exception : Option String := none

namespace Record

/-- Names that an extra may not take, because every record has them. -/
def reserved : List String :=
  ["name", "msg", "args", "levelname", "levelno", "pathname", "filename", "module", "exc_info",
    "exc_text", "stack_info", "lineno", "funcName", "created", "msecs", "relativeCreated", "thread",
    "threadName", "processName", "process", "message", "asctime"]

/-- The extra with what is bound where the record is made. -/
def boundExtra (r : Record) (c : Context) : List (String × Datum) :=
  let withId := match c.executionId with
    | some id => if Members.contains "execution_id" r.extra then r.extra
      else r.extra ++ [("execution_id", .str id)]
    | none => r.extra
  match c.branch with
  | some branch => if branch = "" || Members.contains "branch" withId then withId
    else withId ++ [("branch", .str branch)]
  | none => withId

/-- The record with what is bound where it is made. -/
def within (r : Record) (c : Context) : Record := { r with extra := r.boundExtra c }

def isWritten (name : String) : Bool :=
  name ≠ "execution_id" && !name.startsWith "_"

/-- The members of a record, its time apart, if it can be written. -/
def members? (r : Record) : Option (List (String × Value)) := do
  let id ← match r.extra.lookup "execution_id" with
    | some .null => pure []
    | some d => d.shown?.map fun v => [("execution_id", v)]
    | none => pure []
  let shown ← (r.extra.filter fun m => isWritten m.1).mapM fun m =>
    m.2.shown?.map fun v => (m.1, v)
  pure ([("level", .str r.level.name), ("logger", .str r.logger), ("message", .str r.message)] ++ id
    ++ (if shown.isEmpty then [] else [("extra", .obj shown)])
    ++ (match r.exception with
      | some text => [("exception", .str text)]
      | none => []))

def toJson? (r : Record) : Option Value := r.members?.map .obj

/-- The line of a record with its time, if it can be written. -/
def line? (time : String) (r : Record) : Option String :=
  r.members?.map fun members => Json.line (.obj (("timestamp", .str time) :: members))

end Record

end Log

end ReminderFlow
