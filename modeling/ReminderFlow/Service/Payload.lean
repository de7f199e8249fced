import ReminderFlow.Json.Reader
import ReminderFlow.Service.Http

namespace ReminderFlow.Http

inductive Payload where
  | value (v : Value)
  | bytes

namespace Payload

/-- Whether a content type is that of JSON; without one it is taken for JSON. -/
def isJson (contentType : Option String) : Bool :=
  match contentType with
  | none => true
  | some text =>
    let type := lower (String.ofList ((text.toList.takeWhile (· ≠ ';')).filter (· ≠ ' ')))
    match type.splitOn "/" with
    | ["application", subtype] => subtype = "json" || subtype.endsWith "+json"
    | _ => false

def refusal (issue : List (String × Value)) : Response :=
  .json 422 (.obj [("detail", .arr [.obj issue])])

def missing : Response :=
  refusal [("type", .str "missing"), ("loc", .arr [.str "body"]), ("msg", .str "Field required"),
    ("input", .null)]

def malformed (fault : Json.Fault) (offset : Nat) : Response :=
  refusal [("type", .str "json_invalid"), ("loc", .arr [.str "body", .int offset]),
    ("msg", .str "JSON decode error"), ("input", .obj []),
    ("ctx", .obj [("error", .str fault.describe)])]

/-- A mark of the byte order at the start of a body does not count. -/
def unmarked (body : String) : String :=
  match body.toList with
  | c :: rest => if c.toNat = 0xFEFF then String.ofList rest else body
  | [] => body

def ofRequest (r : Request) : Except Response Payload :=
  if r.body = "" then .error missing
  else if !isJson (r.header? "content-type") then .ok bytes
  else
    match Json.read (unmarked r.body) with
    | .ok v => .ok (value v)
    | .error (.malformed fault offset) => .error (malformed fault offset)
    | .error _ => .error (.detail 400 "There was an error parsing the body")

end Payload

end ReminderFlow.Http
