import ReminderFlow.Executor.Basic
import ReminderFlow.Json.Reader

namespace ReminderFlow

/-- What comes of a post. -/
inductive Delivery where
  | answered (status : Int) (body : String)
  | failed (text : String)

abbrev Network := Post → Delivery

structure Webhook where
  url : String
  timeout : Value
  /-- Members that are set in every object that is posted. -/
  fields : List (String × Value)

namespace Webhook

def defaultTimeout : Value := .float (Double.ofInt 30)

/-- A webhook needs an address. -/
def make? (url : String) (timeout : Value) (fields : List (String × Value)) :
    Except String Webhook :=
  if url = "" then .error "Webhook URL is required" else .ok ⟨url, timeout, fields⟩

def body (w : Webhook) : Value → Value
  | .obj members => .obj (Members.override members w.fields)
  | v => v

def post (w : Webhook) (document : Value) : Post where
  url := w.url
  body := w.body document
  timeout := w.timeout
  headers := [("Accept", "application/json"), ("User-Agent", "reminder-orchestrator")]

/-- How much of an answer is quoted when it is a refusal. -/
def quoted : Nat := 200

def readError (text : String) : Json.ReadError → Fault
  | .malformed fault offset => .ofText "JSONDecodeError" (fault.message text offset)
  | .integerTooLong digits => .ofText "ValueError" (Text.overLimit digits)
  | .halfPair => .ofText "UnicodeError" "surrogates not allowed"

/-- The output that a delivery leads to. -/
def output (w : Webhook) (document : Value) : Delivery → Except Fault Datum
  | .failed text => .error (.ofText "ConnectionError" text)
  | .answered status body =>
    if 300 ≤ status then
      .error (.ofText "RuntimeError"
        s!"Webhook {w.url} returned HTTP {status}: {String.ofList (body.toList.take quoted)}")
    else if body = "" then .ok (.ofValue document)
    else ((Json.read body).mapError (readError body)).map Datum.ofValue

def reply (w : Webhook) (network : Network) (document : Value) : Reply where
  result := w.output document (network (w.post document))
  posts := [w.post document]

def executor (w : Webhook) (network : Network) : Executor :=
  ⟨"WebhookNotifier", fun _ document => w.reply network document⟩

end Webhook

end ReminderFlow
