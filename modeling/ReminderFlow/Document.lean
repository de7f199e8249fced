import ReminderFlow.Json.Equality
import ReminderFlow.Json.Reader
import ReminderFlow.Path

namespace ReminderFlow

namespace Value

/-- The member or item that a step leads to. -/
def step? : Value → Token → Option Value
  | arr items, .index n => items[n]?
  | obj members, .name s => members.lookup s
  | _, _ => none

def getAt (v : Value) : List Token → Option Value
  | [] => some v
  | t :: rest => (v.step? t).bind fun child => child.getAt rest

/-- The value with another one at a path; members that are missing on the way become objects. -/
def setAt (new : Value) : List Token → Value → Option Value
  | [], _ => some new
  | .index n :: rest, arr items =>
    match items[n]? with
    | some child => (setAt new rest child).map fun v => arr (items.set n v)
    | none => none
  | .name s :: rest, obj members =>
    (setAt new rest ((members.lookup s).getD (obj []))).map fun v =>
      obj (Members.insert s v members)
  | _, _ => none

theorem setAt_nil (new v : Value) : setAt new [] v = some new := rfl

end Value

structure Document where
  value : Value
  deriving Inhabited

inductive DocumentError where
  | path (e : PathError)
  | notFound (path : String)
  | incompatible (e : Incompatible)
  /-- A document that is no object has no members to set. -/
  | notObject
  | notMapping

namespace Document

def empty : Document := ⟨.obj []⟩

def ofDatum (d : Datum) : Except Incompatible Document :=
  d.toValue.map Document.mk

/-- The value at a path that has been read; `text` is the path for the message. -/
def getTokens (doc : Document) (text : String) (path : List Token) : Except DocumentError Value :=
  match doc.value.getAt path with
  | some v => .ok v
  | none => .error (.notFound text)

/-- The text of a path; only texts can be read as paths. -/
def pathText : Datum → String
  | .str s => s
  | _ => ""

def get (doc : Document) (path : Datum) : Except DocumentError Value := do
  let tokens ← (Path.parseDatum path).mapError DocumentError.path
  doc.getTokens (pathText path) tokens

/-- Whether there is a value at a path. -/
def contains (doc : Document) (path : Datum) : Except PathError Bool :=
  (Path.parseDatum path).map fun tokens => (doc.value.getAt tokens).isSome

/-- The document with a value at a path that has been read. That the path cannot be written comes
before what is wrong with the value. -/
def setTokens (doc : Document) (text : String) (path : List Token) (new : Datum) :
    Except DocumentError Document :=
  if (Value.setAt .null path doc.value).isNone then .error (.notFound text)
  else
    match new.toValue with
    | .error e => .error (.incompatible e)
    | .ok v =>
      match Value.setAt v path doc.value with
      | some w => .ok ⟨w⟩
      | none => .error (.notFound text)

def set (doc : Document) (path : Datum) (new : Datum) : Except DocumentError Document := do
  let tokens ← (Path.parseDatum path).mapError DocumentError.path
  doc.setTokens (pathText path) tokens new

/-- The document with the members of another object set in it. -/
def merge (doc : Document) (more : Datum) : Except DocumentError Document :=
  match doc.value with
  | .obj members =>
    match more.toValue with
    | .ok (.obj others) => .ok ⟨.obj (Members.override members others)⟩
    | .ok _ => .error .notMapping
    | .error e => .error (.incompatible e)
  | _ => .error .notObject

def describe (doc : Document) : Except Fault String :=
  doc.value.describe.map fun text => "Document(" ++ text ++ ")"

def same (a b : Document) : Bool := a.value.same b.value

/-- The text that documents are hashed by. -/
def hashText (doc : Document) : String := doc.value.sortedText

/-- The text that the document is hashed by; none can be written if a whole number in it has too
many digits. -/
def hashText? (doc : Document) : Option String :=
  if doc.value.isShort then some doc.hashText else none

end Document

namespace DocumentError

def notFoundMessage (text : String) : String := s!"Path {Text.quote text} not found in document"

def fault : DocumentError → Fault
  | path e => e.fault
  | notFound text =>
    ⟨"PathNotFound", .execution "States.PathNotFound" (notFoundMessage text),
      .ok (notFoundMessage text)⟩
  | incompatible e => e.fault
  | notObject => .ofText "TypeError" "Only object documents can be merged"
  | notMapping => .ofText "TypeError" "Only objects can be merged into a document"

end DocumentError

end ReminderFlow
