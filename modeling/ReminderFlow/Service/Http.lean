import ReminderFlow.Json.Value
import ReminderFlow.Text.Hex

namespace ReminderFlow.Http

structure Request where
  method : String
  target : String
  headers : List (String × String) := []
  body : String := ""

inductive Body where
  | json (v : Value)
  | text (s : String)

structure Response where
  status : Nat
  body : Body
  /-- The origin that a browser may show the response to. -/
  allowOrigin : Option String := none
  /-- Where a redirect leads to. -/
  location : Option String := none

namespace Response

def json (status : Nat) (v : Value) : Response := ⟨status, .json v, none, none⟩

def text (status : Nat) (s : String) : Response := ⟨status, .text s, none, none⟩

def detail (status : Nat) (what : String) : Response :=
  json status (.obj [("detail", .str what)])

def serverError : Response := text 500 "Internal Server Error"

end Response

def lower (s : String) : String := s.map Char.toLower

/-- The value of a header; the case of its name does not matter. -/
def Request.header? (r : Request) (name : String) : Option String :=
  (r.headers.find? fun h => lower h.1 = lower name).map (·.2)

/-- The bytes of a path with its escapes resolved; a percent sign that starts none stays. -/
def unescape : List UInt8 → List UInt8
  | [] => []
  | 0x25 :: a :: b :: rest =>
    match Text.hexBytes? [Char.ofNat a.toNat, Char.ofNat b.toNat] with
    | some [byte] => byte :: unescape rest
    | _ => 0x25 :: unescape (a :: b :: rest)
  | b :: rest => b :: unescape rest

/-- The path without escapes, if it is a text. -/
def decode? (path : String) : Option String :=
  String.fromUTF8? ⟨(unescape path.toUTF8.toList).toArray⟩

/-- The segments with single dots left out and double ones taken back. -/
def resolveDots (segments : List String) : List String :=
  (segments.foldl (fun done segment =>
    if segment = "." then done
    else if segment = ".." then (if done = [""] then done else done.drop 1)
    else segment :: done) []).reverse

/-- The path that a request addresses, without escapes, query and fragment. -/
def Request.path (r : Request) : String :=
  let raw := String.ofList (r.target.toList.takeWhile fun c => c ≠ '?' && c ≠ '#')
  let raw := "/".intercalate (resolveDots (raw.splitOn "/"))
  (decode? raw).getD raw

end ReminderFlow.Http
