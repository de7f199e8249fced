import ReminderFlow.Service.Http

namespace ReminderFlow.Http

/-- The origins that are allowed; a star stands for all of them. -/
structure OriginPolicy where
  origins : List String

namespace OriginPolicy

def allowsAll (p : OriginPolicy) : Bool := p.origins.contains "*"

def allows (p : OriginPolicy) (origin : String) : Bool := p.allowsAll || p.origins.contains origin

/-- The methods that a page may use. -/
def methods : List String := ["DELETE", "GET", "HEAD", "OPTIONS", "PATCH", "POST", "PUT"]

/-- The answer to the question whether a page may make a call. -/
def preflight (p : OriginPolicy) (origin method : String) : Response :=
  let failures := (if p.allows origin then [] else ["origin"])
    ++ (if methods.contains method then [] else ["method"])
  let allowed := if p.allowsAll then some "*" else if p.allows origin then some origin else none
  let response := if failures.isEmpty then Response.text 200 "OK"
    else Response.text 400 ("Disallowed CORS " ++ ", ".intercalate failures)
  { response with allowOrigin := allowed }

/-- What a response says to a page. Requests with cookies get their own origin instead of a star. -/
def allowed (p : OriginPolicy) (origin : String) (cookies : Bool) : Option String :=
  if p.allowsAll then some (if cookies then origin else "*")
  else if p.allows origin then some origin
  else none

/-- The question whether a page may make a call, if a request asks that: the origin and the
method. -/
def question? (r : Request) : Option (String × String) := do
  let origin ← r.header? "origin"
  let method ← r.header? "access-control-request-method"
  if r.method = "OPTIONS" then some (origin, method) else none

/-- A response with what it says to the page that the request comes from, if it comes from one. -/
def tell (p : OriginPolicy) (r : Request) (response : Response) : Response :=
  match r.header? "origin" with
  | none => response
  | some origin =>
    { response with allowOrigin := p.allowed origin (r.header? "cookie").isSome }

end OriginPolicy

end ReminderFlow.Http
