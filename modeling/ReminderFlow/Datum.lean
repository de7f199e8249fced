import ReminderFlow.Fault
import ReminderFlow.Json.Value
import ReminderFlow.Number.Layout

namespace ReminderFlow

/-- Something without parts that no document can hold. -/
structure Foreign where
  typeName : String
  /-- How messages show it. -/
  shown : Except Fault String
  /-- Its own text. -/
  text : Except Fault String
  hashable : Bool
  /-- What reading it raises, if it passes for a container. -/
  fault : Option Fault := none

inductive Datum where
  | null
  | bool (b : Bool)
  | int (n : Int)
  | float (x : Double)
  | str (s : String)
  | list (items : List Datum)
  | tuple (items : List Datum)
  | dict (entries : List (Datum × Datum))
  | foreign (thing : Foreign)
  deriving Inhabited

/-- Why a datum is no JSON value. -/
inductive Incompatible where
  | nonFinite (x : Double)
  | key (k : Datum)
  | kind (typeName : String)
  /-- Reading a part of it raised a fault. -/
  | raised (fault : Fault)

def Foreign.refusal (thing : Foreign) : Incompatible :=
  match thing.fault with
  | some fault => .raised fault
  | none => .kind thing.typeName

namespace Datum

mutual

def ofValue : Value → Datum
  | .null => null
  | .bool b => bool b
  | .int n => int n
  | .float x => float x
  | .str s => str s
  | .arr items => list (ofItems items)
  | .obj members => dict (ofMembers members)

def ofItems : List Value → List Datum
  | [] => []
  | v :: rest => ofValue v :: ofItems rest

def ofMembers : List (String × Value) → List (Datum × Datum)
  | [] => []
  | (k, v) :: rest => (str k, ofValue v) :: ofMembers rest

end

mutual

/-- The JSON value that a datum is, or the first part, in reading order, that is none. -/
def toValue : Datum → Except Incompatible Value
  | null => .ok .null
  | bool b => .ok (.bool b)
  | int n => .ok (.int n)
  | float x => if x.isFinite then .ok (.float x) else .error (.nonFinite x)
  | str s => .ok (.str s)
  | list items => (toItems items).map .arr
  | tuple items => (toItems items).map .arr
  | dict entries => (toMembers entries).map fun members => .obj (Members.ofList members)
  | foreign thing => .error thing.refusal

def toItems : List Datum → Except Incompatible (List Value)
  | [] => .ok []
  | d :: rest => do
    let v ← toValue d
    let more ← toItems rest
    pure (v :: more)

def toMembers : List (Datum × Datum) → Except Incompatible (List (String × Value))
  | [] => .ok []
  | (k, d) :: rest =>
    match k with
    | str name => do
      let v ← toValue d
      let more ← toMembers rest
      pure ((name, v) :: more)
    | k => .error (.key k)

end

mutual

/-- The text of a datum in messages; a whole number of too many digits has none. -/
def describe : Datum → Except Fault String
  | null => .ok "None"
  | bool b => .ok (if b then "True" else "False")
  | int n => if n.natAbs < tenTo Text.wholeLimit then .ok (toString n) else .error .tooManyDigits
  | float x => .ok (NumberLayout.message.write x)
  | str s => .ok (Text.quote s)
  | list items => (describeItems items).map fun texts => "[" ++ ", ".intercalate texts ++ "]"
  | tuple items => (describeItems items).map fun texts =>
    "(" ++ ", ".intercalate texts ++ (if items.length = 1 then ",)" else ")")
  | dict entries => (describeEntries entries).map fun texts =>
    "\x7b" ++ ", ".intercalate texts ++ "\x7d"
  | foreign thing => thing.shown

def describeItems : List Datum → Except Fault (List String)
  | [] => .ok []
  | d :: rest => do
    let text ← describe d
    let more ← describeItems rest
    pure (text :: more)

def describeEntries : List (Datum × Datum) → Except Fault (List String)
  | [] => .ok []
  | (k, d) :: rest => do
    let key ← describe k
    let text ← describe d
    let more ← describeEntries rest
    pure ((key ++ ": " ++ text) :: more)

end

/-- A datum as text by itself: strings and foreign things as they are, all else as in messages. -/
def text : Datum → Except Fault String
  | str s => .ok s
  | foreign thing => thing.text
  | d => d.describe

mutual

/-- Whether a datum can be a key: nothing that can be changed is inside it. -/
def isHashable : Datum → Bool
  | list _ => false
  | dict _ => false
  | tuple items => allHashable items
  | foreign thing => thing.hashable
  | _ => true

def allHashable : List Datum → Bool
  | [] => true
  | d :: rest => isHashable d && allHashable rest

end

end Datum

/-- The text of a value in messages. -/
def Value.describe (v : Value) : Except Fault String :=
  (Datum.ofValue v).describe

/-- The text of what a message shows, if it shows anything. -/
def Datum.words : Option Datum → Except Fault String
  | some d => d.describe
  | none => .ok ""

/-- A message is made before it is raised, so where it cannot be made, that is raised instead. -/
def Fault.worded (kind : String) : Except Fault String → Fault
  | .ok message => ofText kind message
  | .error fault => fault

namespace Incompatible

def shown? : Incompatible → Option Datum
  | key k => some k
  | _ => none

def wording (shown : String) : Incompatible → String
  | nonFinite x => s!"Non-finite number is not JSON compatible: {NumberLayout.message.write x}"
  | key _ => s!"Document keys must be strings, got {shown}"
  | kind typeName => s!"Value of type {typeName} is not JSON compatible"
  | raised _ => ""

/-- What is raised for a datum that is no JSON value. -/
def fault : Incompatible → Fault
  | raised fault => fault
  | e => .worded "TypeError" ((Datum.words e.shown?).map fun shown => e.wording shown)

end Incompatible

/-- What the stack has room for: texts that can be read, and data that can be gone through. -/
structure Room where
  reads : String → Bool
  walks : Datum → Bool

/-- Raised where the stack has no room. -/
def Fault.tooDeep : Fault := ofText "RecursionError" "maximum recursion depth exceeded"

end ReminderFlow
