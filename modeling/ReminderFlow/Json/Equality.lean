import ReminderFlow.Json.Writer
import ReminderFlow.Number.Order

namespace ReminderFlow.Value

/-- A number, other than true and false. -/
def number? : Value → Option Number
  | int n => some (.whole n)
  | float x => some (.double x)
  | _ => none

/-- What a value counts as among numbers, where true is one and false is zero. -/
def quantity? : Value → Option Number
  | bool b => some (.whole (if b then 1 else 0))
  | v => v.number?

mutual

def same : Value → Value → Bool
  | null, w => w.isNull
  | str s, w => w.str? = some s
  | arr items, w =>
    match w with
    | arr others => sameItems items others
    | _ => false
  | obj members, w =>
    match w with
    | obj others => members.length = others.length && sameMembers members others
    | _ => false
  | bool b, w =>
    match w.quantity? with
    | some q => (Number.whole (if b then 1 else 0)).same q
    | none => false
  | int n, w =>
    match w.quantity? with
    | some q => (Number.whole n).same q
    | none => false
  | float x, w =>
    match w.quantity? with
    | some q => (Number.double x).same q
    | none => false

def sameItems : List Value → List Value → Bool
  | [], others => others.isEmpty
  | v :: rest, others =>
    match others with
    | w :: more => same v w && sameItems rest more
    | [] => false

/-- Each of the first members has an equal one of its name among the others. -/
def sameMembers : List (String × Value) → List (String × Value) → Bool
  | [], _ => true
  | (k, v) :: rest, others =>
    (match others.lookup k with
      | some w => same v w
      | none => false) && sameMembers rest others

end

mutual

/-- The value with the members of every object in the order of their names. -/
def sortKeys : Value → Value
  | arr items => arr (sortKeysItems items)
  | obj members => obj ((sortKeysMembers members).mergeSort fun a b => a.1 ≤ b.1)
  | v => v

def sortKeysItems : List Value → List Value
  | [] => []
  | v :: rest => sortKeys v :: sortKeysItems rest

def sortKeysMembers : List (String × Value) → List (String × Value)
  | [] => []
  | (k, v) :: rest => (k, sortKeys v) :: sortKeysMembers rest

end

def sortedText (v : Value) : String :=
  Json.compact v.sortKeys

end ReminderFlow.Value
