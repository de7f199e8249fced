import ReminderFlow.Number.Double

namespace ReminderFlow

inductive Value where
  | null
  | bool (b : Bool)
  | int (n : Int)
  | float (x : Double)
  | str (s : String)
  | arr (items : List Value)
  | obj (members : List (String × Value))
  deriving Inhabited

namespace Members

variable {α : Type}

/-- The members with one of them set: in its place if the name is there, else at the end. -/
def insert (key : String) (value : α) : List (String × α) → List (String × α)
  | [] => [(key, value)]
  | (k, v) :: rest => if k = key then (k, value) :: rest else (k, v) :: insert key value rest

def contains (key : String) (members : List (String × α)) : Bool :=
  (members.lookup key).isSome

def keys (members : List (String × α)) : List String :=
  members.map (·.1)

/-- The members of the second list set one after the other in the first. -/
def override (members more : List (String × α)) : List (String × α) :=
  more.foldl (fun all m => insert m.1 m.2 all) members

/-- A list of pairs as members: a repeated name keeps its first place and takes its last value. -/
def ofList (pairs : List (String × α)) : List (String × α) :=
  override [] pairs

def erase (key : String) (members : List (String × α)) : List (String × α) :=
  members.filter (·.1 ≠ key)

theorem lookup_insert_self (key : String) (value : α) (members : List (String × α)) :
    (insert key value members).lookup key = some value := by
  induction members with
  | nil => simp [insert]
  | cons m rest ih =>
    obtain ⟨k, v⟩ := m
    by_cases h : k = key
    · simp [insert, h]
    · have : (key == k) = false := by simpa using fun e : key = k => h e.symm
      simp [insert, h, List.lookup_cons, this, ih]

theorem lookup_insert_of_ne {key other : String} (h : other ≠ key) (value : α)
    (members : List (String × α)) :
    (insert key value members).lookup other = members.lookup other := by
  have hne : (other == key) = false := by simpa using h
  induction members with
  | nil => simp [insert, List.lookup_cons, hne]
  | cons m rest ih =>
    obtain ⟨k, v⟩ := m
    by_cases hk : k = key
    · simp [insert, hk, List.lookup_cons, hne]
    · simp only [insert, hk, if_false, List.lookup_cons, ih]

end Members

namespace Value

def get? (v : Value) (key : String) : Option Value :=
  match v with
  | obj members => members.lookup key
  | _ => none

mutual

/-- Whether every double in the value is finite. -/
def allFinite : Value → Bool
  | float x => x.isFinite
  | arr items => allFiniteList items
  | obj members => allFiniteMembers members
  | _ => true

def allFiniteList : List Value → Bool
  | [] => true
  | v :: rest => allFinite v && allFiniteList rest

def allFiniteMembers : List (String × Value) → Bool
  | [] => true
  | (_, v) :: rest => allFinite v && allFiniteMembers rest

end

/-- Empty text, an empty list or object, zero, false and null count as nothing. -/
def isTruthy : Value → Bool
  | null => false
  | bool b => b
  | int n => n ≠ 0
  | float x => !x.isZero
  | str s => s ≠ ""
  | arr items => !items.isEmpty
  | obj members => !members.isEmpty

def isNull : Value → Bool
  | null => true
  | _ => false

def str? : Value → Option String
  | str s => some s
  | _ => none

end Value

end ReminderFlow
