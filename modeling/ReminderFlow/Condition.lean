import ReminderFlow.Document

namespace ReminderFlow

inductive Comparison where
  | stringEquals
  | numericEquals
  | numericLessThan
  | numericGreaterThan
  | booleanEquals
  | isPresent
  deriving DecidableEq

namespace Comparison

def name : Comparison → String
  | stringEquals => "StringEquals"
  | numericEquals => "NumericEquals"
  | numericLessThan => "NumericLessThan"
  | numericGreaterThan => "NumericGreaterThan"
  | booleanEquals => "BooleanEquals"
  | isPresent => "IsPresent"

def all : List Comparison :=
  [stringEquals, numericEquals, numericLessThan, numericGreaterThan, booleanEquals, isPresent]

def ofName? (s : String) : Option Comparison :=
  all.find? fun c => c.name = s

theorem ofName?_name (c : Comparison) : ofName? c.name = some c := by
  cases c <;> decide

end Comparison

inductive Condition where
  | compare (op : Comparison) (variable_ operand : Value)
  | all (conditions : List Condition)
  | any (conditions : List Condition)
  | not (condition : Condition)
  deriving Inhabited

/-- Why a condition has no truth value. -/
inductive ConditionError where
  | path (e : PathError)
  | notFound (path : String)
  /-- A number has no order with what is no number. -/
  | unordered
  deriving Inhabited

namespace Comparison

/-- Whether a number that was found is on the wanted side of the operand; true and false count as
operands, but not as numbers that are found. -/
def ordered (wanted : Number → Number → Bool) (actual operand : Value) :
    Except ConditionError Bool :=
  match actual.number? with
  | none => .ok false
  | some a =>
    match operand.quantity? with
    | some b => .ok (wanted a b)
    | none => .error .unordered

/-- The comparison of a value that is present. -/
def matches? (op : Comparison) (actual operand : Value) : Except ConditionError Bool :=
  match op with
  | stringEquals => .ok (match actual, operand with
    | .str a, .str b => a = b
    | _, _ => false)
  | numericEquals => .ok (match actual.number?, operand.quantity? with
    | some a, some b => a.same b
    | _, _ => false)
  | numericLessThan => ordered Number.lt actual operand
  | numericGreaterThan => ordered (fun a b => b.lt a) actual operand
  | booleanEquals => .ok (match actual, operand with
    | .bool a, .bool b => a = b
    | _, _ => false)
  | isPresent => .ok (match operand with
    | .bool b => b
    | _ => false)

/-- The comparison where the variable leads nowhere. -/
def absent (op : Comparison) (path : String) (operand : Value) : Except ConditionError Bool :=
  match op with
  | isPresent => .ok (match operand with
    | .bool b => !b
    | _ => false)
  | _ => .error (.notFound path)

end Comparison

namespace Condition

/-- A comparison in a document. -/
def compareIn (doc : Document) (op : Comparison) (variable_ operand : Value) :
    Except ConditionError Bool :=
  match Path.parseValue variable_ with
  | .error e => .error (.path e)
  | .ok tokens =>
    match doc.value.getAt tokens with
    | some actual => op.matches? actual operand
    | none => op.absent (Document.pathText (Datum.ofValue variable_)) operand

mutual

def holds (doc : Document) : Condition → Except ConditionError Bool
  | compare op variable_ operand => compareIn doc op variable_ operand
  | all conditions => holdsAll doc conditions
  | any conditions => holdsAny doc conditions
  | not condition => (holds doc condition).map (!·)

def holdsAll (doc : Document) : List Condition → Except ConditionError Bool
  | [] => .ok true
  | c :: rest =>
    match holds doc c with
    | .ok true => holdsAll doc rest
    | r => r

def holdsAny (doc : Document) : List Condition → Except ConditionError Bool
  | [] => .ok false
  | c :: rest =>
    match holds doc c with
    | .ok false => holdsAny doc rest
    | r => r

end

mutual

/-- The paths that a condition refers to, from left to right. -/
def paths : Condition → List Value
  | compare _ variable_ _ => [variable_]
  | all conditions => pathsOf conditions
  | any conditions => pathsOf conditions
  | not condition => paths condition

def pathsOf : List Condition → List Value
  | [] => []
  | c :: rest => paths c ++ pathsOf rest

end

mutual

def toMembers : Condition → List (String × Value)
  | compare op variable_ operand => [("Variable", variable_), (op.name, operand)]
  | all conditions => [("And", .arr (toItems conditions))]
  | any conditions => [("Or", .arr (toItems conditions))]
  | not condition => [("Not", .obj (toMembers condition))]

def toItems : List Condition → List Value
  | [] => []
  | c :: rest => .obj (toMembers c) :: toItems rest

end

def toJson (c : Condition) : Value := .obj c.toMembers

end Condition

end ReminderFlow
