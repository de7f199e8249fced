import ReminderFlow.Duration
import ReminderFlow.Machine.Error
import ReminderFlow.Machine.Graph

namespace ReminderFlow

namespace Comparison

/-- What the operand has to be, in words. -/
def expected : Comparison → String
  | stringEquals => "a string"
  | numericEquals => "a number"
  | numericLessThan => "a number"
  | numericGreaterThan => "a number"
  | booleanEquals => "a boolean"
  | isPresent => "a boolean"

def accepts (op : Comparison) (operand : Value) : Except DurationFault Bool :=
  match op with
  | stringEquals => .ok operand.str?.isSome
  | numericEquals => operand.finiteNumber?
  | numericLessThan => operand.finiteNumber?
  | numericGreaterThan => operand.finiteNumber?
  | booleanEquals => .ok (match operand with
    | .bool _ => true
    | _ => false)
  | isPresent => .ok (match operand with
    | .bool _ => true
    | _ => false)

end Comparison

/-- A path that has to be readable. -/
def checkPath (path : Value) : Except MachineError Unit :=
  match Path.parseValue path with
  | .ok _ => .ok ()
  | .error e => .error (.path e)

namespace Condition

def checkCompare (state : String) (op : Comparison) (variable_ operand : Value) :
    Except MachineError Unit :=
  match op.accepts operand with
  | .error _ => .error .numberTooLarge
  | .ok false => .error (.operand state op op.expected operand)
  | .ok true =>
    match variable_ with
    | .str _ => checkPath variable_
    | _ => .error (.variableNotText state)

mutual

def check (state : String) : Condition → Except MachineError Unit
  | compare op variable_ operand => checkCompare state op variable_ operand
  | all conditions =>
    if conditions.isEmpty then .error (.emptyCompound state "And") else checkEach state conditions
  | any conditions =>
    if conditions.isEmpty then .error (.emptyCompound state "Or") else checkEach state conditions
  | not condition => check state condition

def checkEach (state : String) : List Condition → Except MachineError Unit
  | [] => .ok ()
  | c :: rest => do
    check state c
    checkEach state rest

end

end Condition

namespace State

def checkWait (name : String) (secondsPath seconds : Value) : Except MachineError Unit :=
  if seconds.isNull = secondsPath.isNull then .error (.waitSource name)
  else if !secondsPath.isNull then checkPath secondsPath
  else
    match seconds.duration? with
    | .ok _ => .ok ()
    | .error .tooLarge => .error .numberTooLarge
    | .error .invalid => .error (.waitDuration name)

def checkRules (name : String) : List Rule → Except MachineError Unit
  | [] => .ok ()
  | r :: rest => do
    r.condition.check name
    checkRules name rest

def checkFields (name : String) : State → Except MachineError Unit
  | wait secondsPath seconds _ => checkWait name secondsPath seconds
  | task resource inputPath outputPath _ =>
    if !resource.isTruthy then .error (.noExecutor name)
    else do
      checkPath inputPath
      checkPath outputPath
  | choice rules default =>
    if rules.isEmpty then .error (.noRules name)
    else if default.isNull then .error (.noDefault name)
    else checkRules name rules
  | parallel branches strays _ =>
    if branches.isEmpty && strays.isEmpty then .error (.noBranches name)
    else if !strays.isEmpty then .error (.strayBranch name)
    else .ok ()
  | _ => .ok ()

def checkTarget (names : List String) (name : String) (target : Value) :
    Except MachineError Unit :=
  match target with
  | .str s => if names.contains s then .ok () else .error (.unknownTarget name target)
  | .arr _ => .error .targetNotName
  | .obj _ => .error .targetNotName
  | _ => .error (.unknownTarget name target)

def checkTargets (names : List String) (name : String) : List Value → Except MachineError Unit
  | [] => .ok ()
  | target :: rest => do
    checkTarget names name target
    checkTargets names name rest

end State

namespace Machine

def checkStates (names : List String) : List (String × State) → Except MachineError Unit
  | [] => .ok ()
  | (name, s) :: rest => do
    s.checkFields name
    State.checkTargets names name s.successors
    checkStates names rest

/-- Whether one state may follow another directly. -/
def leads (m : Machine) (source target : String) : Bool :=
  match m.state? source with
  | some s => s.successors.any fun v => v.str? = some target
  | none => false

/-- The states in which the machine may end. -/
def terminals (m : Machine) : List String :=
  (m.states.filter fun s => s.2.isTerminal).map (·.1)

/-- The states that no run can enter. -/
def unreachable (m : Machine) : List String :=
  Graph.outside m.leads m.names [m.start]

/-- The states from which no run can end. -/
def endless (m : Machine) : List String :=
  Graph.outside (fun a b => m.leads b a) m.names m.terminals

def checkGraph (m : Machine) : Except MachineError Unit :=
  match m.unreachable with
  | n :: more => .error (.unreachable (n :: more))
  | [] =>
    match m.endless with
    | n :: more => .error (.endless (n :: more))
    | [] => .ok ()

def check (m : Machine) : Except MachineError Unit :=
  if m.states.isEmpty then .error .noStates
  else if !m.names.contains m.start then .error (.unknownStart m.start)
  else do
    checkStates m.names m.states
    m.checkGraph

/-- A machine out of its parts, if it may run. -/
def make? (start : String) (states : List (String × State)) (comment : String) :
    Except MachineError Machine := do
  let m := Machine.mk start states comment
  m.check
  pure m

end Machine

end ReminderFlow
