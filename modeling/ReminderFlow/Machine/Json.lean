import ReminderFlow.Machine.Check

namespace ReminderFlow

namespace Condition

/-- A comparison: a variable, and one operator with its operand. -/
def comparisonOf (members : List (String × Value)) : Except MachineError Condition :=
  match members.lookup "Variable" with
  | some (.str s) =>
    match members.filterMap fun m => (Comparison.ofName? m.1).map fun op => (op, m.2) with
    | [(op, operand)] => .ok (.compare op (.str s) operand)
    | _ => .error (.operatorCount members)
  | _ => .error (.ruleWithoutVariable members)

mutual

def ofMembers (whole members : List (String × Value)) : Except MachineError Condition :=
  match listAt "And" members with
  | some r => r.map .all
  | none =>
    match listAt "Or" members with
    | some r => r.map .any
    | none =>
      match conditionAt "Not" members with
      | some r => r.map .not
      | none => comparisonOf whole

def ofJson : Value → Except MachineError Condition
  | .obj members => ofMembers members members
  | v => .error (.ruleNotObject v)

/-- The conditions under a key, if the key is there. -/
def listAt (key : String) : List (String × Value) → Option (Except MachineError (List Condition))
  | [] => none
  | (k, v) :: rest => if k = key then some (listOf key v) else listAt key rest

def conditionAt (key : String) : List (String × Value) → Option (Except MachineError Condition)
  | [] => none
  | (k, v) :: rest => if k = key then some (ofJson v) else conditionAt key rest

def listOf (key : String) : Value → Except MachineError (List Condition)
  | .arr items => if items.isEmpty then .error (.emptyRuleList key) else ofItems items
  | _ => .error (.emptyRuleList key)

def ofItems : List Value → Except MachineError (List Condition)
  | [] => .ok []
  | v :: rest => do
    let c ← ofJson v
    let more ← ofItems rest
    pure (c :: more)

end

end Condition

namespace Rule

/-- A rule is a condition with a member `Next` beside it. -/
def ofJson (state : String) (v : Value) : Except MachineError Rule :=
  match v with
  | .obj members =>
    match members.lookup "Next" with
    | some (.str target) =>
      let rest := Members.erase "Next" members
      (Condition.ofMembers rest rest).map fun c => ⟨c, .str target⟩
    | _ => .error (.ruleWithoutNext state)
  | _ => .error (.ruleWithoutNext state)

def listOfJson (state : String) : List Value → Except MachineError (List Rule)
  | [] => .ok []
  | v :: rest => do
    let r ← ofJson state v
    let more ← listOfJson state rest
    pure (r :: more)

def toJson (r : Rule) : Value :=
  .obj (Members.insert "Next" r.next r.condition.toMembers)

end Rule

def memberOrNull (members : List (String × Value)) (key : String) : Value :=
  (members.lookup key).getD .null

namespace State

def taskOfMembers (name : String) (members : List (String × Value)) : Except MachineError State :=
  match members.lookup "Resource" with
  | some (.str resource) =>
    if resource = "" then .error (.noResource name)
    else .ok (.task (.str resource) ((members.lookup "InputPath").getD (.str "$"))
      ((members.lookup "OutputPath").getD (.str "$")) (memberOrNull members "Next"))
  | _ => .error (.noResource name)

def choiceOfMembers (name : String) (members : List (String × Value)) :
    Except MachineError State :=
  match (members.lookup "Choices").getD (.arr []) with
  | .arr items =>
    (Rule.listOfJson name items).map fun rules => .choice rules (memberOrNull members "Default")
  | _ => .error (.choicesNotList name)

/-- A state without branches. -/
def plainOfMembers (name : String) (members : List (String × Value)) : Except MachineError State :=
  let kind := memberOrNull members "Type"
  match kind with
  | .str "Wait" => .ok (.wait (memberOrNull members "SecondsPath") (memberOrNull members "Seconds")
      (memberOrNull members "Next"))
  | .str "Task" => taskOfMembers name members
  | .str "Choice" => choiceOfMembers name members
  | .str "Pass" => .ok (.pass (memberOrNull members "Next"))
  | .str "Fail" => .ok (.fail ((members.lookup "Cause").getD (.str ""))
      ((members.lookup "Error").getD (.str "States.Fail")))
  | .str "Succeed" => .ok .succeed
  | _ => .error (.unknownType name kind)

end State

namespace Machine

def commentOf (members : List (String × Value)) : String :=
  match members.lookup "Comment" with
  | some (.str s) => s
  | _ => ""

mutual

def ofJson : Value → Except MachineError Machine
  | .obj members =>
    match members.lookup "StartAt" with
    | some (.str start) => do
      let states ← statesIn members
      make? start states (commentOf members)
    | _ => .error .noStart
  | _ => .error .notObject

/-- The states under the member `States`. -/
def statesIn : List (String × Value) → Except MachineError (List (String × State))
  | [] => .error .noStatesMember
  | (k, v) :: rest => if k = "States" then statesOf v else statesIn rest

def statesOf : Value → Except MachineError (List (String × State))
  | .obj members => if members.isEmpty then .error .noStatesMember else stateList members
  | _ => .error .noStatesMember

def stateList : List (String × Value) → Except MachineError (List (String × State))
  | [] => .ok []
  | (name, v) :: rest => do
    let s ← stateOf name v
    let more ← stateList rest
    pure ((name, s) :: more)

def stateOf (name : String) : Value → Except MachineError State
  | .obj members =>
    if (memberOrNull members "Type").str? = some "Parallel" then do
      let branches ← branchesIn members
      pure (.parallel branches [] (memberOrNull members "Next"))
    else State.plainOfMembers name members
  | _ => .error (.stateNotObject name)

/-- The machines under the member `Branches`. -/
def branchesIn : List (String × Value) → Except MachineError (List Machine)
  | [] => .ok []
  | (k, v) :: rest => if k = "Branches" then branchesOf v else branchesIn rest

/-- A text or an object has characters or names where machines should be. -/
def branchesOf : Value → Except MachineError (List Machine)
  | .arr items => machineList items
  | .str s => if s = "" then .ok [] else .error .notObject
  | .obj members => if members.isEmpty then .ok [] else .error .notObject
  | _ => .error .branchesNotList

def machineList : List Value → Except MachineError (List Machine)
  | [] => .ok []
  | v :: rest => do
    let m ← ofJson v
    let more ← machineList rest
    pure (m :: more)

end

end Machine

/-- The successor of a state, or that it is the last one. -/
def nextOrEnd (next : Value) : List (String × Value) :=
  if next.isNull then [("End", .bool true)] else [("Next", next)]

mutual

def State.toMembers : State → List (String × Value)
  | .wait secondsPath seconds next =>
    ("Type", .str "Wait")
      :: (if secondsPath.isNull then ("Seconds", seconds) else ("SecondsPath", secondsPath))
      :: nextOrEnd next
  | .task resource inputPath outputPath next =>
    ("Type", .str "Task") :: ("Resource", resource) :: ("InputPath", inputPath)
      :: ("OutputPath", outputPath) :: nextOrEnd next
  | .choice rules default =>
    ("Type", .str "Choice") :: ("Choices", .arr (rules.map Rule.toJson))
      :: (if default.isNull then [] else [("Default", default)])
  | .parallel branches _ next =>
    ("Type", .str "Parallel") :: ("Branches", .arr (Machine.toItems branches)) :: nextOrEnd next
  | .pass next => ("Type", .str "Pass") :: nextOrEnd next
  | .fail cause error => [("Type", .str "Fail"), ("Error", error), ("Cause", cause)]
  | .succeed => [("Type", .str "Succeed")]

def Machine.stateMembers : List (String × State) → List (String × Value)
  | [] => []
  | (name, s) :: rest => (name, .obj s.toMembers) :: Machine.stateMembers rest

def Machine.toJson : Machine → Value
  | .mk start states comment =>
    .obj ((if comment = "" then [] else [("Comment", .str comment)])
      ++ [("StartAt", .str start), ("States", .obj (Machine.stateMembers states))])

def Machine.toItems : List Machine → List Value
  | [] => []
  | m :: rest => m.toJson :: Machine.toItems rest

end

end ReminderFlow
