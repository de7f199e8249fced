import ReminderFlow.Condition

namespace ReminderFlow

structure Rule where
  condition : Condition
  next : Value
  deriving Inhabited

mutual

inductive State where
  | wait (secondsPath seconds next : Value)
  | task (resource inputPath outputPath next : Value)
  | choice (rules : List Rule) (default : Value)
  /-- The strays are what stands among the branches without being a machine. -/
  | parallel (branches : List Machine) (strays : List Value) (next : Value)
  | pass (next : Value)
  | fail (cause error : Value)
  | succeed

inductive Machine where
  | mk (start : String) (states : List (String × State)) (comment : String)

end

instance : Inhabited State := ⟨.succeed⟩

instance : Inhabited Machine := ⟨.mk "" [] ""⟩

namespace State

def type : State → String
  | wait .. => "Wait"
  | task .. => "Task"
  | choice .. => "Choice"
  | parallel .. => "Parallel"
  | pass .. => "Pass"
  | fail .. => "Fail"
  | succeed => "Succeed"

/-- The successor of a state that has at most one. -/
def next : State → Value
  | wait _ _ next => next
  | task _ _ _ next => next
  | parallel _ _ next => next
  | pass next => next
  | _ => .null

def someUnlessNull (v : Value) : List Value :=
  if v.isNull then [] else [v]

/-- The names of the states that may follow. -/
def successors : State → List Value
  | choice rules default => rules.map (·.next) ++ someUnlessNull default
  | s => someUnlessNull s.next

/-- Whether a machine may end in the state. -/
def isTerminal : State → Bool
  | fail .. => true
  | succeed => true
  | choice .. => false
  | s => s.next.isNull

end State

namespace Machine

def start : Machine → String
  | mk start _ _ => start

def states : Machine → List (String × State)
  | mk _ states _ => states

def comment : Machine → String
  | mk _ _ comment => comment

def state? (m : Machine) (name : String) : Option State :=
  m.states.lookup name

def names (m : Machine) : List String :=
  Members.keys m.states

mutual

/-- The executors that the tasks of a machine name, its branches included. -/
def resources : Machine → List Value
  | mk _ states _ => resourcesOfStates states

def resourcesOfStates : List (String × State) → List Value
  | [] => []
  | (_, s) :: rest => resourcesOfState s ++ resourcesOfStates rest

def resourcesOfState : State → List Value
  | .task resource _ _ _ => [resource]
  | .parallel branches _ _ => resourcesOfBranches branches
  | _ => []

def resourcesOfBranches : List Machine → List Value
  | [] => []
  | m :: rest => resources m ++ resourcesOfBranches rest

end

/-- The executor ids that a machine needs. -/
def executorIds (m : Machine) : List String :=
  (m.resources.filterMap Value.str?).eraseDups

end Machine

end ReminderFlow
