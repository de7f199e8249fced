import ReminderFlow.Machine.Basic

namespace ReminderFlow

inductive MachineError where
  | notObject
  | noStart
  | noStatesMember
  | stateNotObject (state : String)
  | noResource (state : String)
  | choicesNotList (state : String)
  | ruleWithoutNext (state : String)
  | unknownType (state : String) (type : Value)
  /-- Branches that are no list of anything. -/
  | branchesNotList
  | ruleNotObject (rule : Value)
  | emptyRuleList (key : String)
  | ruleWithoutVariable (rule : List (String × Value))
  | operatorCount (rule : List (String × Value))
  | noStates
  | unknownStart (name : String)
  | waitSource (state : String)
  | waitDuration (state : String)
  | noExecutor (state : String)
  | noRules (state : String)
  | noDefault (state : String)
  | emptyCompound (state key : String)
  | operand (state : String) (op : Comparison) (expected : String) (given : Value)
  | variableNotText (state : String)
  | noBranches (state : String)
  | strayBranch (state : String)
  | unknownTarget (state : String) (target : Value)
  /-- A list or an object as the name of a successor. -/
  | targetNotName
  | unreachable (names : List String)
  | endless (names : List String)
  | path (e : PathError)
  /-- A whole number that is no double where a finite one is needed. -/
  | numberTooLarge

namespace MachineError

/-- The error codes that reports carry; a fault of another kind has none. -/
def code? : MachineError → Option String
  | branchesNotList => none
  | targetNotName => none
  | numberTooLarge => none
  | noDefault _ => some "States.NoChoiceMatch"
  | path (.unrooted _) => some "States.InvalidPath"
  | path (.malformed _ _) => some "States.InvalidPath"
  | path _ => none
  | _ => some "States.DefinitionInvalid"

/-- What the message shows of the text that was read. -/
def shown? : MachineError → Option Datum
  | unknownType _ type => some (.ofValue type)
  | ruleNotObject rule => some (.ofValue rule)
  | ruleWithoutVariable rule => some (.ofValue (.obj rule))
  | operatorCount rule => some (.ofValue (.obj rule))
  | operand _ _ _ given => some (.ofValue given)
  | unknownTarget _ target => some (.ofValue target)
  | path e => e.shown?
  | _ => none

def wording (shown : String) : MachineError → String
  | notObject => "State machine definition must be a JSON object"
  | noStart => "State machine definition is missing 'StartAt'"
  | noStatesMember => "State machine definition is missing 'States'"
  | stateNotObject state => s!"State {Text.quote state} must be a JSON object"
  | noResource state => s!"Task state {Text.quote state} is missing 'Resource'"
  | choicesNotList state => s!"Choice state {Text.quote state} needs a list of 'Choices'"
  | ruleWithoutNext state => s!"Choice rule in {Text.quote state} is missing 'Next'"
  | unknownType state _ => s!"State {Text.quote state} has unknown type {shown}"
  | branchesNotList => "The branches of a Parallel state must be a list"
  | ruleNotObject _ => s!"Choice rule must be a JSON object: {shown}"
  | emptyRuleList key => s!"'{key}' must be a non-empty list of choice rules"
  | ruleWithoutVariable _ => s!"Choice rule is missing 'Variable': {shown}"
  | operatorCount _ =>
    s!"Choice rule must have exactly one comparison operator: {shown}"
  | noStates => "State machine definition has no states"
  | unknownStart name => s!"StartAt {Text.quote name} is not a defined state"
  | waitSource state =>
    s!"Wait state {Text.quote state} needs exactly one of 'seconds' or 'seconds_path'"
  | waitDuration state => s!"Wait state {Text.quote state} has an invalid duration"
  | noExecutor state => s!"Task state {Text.quote state} has no executor id"
  | noRules state => s!"Choice state {Text.quote state} has no rules"
  | noDefault state => s!"Choice state {Text.quote state} has no default successor"
  | emptyCompound state key => s!"Choice state {Text.quote state} has an empty {key} rule"
  | operand state op expected _ =>
    s!"Choice state {Text.quote state}: {op.name} expects {expected}, got {shown}"
  | variableNotText state => s!"Choice state {Text.quote state} has a non-string 'Variable'"
  | noBranches state => s!"Parallel state {Text.quote state} has no branches"
  | strayBranch state => s!"Parallel state {Text.quote state} has a malformed branch"
  | unknownTarget state _ =>
    s!"State {Text.quote state} transitions to unknown state {shown}"
  | targetNotName => "A state must be named by a text"
  | unreachable names => "Unreachable states: " ++ ", ".intercalate names
  | endless names => "States that can never terminate: " ++ ", ".intercalate names
  | path e => e.wording shown
  | numberTooLarge => "A whole number is too large for a double"

def kind : MachineError → String
  | branchesNotList => "TypeError"
  | targetNotName => "TypeError"
  | numberTooLarge => "OverflowError"
  | noDefault _ => "NoChoiceMatch"
  | path e => e.kind
  | _ => "DefinitionInvalid"

/-- The message, or what is raised while it is made. -/
def message (e : MachineError) : Except Fault String :=
  (Datum.words e.shown?).map fun shown => e.wording shown

def fault (e : MachineError) : Fault := .worded e.kind e.message

/-- The code and the message of the report, if there is one. -/
def report? (e : MachineError) : Option (String × String) := do
  let code ← e.code?
  let message ← e.message.toOption
  pure (code, message)

end MachineError

end ReminderFlow
