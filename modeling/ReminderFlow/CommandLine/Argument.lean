import ReminderFlow.Number.Numeral
import ReminderFlow.Number.Order
import ReminderFlow.Text.Quoted

namespace ReminderFlow.CommandLine

inductive ArgumentFault where
  | notNumber (text : String)
  | notPositive (text : String)
  | notWhole (text : String)
  deriving DecidableEq

def ArgumentFault.message : ArgumentFault → String
  | notNumber text => s!"not a number: {Text.quote text}"
  | notPositive text => s!"must be a positive number of seconds: {Text.quote text}"
  | notWhole text => s!"invalid int value: {Text.quote text}"

/-- A finite number of seconds above zero. -/
def seconds (text : String) : Except ArgumentFault Double :=
  match Numeral.commandDouble? text with
  | none => .error (.notNumber text)
  | some x =>
    if x.isFinite && (Number.whole 0).lt (.double x) then .ok x else .error (.notPositive text)

def whole (text : String) : Except ArgumentFault Int :=
  match Numeral.commandInt? text with
  | none => .error (.notWhole text)
  | some n => .ok n

end ReminderFlow.CommandLine
