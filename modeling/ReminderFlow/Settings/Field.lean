import ReminderFlow.Number.Numeral
import ReminderFlow.Number.Order
import ReminderFlow.Settings.Source
import ReminderFlow.Validation

namespace ReminderFlow.Settings

namespace Source

/-- The value of a field, or its default where the field is not set. -/
def field {α : Type} (s : Source) (name : String) (default : α)
    (read : List String → String → Checked α) : Checked α :=
  match s.value? name with
  | some text => read [name] text
  | none => .valid default

end Source

/-- A text is taken as it is. -/
def asGiven (_location : List String) (text : String) : Checked String := .valid text

/-- A number of seconds above zero; the one that is no number is not. -/
def positiveSeconds (location : List String) (text : String) : Checked Double :=
  match Numeral.settingDouble? text with
  | none => .fail (.floatParsing location)
  | some x =>
    if (Number.whole 0).lt (.double x) then .valid x else .fail (.notAbove location 0)

/-- A whole number from `lowest` to `highest`. -/
def wholeBetween (lowest highest : Nat) (location : List String) (text : String) : Checked Nat :=
  if Numeral.isOverlong text then .fail (.intSize location)
  else
    match Numeral.settingInt? text with
    | none => .fail (.intParsing location)
    | some n =>
      if n < lowest then .fail (.belowLowest location lowest)
      else if (highest : Int) < n then .fail (.aboveHighest location highest)
      else .valid n.toNat

/-- One of some words, exactly as written. -/
def oneOf {α : Type} (choices : List (String × α)) (location : List String) (text : String) :
    Checked α :=
  match choices.lookup text with
  | some a => .valid a
  | none => .fail (.notChoice location (choices.map (·.1)))

end ReminderFlow.Settings
