import ReminderFlow.Json.Value

namespace ReminderFlow

structure Issue where
  /-- The field, and the way to the part of it that is wrong. -/
  location : List String
  kind : String
  message : String
  deriving DecidableEq

namespace Issue

def missing (field : String) : Issue := ⟨[field], "missing", "Field required"⟩

def stringType (location : List String) : Issue :=
  ⟨location, "string_type", "Input should be a valid string"⟩

def dictType (location : List String) : Issue :=
  ⟨location, "dict_type", "Input should be a valid dictionary"⟩

def modelType (location : List String) : Issue :=
  ⟨location, "model_type", "Input should be an object"⟩

def floatType (location : List String) : Issue :=
  ⟨location, "float_type", "Input should be a valid number"⟩

def floatParsing (location : List String) : Issue :=
  ⟨location, "float_parsing",
    "Input should be a valid number, unable to parse string as a number"⟩

def intParsing (location : List String) : Issue :=
  ⟨location, "int_parsing",
    "Input should be a valid integer, unable to parse string as an integer"⟩

def intSize (location : List String) : Issue :=
  ⟨location, "int_parsing_size",
    "Unable to parse input string as an integer, exceeded maximum size"⟩

def notAbove (location : List String) (bound : Int) : Issue :=
  ⟨location, "greater_than", s!"Input should be greater than {bound}"⟩

def belowLowest (location : List String) (lowest : Int) : Issue :=
  ⟨location, "greater_than_equal", s!"Input should be greater than or equal to {lowest}"⟩

def aboveHighest (location : List String) (highest : Int) : Issue :=
  ⟨location, "less_than_equal", s!"Input should be less than or equal to {highest}"⟩

/-- The choices are listed with a word before the last one. -/
def notChoice (location : List String) (choices : List String) : Issue :=
  let quoted := choices.map fun c => s!"'{c}'"
  let text := match quoted.getLast?, quoted.dropLast with
    | some last, c :: rest => ", ".intercalate (c :: rest) ++ " or " ++ last
    | some last, [] => last
    | none, _ => ""
  ⟨location, "literal_error", "Input should be " ++ text⟩

/-- A text that is no JSON has no fields. -/
def jsonInvalid (complaint : String) : Issue := ⟨[], "json_invalid", "Invalid JSON: " ++ complaint⟩

/-- Failed model checks concern no field. -/
def value (message : String) : Issue := ⟨[], "value_error", "Value error, " ++ message⟩

end Issue

/-- The outcome of a check: a value, or what is wrong. -/
inductive Checked (α : Type) where
  | valid (a : α)
  | invalid (issues : List Issue)

namespace Checked

variable {α β : Type}

def fail (issue : Issue) : Checked α := invalid [issue]

/-- Both checks are made, and the issues of the first come before those of the second. -/
def apply (f : Checked (α → β)) (a : Checked α) : Checked β :=
  match f, a with
  | valid f, valid a => valid (f a)
  | valid _, invalid issues => invalid issues
  | invalid issues, valid _ => invalid issues
  | invalid issues, invalid more => invalid (issues ++ more)

instance : Applicative Checked where
  pure := valid
  seq f a := apply f (a ())

/-- A check that is made only on what has passed the first one. -/
def andThen (a : Checked α) (f : α → Checked β) : Checked β :=
  match a with
  | valid a => f a
  | invalid issues => invalid issues

def toOption : Checked α → Option α
  | valid a => some a
  | invalid _ => none

def toExcept : Checked α → Except (List Issue) α
  | valid a => .ok a
  | invalid issues => .error issues

def all : List (Checked α) → Checked (List α)
  | [] => valid []
  | a :: rest => List.cons <$> a <*> all rest

end Checked

/-- A text, and nothing else. -/
def Value.asText (location : List String) : Value → Checked String
  | .str s => .valid s
  | _ => .fail (.stringType location)

/-- A text or nothing. -/
def Value.asOptionalText (location : List String) : Value → Checked (Option String)
  | .null => .valid none
  | v => some <$> v.asText location

/-- An object that holds nothing but texts. -/
def Value.asTexts (location : List String) : Value → Checked (List (String × String))
  | .obj members => Checked.all (members.map fun m =>
      (fun s => (m.1, s)) <$> m.2.asText (location ++ [m.1]))
  | _ => .fail (.dictType location)

/-- A member that has to be there. -/
def requiredMember {α : Type} (members : List (String × Value)) (field : String)
    (check : List String → Value → Checked α) : Checked α :=
  match members.lookup field with
  | some v => check [field] v
  | none => .fail (.missing field)

/-- A member that may be left out. -/
def optionalMember {α : Type} (members : List (String × Value)) (field : String) (default : α)
    (check : List String → Value → Checked α) : Checked α :=
  match members.lookup field with
  | some v => check [field] v
  | none => .valid default

end ReminderFlow
