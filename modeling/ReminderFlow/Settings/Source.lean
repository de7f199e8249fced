import ReminderFlow.Settings.File

namespace ReminderFlow.Settings

/-- Small letters; of those beyond ASCII only the one that becomes a letter of ASCII. -/
def lowerCase (name : String) : String :=
  name.map fun c => if c.toNat = 0x212A then 'k' else c.toLower

/-- The last entry under a name, whatever its case. -/
def lastUnder {α : Type} (name : String) (entries : List (String × α)) : Option α :=
  (entries.reverse.find? fun e => lowerCase e.1 = lowerCase name).map (·.2)

structure Source where
  environment : List (String × String)
  file : List File.Binding

namespace Source

/-- The source of an environment and the text of a settings file, if there is one. -/
def make (environment : List (String × String)) (text : Option String) : Source where
  environment := environment
  file := (text.map (File.read environment)).getD []

/-- The text of a setting: the environment goes before the file. -/
def value? (s : Source) (name : String) : Option String :=
  lastUnder name s.environment <|> (lastUnder name s.file).join

end Source

end ReminderFlow.Settings
