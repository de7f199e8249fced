namespace ReminderFlow.Log

inductive Level where
  | debug
  | info
  | warning
  | error
  | critical
  deriving DecidableEq

namespace Level

def number : Level → Nat
  | debug => 10
  | info => 20
  | warning => 30
  | error => 40
  | critical => 50

def name : Level → String
  | debug => "DEBUG"
  | info => "INFO"
  | warning => "WARNING"
  | error => "ERROR"
  | critical => "CRITICAL"

def all : List Level := [debug, info, warning, error, critical]

def ofName? (s : String) : Option Level :=
  if s = "WARN" then some warning
  else if s = "FATAL" then some critical
  else all.find? fun l => l.name = s

end Level

/-- Capital letters; of those beyond ASCII only the two that become letters of ASCII. -/
def upperCase (s : String) : String :=
  s.map fun c => if c = 'ı' then 'I' else if c = 'ſ' then 'S' else c.toUpper

/-- The threshold that a setting names, if it names one. -/
def threshold? (setting : String) : Option Nat :=
  let name := upperCase setting
  if name = "NOTSET" then some 0 else (Level.ofName? name).map Level.number

/-- The threshold of chatty loggers: never below `info`. -/
def quietThreshold (threshold : Nat) : Nat := max threshold Level.info.number

end ReminderFlow.Log
