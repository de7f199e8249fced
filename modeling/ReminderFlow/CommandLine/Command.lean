import ReminderFlow.CommandLine.Argument
import ReminderFlow.CommandLine.Scan

namespace ReminderFlow.CommandLine

inductive Command where
  | definition
  | run (input : String) (timeout : Option Double)
  | serve (host : Option String) (port : Option Int)

/-- The program as a whole and its commands, as far as they have options of their own. -/
inductive Program where
  | main
  | definition
  | run
  | serve
  deriving DecidableEq

namespace Program

def commands : List (String × Program) :=
  [("definition", definition), ("run", run), ("serve", serve)]

def name : Program → String
  | main => "reminders"
  | definition => "reminders definition"
  | run => "reminders run"
  | serve => "reminders serve"

def helpSwitch : Switch := ⟨["-h", "--help"], false⟩

def versionSwitch : Switch := ⟨["--version"], false⟩

def inputSwitch : Switch := ⟨["--input"], true⟩

def timeoutSwitch : Switch := ⟨["--timeout-seconds"], true⟩

def hostSwitch : Switch := ⟨["--host"], true⟩

def portSwitch : Switch := ⟨["--port"], true⟩

def switches : Program → List Switch
  | main => [helpSwitch, versionSwitch]
  | definition => [helpSwitch]
  | run => [helpSwitch, inputSwitch, timeoutSwitch]
  | serve => [helpSwitch, hostSwitch, portSwitch]

end Program

/-- Why a command line names no command. -/
inductive Refusal where
  | help (p : Program)
  | version
  | misuse (p : Program) (message : String)

/-- The values of a command's options, so far. -/
structure Options where
  input : Option String := none
  timeout : Option Double := none
  host : Option String := none
  port : Option Int := none

namespace Options

/-- The options with one more that is used; the last value of an option counts. -/
def apply (p : Program) (o : Options) (u : Use) : Except Refusal Options :=
  let value := u.value.getD ""
  let refused {α : Type} (a : Except ArgumentFault α) : Except Refusal α :=
    a.mapError fun f => .misuse p (u.switch.fault f.message)
  if u.switch = Program.helpSwitch then .error (.help p)
  else if u.switch = Program.versionSwitch then .error .version
  else if u.switch = Program.inputSwitch then .ok { o with input := some value }
  else if u.switch = Program.timeoutSwitch then
    (refused (seconds value)).map fun x => { o with timeout := some x }
  else if u.switch = Program.hostSwitch then .ok { o with host := some value }
  else (refused (whole value)).map fun n => { o with port := some n }

/-- The options that a program is given, and what else is found. -/
def read (p : Program) (arguments : List String) : Except Refusal (Options × Scan) := do
  let found := scanAll p.switches (p = .main) arguments
  let options ← found.uses.foldlM (apply p) {}
  match found.fault with
  | some message => throw (.misuse p message)
  | none => pure (options, found)

end Options

def lacks (p : Program) (what : String) : Refusal :=
  .misuse p s!"the following arguments are required: {what}"

def unknownCommand (word : String) : Refusal :=
  let choices := ", ".intercalate (Program.commands.map fun c => Text.quote c.1)
  .misuse .main s!"argument command: invalid choice: {Text.quote word} (choose from {choices})"

/-- The command of a program, by its options. -/
def Command.ofOptions (p : Program) (o : Options) : Except Refusal Command :=
  match p with
  | .run =>
    match o.input with
    | some input => .ok (.run input o.timeout)
    | none => .error (lacks .run "--input")
  | .serve => .ok (.serve o.host o.port)
  | _ => .ok .definition

/-- The command that a command line names. Arguments that nothing is made of are told last. -/
def Command.parse (arguments : List String) : Except Refusal Command := do
  let (_, found) ← Options.read .main arguments
  match found.command with
  | [] => throw (lacks .main "command")
  | word :: rest =>
    match Program.commands.lookup word with
    | none => throw (unknownCommand word)
    | some p =>
      let (options, inner) ← Options.read p rest
      let command ← Command.ofOptions p options
      match found.extras ++ inner.extras with
      | [] => pure command
      | extras => throw (.misuse .main ("unrecognized arguments: " ++ " ".intercalate extras))

end ReminderFlow.CommandLine
