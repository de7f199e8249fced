import ReminderFlow.Text.Digit
import ReminderFlow.Text.Quoted

namespace ReminderFlow.CommandLine

/-- An option: the names it goes by, and whether it takes a value. -/
structure Switch where
  names : List String
  takesValue : Bool
  deriving DecidableEq

def Switch.shown (w : Switch) : String := "/".intercalate w.names

/-- A fault of one option. -/
def Switch.fault (w : Switch) (message : String) : String := s!"argument {w.shown}: {message}"

/-- What an argument is taken for. -/
inductive Mark where
  | plain
  | separator
  | unknown
  /-- An option, with the value behind an equals sign if there is one. -/
  | switch (w : Switch) (value : Option String)
  /-- An option of one letter, and what follows the letter. -/
  | letter (w : Switch) (tail : List Char)

/-- Every name of an option, with the option. -/
def named (switches : List Switch) : List (String × Switch) :=
  switches.flatMap fun w => w.names.map fun name => (name, w)

/-- What stands before and behind the first equals sign. -/
def splitValue (argument : String) : String × Option String :=
  let (name, rest) := argument.toList.span (· ≠ '=')
  (String.ofList name, rest.head?.map fun _ => String.ofList rest.tail)

/-- Whether an argument is a number with a hyphen before it. -/
def isNegative (argument : String) : Bool :=
  match argument.toList with
  | '-' :: rest =>
    let (whole, more) := rest.span Text.isDigit
    match more with
    | [] => !whole.isEmpty
    | '.' :: fraction => !fraction.isEmpty && fraction.all Text.isDigit
    | _ => false
  | _ => false

/-- The options that an argument may be short for, by their names. -/
def candidates (switches : List Switch) (argument : String) : List (String × Mark) :=
  if argument.startsWith "--" then
    let (start, value) := splitValue argument
    (named switches).filterMap fun (name, w) =>
      if name.startsWith start then some (name, .switch w value) else none
  else
    let letters := argument.toList
    (named switches).filterMap fun (name, w) =>
      if name.toList = letters.take 2 then some (name, .letter w (letters.drop 2))
      else if name.startsWith argument then some (name, .switch w none)
      else none

/-- What an argument is taken for; one that is short for several options is refused. -/
def mark (switches : List Switch) (argument : String) : Except String Mark :=
  let (name, value) := splitValue argument
  match (named switches).lookup argument, (named switches).lookup name with
  | some w, _ => .ok (.switch w none)
  | none, some w => .ok (.switch w value)
  | none, none =>
    if !argument.startsWith "-" || argument = "-" then .ok .plain
    else
      match candidates switches argument with
      | [] =>
        .ok (if isNegative argument || argument.contains ' ' then .plain else .unknown)
      | [(_, m)] => .ok m
      | several =>
        let names := ", ".intercalate (several.map (·.1))
        .error s!"ambiguous option: {argument} could match {names}"

/-- All arguments with what they are taken for. -/
def marked (switches : List Switch) : List String → Except String (List (String × Mark))
  | [] => .ok []
  | "--" :: rest => .ok (("--", .separator) :: rest.map fun a => (a, .plain))
  | argument :: rest => do
    let m ← mark switches argument
    let more ← marked switches rest
    pure ((argument, m) :: more)

/-- An option that is used, with its value if it takes one. -/
structure Use where
  switch : Switch
  value : Option String

/-- What is found on a command line: options in their order, what nothing is made of, the command
with its arguments, and what made the search end. -/
structure Scan where
  uses : List Use := []
  extras : List String := []
  command : List String := []
  fault : Option String := none

namespace Scan

def withUse (u : Use) (s : Scan) : Scan := { s with uses := u :: s.uses }

def withExtra (argument : String) (s : Scan) : Scan := { s with extras := argument :: s.extras }

def failed (message : String) : Scan := { fault := some message }

end Scan

def ignored (w : Switch) (value : List Char) : String :=
  w.fault s!"ignored explicit argument {Text.quote (String.ofList value)}"

/-- Options of one letter that are written behind one hyphen. What starts with no such letter is
left over. -/
def bundle (switches : List Switch) (w : Switch) :
    List Char → Except String (List Use × List String)
  | [] => .ok ([⟨w, none⟩], [])
  | '=' :: value => .error (ignored w value)
  | c :: rest =>
    if c = '-' then .error (ignored w (c :: rest))
    else
      match (named switches).lookup (String.ofList ['-', c]) with
      | some next => (bundle switches next rest).map fun (uses, left) => (⟨w, none⟩ :: uses, left)
      | none => .ok ([⟨w, none⟩], [String.ofList ('-' :: c :: rest)])

/-- What is found; where commands are expected, the first plain argument and all that follow it are
one. -/
def scan (switches : List Switch) (commands : Bool) : List (String × Mark) → Scan
  | [] => {}
  | (argument, .unknown) :: rest => (scan switches commands rest).withExtra argument
  | (_, .switch w (some value)) :: rest =>
    if w.takesValue then (scan switches commands rest).withUse ⟨w, some value⟩
    else .failed (ignored w value.toList)
  | (_, .letter w tail) :: rest =>
    if w.takesValue then (scan switches commands rest).withUse ⟨w, some (String.ofList tail)⟩
    else
      match bundle switches w tail with
      | .ok (uses, left) =>
        let found := scan switches commands rest
        { found with uses := uses ++ found.uses, extras := left ++ found.extras }
      | .error message => .failed message
  | (_, .switch w none) :: rest =>
    if !w.takesValue then (scan switches commands rest).withUse ⟨w, none⟩
    else
      match rest with
      | (value, .plain) :: rest => (scan switches commands rest).withUse ⟨w, some value⟩
      | _ => .failed (w.fault "expected one argument")
  | (argument, .plain) :: rest =>
    if commands then { command := argument :: rest.map (·.1) }
    else (scan switches commands rest).withExtra argument
  | (argument, .separator) :: rest =>
    if commands && !rest.isEmpty then { command := argument :: rest.map (·.1) }
    else (scan switches commands rest).withExtra argument

/-- What is found on a command line, or why it cannot be taken apart at all. -/
def scanAll (switches : List Switch) (commands : Bool) (arguments : List String) : Scan :=
  match marked switches arguments with
  | .ok marks => scan switches commands marks
  | .error message => .failed message

end ReminderFlow.CommandLine
