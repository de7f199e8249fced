import ReminderFlow.CommandLine.Plan
import ReminderFlow.FileTree
import Std.Time.DateTime.Timestamp

namespace ReminderFlow.CommandLine

/-- What stands under a name. -/
def findEntry (path : String) : IO (Option Entry) := do
  try
    return some (.file (← IO.FS.readBinFile path))
  catch e =>
    match e with
    | .inappropriateType .. => return some .directory
    | _ => return none

def findFiles (paths : List String) : IO FileTree := do
  let found ← paths.mapM fun path => return (path, ← findEntry path)
  return ⟨found.filterMap fun f => f.2.map fun entry => (f.1, entry)⟩

/-- A variable of the environment, from its name and value with an equals sign between them. -/
def variableOf (text : String) : String × String :=
  let name := text.toList.takeWhile (· ≠ '=')
  (String.ofList name, String.ofList (text.toList.drop (name.length + 1)))

def findEnvironment : IO (List (String × String)) := do
  match ← findEntry "/proc/self/environ" with
  | some (.file bytes) =>
    let texts := ((String.fromUTF8? bytes).getD "").splitOn "\x00"
    return (texts.filter (· ≠ "")).map variableOf
  | _ => return []

/-- The files that a command line is about, under these settings. -/
def filesOf (source : Settings.Source) (arguments : List String) : List String :=
  let definition := (Settings.read source).toOption.bind Settings.definitionPath
  let input := match Command.parse arguments with
    | .ok (.run input _) => if input = "-" then [] else [FilePath.normal input]
    | _ => []
  definition.toList ++ input

def readsInput (arguments : List String) : Bool :=
  match Command.parse arguments with
  | .ok (.run input _) => input = "-"
  | _ => false

/-- The time on the clock. -/
def clock : IO Instant := do
  let t ← Std.Time.Timestamp.now
  return .ofUnixMicros (t.toNanosecondsSinceUnixEpoch.val / 1000).toNat

/-- An id of random digits, in which the kind of the id is marked. -/
def randomId : IO String := do
  let bytes ← IO.getRandomBytes 16
  let digits := bytes.toList.flatMap fun b => Text.hex 2 b.toNat
  let variant := Text.hexDigit (8 + (Text.hexValue? (digits.getD 16 '0')).getD 0 % 4)
  return String.ofList ((digits.set 12 '4').set 16 variant)

def findSurroundings (arguments : List String) : IO Surroundings := do
  let environment ← findEnvironment
  let settings ← findFiles [Surroundings.settingsFile]
  let text := (Entry.readText (settings.entry? Surroundings.settingsFile)).toOption
  let more ← findFiles (filesOf (.make environment text) arguments)
  let tree : FileTree := ⟨settings.files ++ more.files⟩
  let input ← if readsInput arguments then (← IO.getStdin).readToEnd else pure ""
  let now ← clock
  let id ← randomId
  return {
    environment := environment
    files := tree.entry?
    input := input
    folder := tree.folder
    network := fun _ => .failed "There is no network"
    room := ⟨fun _ => true, fun _ => true⟩
    codec := .usual
    pace := ⟨20000, 1000000, Nat.succ_pos _⟩
    now := now
    id := fun _ => id }

def say (records : List Log.Record) : IO Unit := do
  let time := (← clock).text
  for r in records do
    match r.line? time with
    | some line => IO.println line
    | none => pure ()

/-- Put a record in its file, through a temporary one. -/
def keep (directory : String) (r : Record) : IO Unit := do
  try
    IO.FS.createDirAll directory
    let temporary := FilePath.child directory (Store.temporaryName r.executionId)
    IO.FS.writeFile temporary (Store.fileText r)
    IO.FS.rename temporary (FilePath.child directory (Store.fileName r.executionId))
  catch _ => say (Engine.Event.log directory (.written r (some .refused)))

/-- Write what has come up since so many events. -/
def follow (l : Launch) (seen : Nat) : IO Nat := do
  let events := l.scheduler.history.reverse
  for event in events.drop seen do
    match event with
    | .written r none => keep l.directory r
    | _ => pure ()
    say ((event.log l.directory).filter fun r => l.threshold ≤ r.level.number)
  return events.length

/-- Go on with an execution as the clock does, until it is done. -/
partial def attend (l : Launch) (start seen : Nat) : IO (Launch × Outcome) := do
  let elapsed := (← IO.monoNanosNow) - start
  let l := l.upTo elapsed
  let seen ← follow l seen
  match l.outcome? with
  | some o => return (l, o)
  | none =>
    let due := l.scheduler.due?.getD (elapsed + 1000000000)
    IO.sleep ((due - elapsed) / 1000000 + 1).toUInt32
    attend l start seen

def tell (r : Report) : IO UInt32 := do
  IO.print r.output
  IO.eprint r.errors
  match r.ending with
  | .exit code => return code.toUInt32
  | .fault f =>
    IO.eprintln f.raised.report
    return 1

end ReminderFlow.CommandLine

open ReminderFlow.CommandLine in
def main (arguments : List String) : IO UInt32 := do
  match Plan.make (← findSurroundings arguments) arguments with
  | .done r =>
    say r.log
    tell r
  | .execution l =>
    say (l.log.filter fun r => l.threshold ≤ r.level.number)
    let (l, o) ← attend l (← IO.monoNanosNow) 0
    tell (l.report o)
  | .service r _ _ =>
    say r.log
    IO.eprintln "There is no transport to serve requests on"
    return 1
