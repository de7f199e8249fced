import ReminderFlow.Engine.Scheduler
import ReminderFlow.Executor.Channel
import ReminderFlow.Machine.Load
import ReminderFlow.Settings.Server

namespace ReminderFlow

structure Surroundings where
  environment : List (String × String)
  files : String → Option Entry
  /-- What comes in on the standard input. -/
  input : String
  /-- What stands at the place of a store. -/
  folder : String → Folder
  network : Network
  room : Room
  codec : Codec
  pace : Pace
  now : Instant
  /-- The id of the n-th execution. -/
  id : Nat → String

namespace Surroundings

def settingsFile : String := ".env"

/-- The settings file is optional. -/
def source (s : Surroundings) : Settings.Source :=
  .make s.environment (Entry.readText (s.files settingsFile)).toOption

def machineRecord (path : String) : Log.Record where
  level := .info
  logger := "reminder_orchestrator.orchestrator.workflow.reminder"
  message := "Loaded state machine definition"
  extra := [("path", .str path)]

/-- The machine that the settings name, and what is logged of it. -/
def machine (s : Surroundings) (c : Settings) : Except LoadError (Machine × List Log.Record) :=
  (Machine.load s.room s.files c.definitionPath).map fun m =>
    (m, c.definitionPath.toList.map machineRecord)

/-- An engine for these executors, with its store at the place that the settings name. -/
def scheduler (s : Surroundings) (c : Settings) (registry : Registry) : Scheduler :=
  let archive : Archive := ⟨⟨s.folder c.executionsPath, s.codec⟩, fun _ => false⟩
  .make (.make registry (some archive) Engine.defaultRetention) s.pace s.now c.workers

end Surroundings

end ReminderFlow
