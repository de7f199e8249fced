import ReminderFlow.Text.Lines
import ReminderFlow.Text.Quoted

namespace ReminderFlow

inductive Entry where
  | file (content : ByteArray)
  | directory
  deriving Inhabited

inductive FileFault where
  | missing
  | isDirectory
  | notDirectory
  /-- Something else stands where a directory is to be made. -/
  | occupied
  | notUtf8
  deriving DecidableEq

namespace FileFault

/-- What is wrong with a file that cannot be opened. -/
def message (path : String) : FileFault → String
  | missing => s!"[Errno 2] No such file or directory: {Text.quote path}"
  | isDirectory => s!"[Errno 21] Is a directory: {Text.quote path}"
  | notDirectory => s!"[Errno 20] Not a directory: {Text.quote path}"
  | occupied => s!"[Errno 17] File exists: {Text.quote path}"
  | notUtf8 => s!"{Text.quote path} is not UTF-8"

/-- What kind of exception a fault is reported as. -/
def kind : FileFault → String
  | missing => "FileNotFoundError"
  | isDirectory => "IsADirectoryError"
  | notDirectory => "NotADirectoryError"
  | occupied => "FileExistsError"
  | notUtf8 => "UnicodeDecodeError"

end FileFault

namespace Entry

def ofText (s : String) : Entry := file s.toUTF8

/-- The text of a file with unified line ends. -/
def readText : Option Entry → Except FileFault String
  | none => .error .missing
  | some directory => .error .isDirectory
  | some (file content) =>
    match String.fromUTF8? content with
    | some s => .ok (String.ofList (Text.unifyLines s.toList))
    | none => .error .notUtf8

end Entry

end ReminderFlow
