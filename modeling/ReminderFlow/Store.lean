import ReminderFlow.File
import ReminderFlow.Json.Finite
import ReminderFlow.Json.Writer
import ReminderFlow.Record

namespace ReminderFlow

/-- What stands at the place of the store. -/
inductive Folder where
  | absent
  | present (entries : List (String × Entry))
  /-- Something else, because of which no directory can be made there. -/
  | blocked (fault : FileFault)

namespace Folder

def entries : Folder → List (String × Entry)
  | present entries => entries
  | _ => []

def entry? (f : Folder) (name : String) : Option Entry := f.entries.lookup name

/-- The folder, made if it is absent. -/
def made : Folder → Except FileFault (List (String × Entry))
  | absent => .ok []
  | present entries => .ok entries
  | blocked fault => .error fault

/-- The names in it, in order. -/
def names? : Folder → Except FileFault (List String)
  | absent => .error .missing
  | present entries => .ok ((Members.keys entries).mergeSort fun a b => a ≤ b)
  | blocked fault => .error fault

/-- The longest name that a file can have, in bytes. -/
def nameLimit : Nat := 255

end Folder

structure Store where
  folder : Folder
  codec : Codec

inductive StoreError where
  | invalidId (id : String)
  | tooDeep
  /-- A whole number of too many digits. -/
  | integerTooLong
  | nameTooLong
  | isDirectory
  | blocked (fault : FileFault)
  | notUtf8
  /-- The store takes no record at the moment. -/
  | refused
  deriving DecidableEq

namespace StoreError

def message : StoreError → String
  | invalidId id => s!"Invalid execution id {Text.quote id}"
  | tooDeep => "Circular reference detected (depth exceeded)"
  | integerTooLong => Text.overLimitWritten
  | nameTooLong => "File name too long"
  | isDirectory => "Is a directory"
  | blocked _ => "The directory of the store cannot be made"
  | notUtf8 => "A record is not UTF-8"
  | refused => "The record is refused"

end StoreError

namespace Store

def empty (codec : Codec) : Store := ⟨.absent, codec⟩

def isIdChar (c : Char) : Bool := c.isAlphanum || c = '_' || c = '-'

/-- Ids are made of letters and digits of ASCII, underscores and hyphens. -/
def isId (id : String) : Bool := !id.isEmpty && id.toList.all isIdChar

def extension : String := ".json"

def fileName (id : String) : String := id ++ extension

def temporaryName (id : String) : String := fileName id ++ ".tmp"

/-- The record in a file, if there is one and it can be read. A file that is not UTF-8 is a fault
and not passed over. -/
def readEntry (codec : Codec) (name : String) (entry : Option Entry) : Except StoreError (Option Record) :=
  if Folder.nameLimit < name.utf8ByteSize then .ok none
  else
    match Entry.readText entry with
    | .ok text => .ok (Record.read? codec text)
    | .error .notUtf8 => .error .notUtf8
    | .error _ => .ok none

def get (s : Store) (id : String) : Except StoreError (Option Record) :=
  if isId id then readEntry s.codec (fileName id) (s.folder.entry? (fileName id)) else .ok none

/-- All records that can be read, earlier executions first. -/
def list (s : Store) : Except StoreError (List Record) :=
  let files := s.folder.entries.filter fun e => e.1.endsWith extension
  (files.mapM fun e => readEntry s.codec e.1 (some e.2)).map fun records =>
    (records.filterMap id).mergeSort Record.before

/-- The text of the file of a record. -/
def fileText (r : Record) : String := Json.pretty r.toJson.finiteOrNull ++ "\n"

def isDirectoryAt (entries : List (String × Entry)) (name : String) : Bool :=
  match entries.lookup name with
  | some .directory => true
  | _ => false

/-- The store with a record in the place of the one with the same id, or what went wrong; then
nothing that can be read has changed. -/
def put (s : Store) (r : Record) : Store × Option StoreError :=
  let id := r.executionId
  if !isId id then (s, some (.invalidId id))
  else if !r.isShallow s.codec then (s, some .tooDeep)
  else if !r.toJson.isShort then (s, some .integerTooLong)
  else
    match s.folder.made with
    | .error fault => (s, some (.blocked fault))
    | .ok entries =>
      let text := Entry.ofText (fileText r)
      if Folder.nameLimit < (temporaryName id).utf8ByteSize then
        ({ s with folder := .present entries }, some .nameTooLong)
      else if isDirectoryAt entries (temporaryName id) then
        ({ s with folder := .present entries }, some .isDirectory)
      else if isDirectoryAt entries (fileName id) then
        ({ s with folder := .present (Members.insert (temporaryName id) text entries) },
          some .isDirectory)
      else
        ({ s with folder := .present (Members.insert (fileName id) text
          (Members.erase (temporaryName id) entries)) }, none)

end Store

end ReminderFlow
