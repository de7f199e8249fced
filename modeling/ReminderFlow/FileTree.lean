import ReminderFlow.FilePath
import ReminderFlow.Store

namespace ReminderFlow

structure FileTree where
  files : List (String × Entry)

namespace FileTree

/-- Names are brought to their normal form. -/
def ofTexts (texts : List (String × String)) : FileTree :=
  ⟨texts.map fun f => (FilePath.normal f.1, .ofText f.2)⟩

/-- The files in a directory, at any depth. -/
def under (t : FileTree) (directory : String) : List (String × Entry) :=
  t.files.filter fun f => (FilePath.ancestors f.1).contains directory

def entry? (t : FileTree) (path : String) : Option Entry :=
  (t.files.lookup path).or
    (if path = "." || !(t.under path).isEmpty then some .directory else none)

/-- What stands where a directory is wanted. -/
def folder (t : FileTree) (path : String) : Folder :=
  if (t.files.lookup path).isSome then .blocked .occupied
  else if (FilePath.ancestors path).any fun d => (t.files.lookup d).isSome then
    .blocked .notDirectory
  else
    match t.under path with
    | [] => .absent
    | files => .present (files.map fun f => ((f.1.drop (path.length + 1)).toString, f.2))

end FileTree

end ReminderFlow
