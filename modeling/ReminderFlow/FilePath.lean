namespace ReminderFlow.FilePath

/-- The parts of a name between slashes, without those that lead nowhere. -/
def parts (path : String) : List String :=
  (path.splitOn "/").filter fun part => part ≠ "" && part ≠ "."

/-- What a name starts with: two slashes are a root of their own, three and more are one. -/
def root (path : String) : String :=
  match (path.toList.takeWhile (· = '/')).length with
  | 0 => ""
  | 2 => "//"
  | _ => "/"

/-- The name made of a root and parts; that of the place itself is a dot. -/
def ofParts (root : String) (parts : List String) : String :=
  if root = "" && parts.isEmpty then "." else root ++ "/".intercalate parts

def normal (path : String) : String := ofParts (root path) (parts path)

/-- The name of something in a directory. -/
def child (directory name : String) : String :=
  ofParts (root directory) (parts directory ++ [name])

/-- The directories on the way to a name, the nearest last. -/
def ancestors (path : String) : List String :=
  let parts := parts path
  ((List.range parts.length).drop 1).map fun n => ofParts (root path) (parts.take n)

end ReminderFlow.FilePath
