import ReminderFlow.Json.Value
import ReminderFlow.Text.Blank

namespace ReminderFlow.Settings.File

open Text

/-- White space that does not end the line. -/
def isInline (c : Char) : Bool := isBlank c && c ≠ '\n' && c ≠ '\r'

def isLineEnd (c : Char) : Bool := c = '\n' || c = '\r'

def skipInline (s : List Char) : List Char := s.dropWhile isInline

/-- What follows the line. -/
def skipLine (s : List Char) : List Char :=
  match s.dropWhile fun c => !isLineEnd c with
  | [] => []
  | _ :: rest => rest

/-- A word that may stand before a name. -/
def skipExport (s : List Char) : List Char :=
  let word := "export".toList
  let rest := s.drop word.length
  if s.take word.length = word && (rest.head?.map isInline).getD false then skipInline rest else s

/-- The text up to a closing quote, and what follows that. A quote behind a backslash closes only if
no other one does. -/
def takeQuoted (quote : Char) : List Char → Option (List Char × List Char)
  | [] => none
  | '\\' :: c :: rest =>
    if c = quote then
      match takeQuoted quote rest with
      | some (content, after) => some ('\\' :: c :: content, after)
      | none => some (['\\'], rest)
    else (takeQuoted quote (c :: rest)).map fun (content, after) => ('\\' :: content, after)
  | c :: rest =>
    if c = quote then some ([], rest)
    else (takeQuoted quote rest).map fun (content, after) => (c :: content, after)

def singleEscape? (c : Char) : Option Char :=
  if c = '\\' ∨ c = '\'' then some c else none

def doubleEscape? (c : Char) : Option Char :=
  match c with
  | 'a' => some (Char.ofNat 0x07)
  | 'b' => some (Char.ofNat 0x08)
  | 'f' => some (Char.ofNat 0x0C)
  | 'n' => some '\n'
  | 'r' => some '\r'
  | 't' => some '\t'
  | 'v' => some (Char.ofNat 0x0B)
  | '"' => some '"'
  | c => singleEscape? c

/-- The text with its escapes resolved; a backslash before another character stays. -/
def unescape (escape? : Char → Option Char) : List Char → List Char
  | [] => []
  | '\\' :: c :: rest =>
    match escape? c with
    | some d => d :: unescape escape? rest
    | none => '\\' :: unescape escape? (c :: rest)
  | c :: rest => c :: unescape escape? rest

/-- The text before a comment, which starts with a number sign behind a blank. -/
def dropComment : List Char → List Char
  | [] => []
  | [c] => [c]
  | c :: d :: rest => if isBlank c && d = '#' then [] else c :: dropComment (d :: rest)

def trimEnd (s : List Char) : List Char := (s.reverse.dropWhile isBlank).reverse

/-- The name that a line starts with, or nothing for a comment. What is read so far is given up
where there is no name. -/
def takeName (s : List Char) : Except (List Char) (Option (List Char) × List Char) :=
  match s with
  | '#' :: _ => .ok (none, s)
  | '\'' :: rest =>
    let (name, after) := rest.span (· ≠ '\'')
    match name, after with
    | _ :: _, _ :: after => .ok (some name, after)
    | _, _ => .error s
  | _ =>
    let (name, after) := s.span fun c => c ≠ '=' && c ≠ '#' && !isBlank c
    if name.isEmpty then .error s else .ok (some name, after)

def takeValue (s : List Char) : Except (List Char) (List Char × List Char) :=
  match s with
  | '\'' :: rest =>
    match takeQuoted '\'' rest with
    | some (content, after) => .ok (unescape singleEscape? content, after)
    | none => .error s
  | '"' :: rest =>
    match takeQuoted '"' rest with
    | some (content, after) => .ok (unescape doubleEscape? content, after)
    | none => .error s
  | _ =>
    let (line, after) := s.span fun c => !isLineEnd c
    .ok (trimEnd (dropComment line), after)

/-- The rest of a line: blanks and a comment, and nothing else. -/
def endLine (s : List Char) : Except (List Char) (List Char) :=
  let s := match skipInline s with
    | '#' :: rest => rest.dropWhile fun c => !isLineEnd c
    | rest => rest
  match s with
  | [] => .ok []
  | '\r' :: '\n' :: rest => .ok rest
  | c :: rest => if isLineEnd c then .ok rest else .error s

/-- A name and its value, where it has one. -/
abbrev Binding := String × Option String

/-- What a line binds, and what follows it. -/
def takeBinding (s : List Char) : Except (List Char) (Option Binding × List Char) := do
  let (name, s) ← takeName (skipExport s)
  let (value, s) ← match skipInline s with
    | '=' :: rest => (takeValue (skipInline rest)).map fun (v, after) => (some v, after)
    | s => .ok (none, s)
  let s ← endLine s
  pure (name.map fun n => (String.ofList n, value.map String.ofList), s)

/-- The bindings of a text, read in so many steps at the most. -/
def takeBindings : Nat → List Char → List Binding
  | 0, _ => []
  | fuel + 1, s =>
    match s.dropWhile isBlank with
    | [] => []
    | s =>
      match takeBinding s with
      | .ok (some b, rest) => b :: takeBindings fuel rest
      | .ok (none, rest) => takeBindings fuel rest
      | .error rest => takeBindings fuel (skipLine rest)

/-- Every line takes at least one character, so a step for each of them is enough. -/
def bindings (text : String) : List Binding :=
  takeBindings text.length text.toList

/-- A reference to a name, which may come with a text to stand in where nothing is bound. -/
structure Reference where
  name : String
  standIn : String

/-- The reference that starts behind a dollar sign, and what follows it. -/
def takeReference : List Char → Option (Reference × List Char)
  | '\x7b' :: s =>
    let (name, rest) := s.span fun c => c ≠ '\x7d' && c ≠ ':'
    match rest with
    | '\x7d' :: after => some (⟨String.ofList name, ""⟩, after)
    | ':' :: '-' :: more =>
      let (standIn, rest) := more.span (· ≠ '\x7d')
      match rest with
      | _ :: after => some (⟨String.ofList name, String.ofList standIn⟩, after)
      | [] => none
    | _ => none
  | _ => none

/-- The value with its references replaced, in so many steps at the most. -/
def expand (resolve : Reference → String) : Nat → List Char → List Char
  | 0, s => s
  | _ + 1, [] => []
  | fuel + 1, c :: rest =>
    match if c = '$' then takeReference rest else none with
    | some (r, after) => (resolve r).toList ++ expand resolve fuel after
    | none => c :: expand resolve fuel rest

/-- What a reference stands for: what is bound in the file before it, or else in the environment. A
name that is bound without a value stands for nothing. -/
def resolve (environment : List (String × String)) (bound : List Binding)
    (r : Reference) : String :=
  match bound.lookup r.name with
  | some value => value.getD ""
  | none => (environment.lookup r.name).getD r.standIn

/-- The names of a file in the order in which they are first bound, each with its last value. -/
def read (environment : List (String × String)) (text : String) : List Binding :=
  (bindings text).foldl (fun bound (name, value) =>
    Members.insert name
      (value.map fun v =>
        String.ofList (expand (resolve environment bound) v.length v.toList)) bound) []

example : read [("B", "x")] "A=1 # one\nexport C='it\\'s' \n# D=2\nE=$\x7bB\x7d-$\x7bF:-y\x7d\nG" =
    [("A", some "1"), ("C", some "it's"), ("E", some "x-y"), ("G", none)] := by
  decide +kernel

end ReminderFlow.Settings.File
