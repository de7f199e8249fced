import ReminderFlow.Json.Value
import ReminderFlow.Number.Layout
import ReminderFlow.Text.Digit
import ReminderFlow.Text.Hex

namespace ReminderFlow

namespace Value

mutual

/-- Whether no whole number in the value has too many digits. -/
def isShort : Value → Bool
  | int n => n.natAbs < tenTo Text.wholeLimit
  | arr items => allShort items
  | obj members => allShortMembers members
  | _ => true

def allShort : List Value → Bool
  | [] => true
  | v :: rest => isShort v && allShort rest

def allShortMembers : List (String × Value) → Bool
  | [] => true
  | (_, v) :: rest => isShort v && allShortMembers rest

end

end Value

namespace Json

open Text

def unitEscape (unit : Nat) : List Char :=
  '\\' :: 'u' :: hex 4 unit

/-- The escape of a character: a short one, or its units of 16 bits. -/
def escape (c : Char) : List Char :=
  if c = '"' ∨ c = '\\' then ['\\', c]
  else if c = '\n' then ['\\', 'n']
  else if c = '\r' then ['\\', 'r']
  else if c = '\t' then ['\\', 't']
  else if c = Char.ofNat 0x08 then ['\\', 'b']
  else if c = Char.ofNat 0x0C then ['\\', 'f']
  else if c.toNat < 0x10000 then unitEscape c.toNat
  else
    let rest := c.toNat - 0x10000
    unitEscape (0xD800 + rest / 0x400) ++ unitEscape (0xDC00 + rest % 0x400)

def needsEscape (ascii : Bool) (c : Char) : Bool :=
  c = '"' || c = '\\' || c.toNat < 0x20 || (ascii && 0x7E < c.toNat)

def writeString (ascii : Bool) (s : String) : List Char :=
  '"' :: s.toList.flatMap (fun c => if needsEscape ascii c then escape c else [c]) ++ ['"']

/-- A way to write JSON text. -/
structure Style where
  ascii : Bool
  /-- Blanks to indent each level by; on one line if absent. -/
  indent : Option Nat

namespace Style

/-- What stands before the items of a container at this depth, and before its closing bracket. -/
def lineBreak (style : Style) (depth : Nat) : List Char :=
  match style.indent with
  | none => []
  | some width => '\n' :: List.replicate (width * depth) ' '

/-- What stands between two items at this depth. -/
def separator (style : Style) (depth : Nat) : List Char :=
  match style.indent with
  | none => [',', ' ']
  | some _ => ',' :: style.lineBreak depth

end Style

/-- The text between two brackets, unless there is none. -/
def bracketed (style : Style) (depth : Nat) (opening closing : Char) (content : List (List Char)) :
    List Char :=
  match content with
  | [] => [opening, closing]
  | _ =>
    opening :: style.lineBreak (depth + 1)
      ++ List.flatten (content.intersperse (style.separator (depth + 1)))
      ++ style.lineBreak depth ++ [closing]

mutual

def writeValue (style : Style) (depth : Nat) : Value → List Char
  | .null => "null".toList
  | .bool true => "true".toList
  | .bool false => "false".toList
  | .int n => (toString n).toList
  | .float x => (NumberLayout.document.write x).toList
  | .str s => writeString style.ascii s
  | .arr items => bracketed style depth '[' ']' (writeItems style (depth + 1) items)
  | .obj members => bracketed style depth '\x7b' '\x7d' (writeMembers style (depth + 1) members)

def writeItems (style : Style) (depth : Nat) : List Value → List (List Char)
  | [] => []
  | v :: rest => writeValue style depth v :: writeItems style depth rest

def writeMembers (style : Style) (depth : Nat) : List (String × Value) → List (List Char)
  | [] => []
  | (k, v) :: rest =>
    (writeString style.ascii k ++ [':', ' '] ++ writeValue style depth v)
      :: writeMembers style depth rest

end

/-- On one line, in ASCII. -/
def compact (v : Value) : String :=
  String.ofList (writeValue ⟨true, none⟩ 0 v)

/-- On one line, with characters of every script as they are. -/
def line (v : Value) : String :=
  String.ofList (writeValue ⟨false, none⟩ 0 v)

/-- On many lines, two blanks to a level. -/
def pretty (v : Value) : String :=
  String.ofList (writeValue ⟨false, some 2⟩ 0 v)

end Json

end ReminderFlow
