import ReminderFlow.Json.Value
import ReminderFlow.Number.Rounding
import ReminderFlow.Text.Digit
import ReminderFlow.Text.Hex

namespace ReminderFlow.Json

open Text

/-- Why a text is no JSON. -/
inductive Fault where
  | expectingValue
  | expectingName
  | expectingColon
  | expectingComma
  | unterminatedString
  | controlCharacter
  | unknownEscape
  | unicodeEscape
  | extraData
  | byteOrderMark
  deriving DecidableEq

namespace Fault

def describe : Fault → String
  | expectingValue => "Expecting value"
  | expectingName => "Expecting property name enclosed in double quotes"
  | expectingColon => "Expecting ':' delimiter"
  | expectingComma => "Expecting ',' delimiter"
  | unterminatedString => "Unterminated string starting at"
  | controlCharacter => "Invalid control character at"
  | unknownEscape => "Invalid \\escape"
  | unicodeEscape => "Invalid \\uXXXX escape"
  | extraData => "Extra data"
  | byteOrderMark => "Unexpected UTF-8 BOM (decode using utf-8-sig)"

end Fault

inductive ReadError where
  | malformed (fault : Fault) (offset : Nat)
  /-- A whole number of too many digits. -/
  | integerTooLong (digits : Nat)
  /-- Half of a pair of units stands alone, which no string can hold. -/
  | halfPair
  deriving DecidableEq

/-- What is left of a text, and how much of it has been read. -/
structure Cursor where
  rest : List Char
  offset : Nat

def Cursor.fail {α : Type} (at_ : Cursor) (fault : Fault) : Except ReadError α :=
  .error (.malformed fault at_.offset)

def isSpace (c : Char) : Bool :=
  c = ' ' || c = '\t' || c = '\n' || c = '\r'

def Cursor.advance (at_ : Cursor) (count : Nat) : Cursor :=
  ⟨at_.rest.drop count, at_.offset + count⟩

def Cursor.skipSpace (at_ : Cursor) : Cursor :=
  at_.advance (at_.rest.takeWhile isSpace).length

def shortEscape? : Char → Option Char
  | '"' => some '"'
  | '\\' => some '\\'
  | '/' => some '/'
  | 'b' => some (Char.ofNat 0x08)
  | 'f' => some (Char.ofNat 0x0C)
  | 'n' => some '\n'
  | 'r' => some '\r'
  | 't' => some '\t'
  | _ => none

/-- The unit of 16 bits that four hexadecimal digits write. -/
def unitOf? (a b c d : Char) : Option Nat := do
  let a ← hexValue? a
  let b ← hexValue? b
  let c ← hexValue? c
  let d ← hexValue? d
  pure (((a * 16 + b) * 16 + c) * 16 + d)

/-- Four hexadecimal digits that do not end the text. -/
def takeUnit? : List Char → Option (Nat × List Char)
  | a :: b :: c :: d :: e :: rest => (unitOf? a b c d).map fun unit => (unit, e :: rest)
  | _ => none

/-- A unit of 16 bits that starts a pair, and one that ends it, stand for one character. -/
def joinPair? (high low : Nat) : Option Char :=
  if 0xD800 ≤ high ∧ high < 0xDC00 ∧ 0xDC00 ≤ low ∧ low < 0xE000 then
    some (Char.ofNat (0x10000 + (high - 0xD800) * 0x400 + (low - 0xDC00)))
  else none

/-- The characters of a string from behind its opening quote, which is at `opening`. Half a pair
alone is passed over here with a replacement: a text that has one is refused as a whole. -/
def readString (opening : Nat) : Nat → Cursor → List Char → Except ReadError (String × Cursor)
  | 0, _, _ => .error (.malformed .unterminatedString opening)
  | fuel + 1, at_, read =>
    match at_.rest with
    | [] => .error (.malformed .unterminatedString opening)
    | '"' :: _ => .ok (String.ofList read.reverse, at_.advance 1)
    | '\\' :: 'u' :: rest =>
      match takeUnit? rest with
      | none => (at_.advance 1).fail .unicodeEscape
      | some (high, more) =>
        let single := if 0xD800 ≤ high ∧ high < 0xE000 then Char.ofNat 0xFFFD else Char.ofNat high
        match more with
        | '\\' :: 'u' :: second =>
          if 0xD800 ≤ high ∧ high < 0xDC00 ∧ 4 < second.length then
            match takeUnit? second with
            | none => (at_.advance 7).fail .unicodeEscape
            | some (low, _) =>
              match joinPair? high low with
              | some c => readString opening fuel (at_.advance 12) (c :: read)
              | none => readString opening fuel (at_.advance 6) (single :: read)
          else readString opening fuel (at_.advance 6) (single :: read)
        | _ => readString opening fuel (at_.advance 6) (single :: read)
    | '\\' :: c :: _ =>
      match shortEscape? c with
      | some plain => readString opening fuel (at_.advance 2) (plain :: read)
      | none => at_.fail .unknownEscape
    | '\\' :: [] => .error (.malformed .unterminatedString opening)
    | c :: _ =>
      if c.toNat < 0x20 then at_.fail .controlCharacter
      else readString opening fuel (at_.advance 1) (c :: read)

/-- A zero, or digits that start with no zero. -/
def takeWhole (s : List Char) : List Char :=
  match s with
  | '0' :: _ => ['0']
  | s => s.takeWhile Char.isDigit

/-- An optional point with digits behind it; a point without digits is not taken. -/
def takeFraction (s : List Char) : List Char :=
  match s with
  | '.' :: rest => rest.takeWhile Char.isDigit
  | _ => []

/-- An optional power of ten as its length and value; a mark without digits is not taken. -/
def takeExponent (s : List Char) : Option (Nat × Int) :=
  match s with
  | e :: rest =>
    if e = 'e' ∨ e = 'E' then
      let sign := match rest with
        | '-' :: _ | '+' :: _ => 1
        | _ => 0
      let digits := (rest.drop sign).takeWhile Char.isDigit
      if digits.isEmpty then none
      else
        let size : Int := digitsValue digits
        some (1 + sign + digits.length, if rest.head? = some '-' then -size else size)
    else none
  | [] => none

/-- A number whose sign is known: a whole part, then a fraction and a power of ten if there are any,
which make it a double. -/
def readNumber (negative : Bool) (at_ : Cursor) : Except ReadError (Value × Cursor) :=
  let whole := takeWhole at_.rest
  let fraction := takeFraction (at_.rest.drop whole.length)
  let afterFraction := whole.length + (if fraction.isEmpty then 0 else fraction.length + 1)
  match takeExponent (at_.rest.drop afterFraction) with
  | some (length, power) =>
    let x := Double.ofDecimal negative (digitsValue (whole ++ fraction)) (power - fraction.length)
    .ok (.float x, at_.advance (afterFraction + length))
  | none =>
    if fraction.isEmpty then
      if wholeLimit < whole.length then .error (.integerTooLong whole.length)
      else
        let size : Int := digitsValue whole
        .ok (.int (if negative then -size else size), at_.advance whole.length)
    else
      let x := Double.ofDecimal negative (digitsValue (whole ++ fraction)) (-fraction.length)
      .ok (.float x, at_.advance afterFraction)

/-- The words that are values. -/
def words : List (List Char × Value) :=
  [("null".toList, .null), ("true".toList, .bool true), ("false".toList, .bool false),
   ("NaN".toList, .float .nan), ("Infinity".toList, .float (.infinite false)),
   ("-Infinity".toList, .float (.infinite true))]

def takeWord? (s : List Char) : Option (List Char × Value) :=
  words.find? fun w => w.1.isPrefixOf s

/-- A value that is neither text nor a container. -/
def readPlain (at_ : Cursor) : Except ReadError (Value × Cursor) :=
  match takeWord? at_.rest with
  | some (word, value) => .ok (value, at_.advance word.length)
  | none =>
    match at_.rest with
    | '-' :: c :: _ =>
      if c.isDigit then readNumber true (at_.advance 1) else at_.fail .expectingValue
    | c :: _ => if c.isDigit then readNumber false at_ else at_.fail .expectingValue
    | [] => at_.fail .expectingValue

mutual

/-- Each value, item and member uses up a character at least, so the length of the text suffices
as fuel. -/
def readValue : Nat → Cursor → Except ReadError (Value × Cursor)
  | 0, at_ => at_.fail .expectingValue
  | fuel + 1, at_ =>
    match at_.rest with
    | '"' :: _ => do
      let (s, next) ← readString at_.offset at_.rest.length (at_.advance 1) []
      pure (.str s, next)
    | '[' :: _ =>
      let inside := (at_.advance 1).skipSpace
      match inside.rest with
      | ']' :: _ => .ok (.arr [], inside.advance 1)
      | _ => do
        let (items, next) ← readItems fuel inside
        pure (.arr items, next)
    | '\x7b' :: _ =>
      let inside := (at_.advance 1).skipSpace
      match inside.rest with
      | '\x7d' :: _ => .ok (.obj [], inside.advance 1)
      | _ => do
        let (members, next) ← readMembers fuel inside
        pure (.obj (Members.ofList members), next)
    | _ => readPlain at_

def readItems : Nat → Cursor → Except ReadError (List Value × Cursor)
  | 0, at_ => at_.fail .expectingValue
  | fuel + 1, at_ => do
    let (value, next) ← readValue fuel at_
    let next := next.skipSpace
    match next.rest with
    | ']' :: _ => pure ([value], next.advance 1)
    | ',' :: _ =>
      let (items, last) ← readItems fuel (next.advance 1).skipSpace
      pure (value :: items, last)
    | _ => next.fail .expectingComma

def readMembers : Nat → Cursor → Except ReadError (List (String × Value) × Cursor)
  | 0, at_ => at_.fail .expectingName
  | fuel + 1, at_ =>
    match at_.rest with
    | '"' :: _ => do
      let (name, next) ← readString at_.offset at_.rest.length (at_.advance 1) []
      let next := next.skipSpace
      match next.rest with
      | ':' :: _ =>
        let (value, next) ← readValue fuel (next.advance 1).skipSpace
        let next := next.skipSpace
        match next.rest with
        | '\x7d' :: _ => pure ([(name, value)], next.advance 1)
        | ',' :: _ =>
          let (members, last) ← readMembers fuel (next.advance 1).skipSpace
          pure ((name, value) :: members, last)
        | _ => next.fail .expectingComma
      | _ => next.fail .expectingColon
    | _ => at_.fail .expectingName

end

/-- The value that a whole text writes. -/
def readList (text : List Char) : Except ReadError Value :=
  if text.head? = some (Char.ofNat 0xFEFF) then .error (.malformed .byteOrderMark 0)
  else do
    let (value, next) ← readValue (2 * text.length + 2) (Cursor.mk text 0).skipSpace
    let last := next.skipSpace
    if last.rest.isEmpty then pure value else last.fail .extraData

/-- What stands for a character in a string: a unit of 16 bits that is escaped by its number, or
anything else. -/
def units : List Char → List (Option Nat)
  | '\\' :: 'u' :: a :: b :: c :: d :: rest =>
    unitOf? a b c d :: units rest
  | '\\' :: _ :: rest => none :: units rest
  | _ :: rest => none :: units rest
  | [] => []

/-- Whether half of a pair stands alone; `opened` says that the first half of one has just been. -/
def hasHalf (opened : Bool) : List (Option Nat) → Bool
  | [] => opened
  | none :: rest => opened || hasHalf false rest
  | some unit :: rest =>
    if 0xDC00 ≤ unit ∧ unit < 0xE000 then !opened || hasHalf false rest
    else opened || hasHalf (0xD800 ≤ unit && unit < 0xDC00) rest

/-- Backslashes stand in strings only, so a text that writes a value is looked through as it is. -/
def read (text : String) : Except ReadError Value := do
  let value ← readList text.toList
  if hasHalf false (units text.toList) then .error .halfPair else pure value

/-- The line and the column of a place in a text, both counted from one. -/
def position (text : List Char) (offset : Nat) : Nat × Nat :=
  let before := text.take offset
  (before.count '\n' + 1, (before.reverse.takeWhile (· ≠ '\n')).length + 1)

/-- What is wrong with a text, and where. -/
def Fault.message (fault : Fault) (text : String) (offset : Nat) : String :=
  let (line, column) := position text.toList offset
  s!"{fault.describe}: line {line} column {column} (char {offset})"

end ReminderFlow.Json
