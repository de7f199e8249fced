import ReminderFlow.Json.Depth
import ReminderFlow.Json.Reader

namespace ReminderFlow.Json.Syntax

inductive Breach where
  | endInList
  | endInObject
  | endInString
  | endInValue
  | colon
  | listEnd
  | objectEnd
  | word
  | value
  | escape
  | number
  | control
  | key
  | surrogate
  | trailingComma
  | trailing
  | halfPair
  | depth
  deriving DecidableEq

def Breach.describe : Breach → String
  | endInList => "EOF while parsing a list"
  | endInObject => "EOF while parsing an object"
  | endInString => "EOF while parsing a string"
  | endInValue => "EOF while parsing a value"
  | colon => "expected `:`"
  | listEnd => "expected `,` or `]`"
  | objectEnd => "expected `,` or `\x7d`"
  | word => "expected ident"
  | value => "expected value"
  | escape => "invalid escape"
  | number => "invalid number"
  | control => "control character (\\u0000-\\u001F) found while parsing a string"
  | key => "key must be a string"
  | surrogate => "lone leading surrogate in hex escape"
  | trailingComma => "trailing comma"
  | trailing => "trailing characters"
  | halfPair => "unexpected end of hex escape"
  | depth => "recursion limit exceeded"

/-- What is left of a text; where a breach is found, what is left there. -/
abbrev Rest := List UInt8

abbrev Step := Except (Breach × Rest) Rest

def isByte (c : Char) (b : UInt8) : Bool := b.toNat = c.toNat

def skipSpace (s : Rest) : Rest :=
  s.dropWhile fun b => isByte ' ' b || isByte '\t' b || isByte '\n' b || isByte '\r' b

def isDigit (b : UInt8) : Bool := 0x30 ≤ b.toNat && b.toNat ≤ 0x39

/-- At least one digit, and then all that follow. -/
def digits (s : Rest) : Step :=
  match s with
  | [] => .error (.endInValue, s)
  | b :: rest => if isDigit b then .ok (rest.dropWhile isDigit) else .error (.number, s)

/-- The power of ten of a number, if there is one. -/
def power (s : Rest) : Step :=
  match s with
  | b :: rest =>
    if isByte 'e' b || isByte 'E' b then
      match rest with
      | sign :: more => if isByte '-' sign || isByte '+' sign then digits more else digits rest
      | [] => digits rest
    else .ok s
  | [] => .ok s

/-- What may follow the whole part of a number. -/
def fraction (s : Rest) : Step :=
  match s with
  | b :: rest => if isByte '.' b then digits rest >>= power else power s
  | [] => .ok s

/-- The rest of a word whose first letter has been read. -/
def word (letters : List Char) (s : Rest) : Step :=
  match letters, s with
  | [], s => .ok s
  | _ :: _, [] => .error (.endInValue, s)
  | c :: letters, b :: rest => if isByte c b then word letters rest else .error (.word, s)

def unsigned (s : Rest) : Step :=
  match s with
  | [] => .error (.endInValue, s)
  | b :: rest =>
    if isByte '0' b then
      match rest with
      | d :: _ => if isDigit d then .error (.number, rest) else fraction rest
      | [] => .ok rest
    else if isByte 'I' b then word "nfinity".toList rest
    else if isDigit b then fraction (rest.dropWhile isDigit)
    else .error (.number, s)

/-- Four hexadecimal digits. -/
def unit (s : Rest) : Except (Breach × Rest) (Nat × Rest) :=
  if s.length < 4 then .error (.endInString, [])
  else go 4 0 s
where
  go : Nat → Nat → Rest → Except (Breach × Rest) (Nat × Rest)
    | 0, n, s => .ok (n, s)
    | _ + 1, _, [] => .error (.endInString, [])
    | k + 1, n, b :: rest =>
      match Text.hexValue? (Char.ofNat b.toNat) with
      | some d => go k (16 * n + d) rest
      | none => .error (.escape, b :: rest)

/-- The second unit of a pair. -/
def secondUnit (s : Rest) : Step :=
  match s with
  | [] => .error (.endInString, s)
  | b :: rest =>
    if !isByte '\\' b then .error (.halfPair, s)
    else
      match rest with
      | [] => .error (.endInString, rest)
      | u :: more =>
        if isByte 'u' u then do
          let (n, after) ← unit more
          if 0xDC00 ≤ n && n ≤ 0xDFFF then .ok after
          else .error (.surrogate, s.drop 5)
        else .error (.halfPair, rest)

/-- A unit of 16 bits behind its mark; the first of a pair needs the second. -/
def unicode (s : Rest) : Step := do
  let (n, after) ← unit s
  if 0xDC00 ≤ n && n ≤ 0xDFFF then .error (.surrogate, s.drop 3)
  else if 0xD800 ≤ n && n ≤ 0xDBFF then secondUnit after
  else .ok after

/-- The rest of a string, in so many steps at the most. -/
def string : Nat → Rest → Step
  | 0, s => .error (.endInString, s)
  | _ + 1, [] => .error (.endInString, [])
  | fuel + 1, b :: rest =>
    if isByte '"' b then .ok rest
    else if b.toNat < 0x20 then .error (.control, b :: rest)
    else if isByte '\\' b then
      match rest with
      | [] => .error (.endInString, [])
      | e :: more =>
        if isByte 'u' e then unicode more >>= string fuel
        else if "\"\\/bfnrt".toList.any fun c => isByte c e then string fuel more
        else .error (.escape, rest)
    else string fuel rest

mutual

/-- A value, with so many levels to go. -/
def value : Nat → Nat → Rest → Step
  | 0, _, s => .error (.depth, s)
  | fuel + 1, levels, s =>
    match skipSpace s with
    | [] => .error (.endInValue, [])
    | b :: rest =>
      if isByte '"' b then string (rest.length + 1) rest
      else if isByte '[' b then
        match skipSpace rest with
        | [] => .error (.endInList, [])
        | c :: more =>
          if isByte ']' c then .ok more
          else if levels = 0 then .error (.depth, c :: more)
          else items fuel (levels - 1) (c :: more)
      else if isByte '\x7b' b then
        match skipSpace rest with
        | [] => .error (.endInObject, [])
        | c :: more =>
          if isByte '\x7d' c then .ok more
          else if isByte '"' c then members fuel levels more
          else .error (.key, c :: more)
      else if isByte 'n' b then word "ull".toList rest
      else if isByte 't' b then word "rue".toList rest
      else if isByte 'f' b then word "alse".toList rest
      else if isByte 'N' b then word "aN".toList rest
      else if isByte '-' b then unsigned rest
      else if isDigit b || isByte 'I' b then unsigned (b :: rest)
      else .error (.value, b :: rest)

/-- The items of a list. -/
def items : Nat → Nat → Rest → Step
  | 0, _, s => .error (.depth, s)
  | fuel + 1, levels, s => do
    match skipSpace (← value fuel levels s) with
    | [] => .error (.endInList, [])
    | b :: rest =>
      if isByte ']' b then .ok rest
      else if isByte ',' b then
        match skipSpace rest with
        | [] => .error (.endInValue, [])
        | c :: more =>
          if isByte ']' c then .error (.trailingComma, c :: more) else items fuel levels (c :: more)
      else .error (.listEnd, b :: rest)

/-- The members of an object, from behind the first quotation mark on. -/
def members : Nat → Nat → Rest → Step
  | 0, _, s => .error (.depth, s)
  | fuel + 1, levels, s => do
    match skipSpace (← string (s.length + 1) s) with
    | [] => .error (.endInObject, [])
    | b :: rest =>
      if !isByte ':' b then .error (.colon, b :: rest)
      else if levels = 0 then .error (.depth, rest)
      else
        match skipSpace (← value fuel (levels - 1) rest) with
        | [] => .error (.endInObject, [])
        | c :: more =>
          if isByte '\x7d' c then .ok more
          else if isByte ',' c then
            match skipSpace more with
            | [] => .error (.endInValue, [])
            | d :: after =>
              if isByte '"' d then members fuel levels after
              else if isByte '\x7d' d then .error (.trailingComma, d :: after)
              else .error (.key, d :: after)
          else .error (.objectEnd, c :: more)

end

/-- The first breach in a text that may be nested so deep, with its offset in bytes. Each level and
each item take two steps and at least one byte. -/
def breach? (depth : Nat) (text : Rest) : Option (Breach × Nat) :=
  match value (2 * text.length + 2) depth text with
  | .error (b, rest) => some (b, text.length - rest.length)
  | .ok rest =>
    match skipSpace rest with
    | [] => none
    | rest => some (.trailing, text.length - rest.length)

/-- The line of an offset and the column in it, counted in bytes. A text that ends too soon is
told by its last column. -/
def position (text : Rest) (offset : Nat) : Nat × Nat :=
  let before := text.take (offset + 1)
  let line := before.filter (isByte '\n')
  let column := (before.reverse.takeWhile fun b => !isByte '\n' b).length
  (line.length + 1, column)

/-- What is wrong with a text that may be nested so deep, and where, if something is. -/
def complaint? (depth : Nat) (text : String) : Option String :=
  let bytes := text.toUTF8.toList
  (breach? depth bytes).map fun (b, offset) =>
    let (line, column) := position bytes offset
    s!"{b.describe} at line {line} column {column}"

end ReminderFlow.Json.Syntax
