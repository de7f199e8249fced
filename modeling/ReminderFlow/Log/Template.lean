import ReminderFlow.Datum
import ReminderFlow.Number.Decimal
import ReminderFlow.Text.Hex

namespace ReminderFlow.Log

open Text

/-- A width or a precision: given, taken from the arguments, or absent. -/
inductive Extent where
  | absent
  | given (n : Nat)
  | argument

structure Placeholder where
  key : Option String
  flags : List Char
  width : Extent
  precision : Extent
  conversion : Char

namespace Placeholder

def has (p : Placeholder) (flag : Char) : Bool := p.flags.contains flag

def isFlag (c : Char) : Bool := ['-', '+', ' ', '#', '0'].contains c

/-- A name up to its closing parenthesis; parentheses inside it are paired. -/
def takeKey (depth : Nat) : List Char → Option (List Char × List Char)
  | [] => none
  | c :: rest =>
    if c = ')' ∧ depth = 0 then some ([], rest)
    else
      let inner := if c = '(' then depth + 1 else if c = ')' then depth - 1 else depth
      (takeKey inner rest).map fun (key, more) => (c :: key, more)

def takeExtent : List Char → Extent × List Char
  | '*' :: rest => (.argument, rest)
  | s =>
    let digits := s.takeWhile Char.isDigit
    let rest := s.dropWhile Char.isDigit
    if digits.isEmpty then (.absent, rest)
    else (.given (digits.foldl (fun n c => 10 * n + (c.toNat - '0'.toNat)) 0), rest)

/-- The placeholder behind a percent sign, and what follows it. -/
def take? (s : List Char) : Option (Placeholder × List Char) := do
  let (key, s) ← match s with
    | '(' :: rest => (takeKey 0 rest).map fun (key, more) => (some (String.ofList key), more)
    | _ => some (none, s)
  let flags := s.takeWhile isFlag
  let (width, s) := takeExtent (s.dropWhile isFlag)
  let (precision, s) := match s with
    | '.' :: rest =>
      match takeExtent rest with
      | (.absent, more) => (.given 0, more)
      | r => r
    | _ => (.absent, s)
  match (match s with
    | c :: rest => if ['h', 'l', 'L'].contains c then rest else s
    | [] => s) with
  | [] => none
  | conversion :: rest => some (⟨key, flags, width, precision, conversion⟩, rest)

end Placeholder

structure Piece where
  sign : List Char
  /-- The base of a number, written if asked for. -/
  base : List Char
  body : List Char
  /-- Numbers may be padded with zeros and may show a plus sign. -/
  numeric : Bool

namespace Piece

def ofText (s : List Char) : Piece := ⟨[], [], s, false⟩

def signOf (p : Placeholder) (negative : Bool) : List Char :=
  if negative then ['-'] else if p.has '+' then ['+'] else if p.has ' ' then [' '] else []

def padded (p : Placeholder) (width : Nat) (piece : Piece) : List Char :=
  let lead := piece.sign ++ piece.base
  let fill := width - (lead.length + piece.body.length)
  if p.has '-' then lead ++ piece.body ++ List.replicate fill ' '
  else if piece.numeric && p.has '0' then lead ++ List.replicate fill '0' ++ piece.body
  else List.replicate fill ' ' ++ lead ++ piece.body

end Piece

/-- The digits of a number in a base up to sixteen, at least as many as asked for. -/
def digitsIn (base precision n : Nat) : List Char :=
  let digits := (Nat.toDigits base n)
  List.replicate (precision - digits.length) '0' ++ digits

/-- An integer in one of the bases. -/
def integerPiece (p : Placeholder) (base : Nat) (lead : List Char) (precision : Nat) (n : Int) :
    Piece :=
  let digits := digitsIn base precision n.natAbs
  let body := if p.conversion = 'X' then digits.map Char.toUpper else digits
  ⟨Piece.signOf p (n < 0), if p.has '#' then lead else [], body, true⟩

/-- A finite magnitude with this many places behind the point. -/
def fixed (rank places : Nat) (keepPoint : Bool) : List Char :=
  let scaled := roundHalfEven (Double.unitsOf rank * tenTo places) (twoTo Double.unitExponent)
  let digits := digitsIn 10 (places + 1) scaled
  let whole := digits.take (digits.length - places)
  if places = 0 then (if keepPoint then whole ++ ['.'] else whole)
  else whole ++ '.' :: digits.drop (digits.length - places)

def exponentText (exponent : Int) : List Char :=
  'e' :: (if exponent < 0 then '-' else '+') :: digitsIn 10 2 exponent.natAbs

/-- A finite magnitude with one digit before the point, and a power of ten. -/
def scientific (rank places : Nat) (keepPoint : Bool) : List Char :=
  let d := Double.significant rank (places + 1)
  let digits := d.digits.repr.toList
  let all := digits ++ List.replicate (places + 1 - digits.length) '0'
  let mantissa := all.take 1 ++ (if places = 0 then (if keepPoint then ['.'] else [])
    else '.' :: all.drop 1)
  mantissa ++ exponentText (if rank = 0 then 0 else d.leading)

/-- A finite magnitude with so many significant digits, in the shorter of the two ways; zeros at
the end are kept only on request. -/
def general (rank count : Nat) (keepZeros : Bool) : List Char :=
  let count := max count 1
  let d := Double.significant rank count
  let leading := if rank = 0 then 0 else d.leading
  let shown := if keepZeros then count else d.digits.repr.length
  if leading < -4 ∨ (count : Int) ≤ leading then scientific rank (shown - 1) keepZeros
  else
    let places := ((shown : Int) - 1 - leading).toNat
    fixed rank places keepZeros

def doublePiece (p : Placeholder) (precision : Option Nat) (x : Double) : Piece :=
  let body := match x with
    | .finite _ rank =>
      let count := precision.getD 6
      match p.conversion.toLower with
      | 'f' => fixed rank.val count (p.has '#')
      | 'e' => scientific rank.val count (p.has '#')
      | _ => general rank.val count (p.has '#')
    | .infinite _ => "inf".toList
    | .nan => "nan".toList
  let body := if p.conversion.isUpper then body.map Char.toUpper else body
  ⟨Piece.signOf p x.isNegative, [], body, true⟩

/-- The whole number that a datum is or, with its fraction dropped, contains. -/
def truncated? : Datum → Option Int
  | .bool b => some (if b then 1 else 0)
  | .int n => some n
  | .float x => if x.isFinite then some (x.scaled.tdiv (twoTo Double.unitExponent)) else none
  | _ => none

def index? : Datum → Option Int
  | .bool b => some (if b then 1 else 0)
  | .int n => some n
  | _ => none

def double? : Datum → Option Double
  | .bool b => some (Double.ofInt (if b then 1 else 0))
  | .int n => if (Double.ofInt n).isFinite then some (Double.ofInt n) else none
  | .float x => some x
  | _ => none

/-- A text with what is beyond ASCII escaped. -/
def asciiText (s : String) : List Char :=
  s.toList.flatMap fun c =>
    if c.toNat < 0x80 then [c]
    else if c.toNat ≤ 0xFF then '\\' :: 'x' :: hex 2 c.toNat
    else if c.toNat ≤ 0xFFFF then '\\' :: 'u' :: hex 4 c.toNat
    else '\\' :: 'U' :: hex 8 c.toNat

def character? : Datum → Option (List Char)
  | .int n => if 0 ≤ n ∧ n < 0x110000 then some [Char.ofNat n.toNat] else none
  | .bool b => some [Char.ofNat (if b then 1 else 0)]
  | .str s => if s.length = 1 then some s.toList else none
  | _ => none

def convert? (p : Placeholder) (precision : Option Nat) (d : Datum) : Option Piece :=
  let cut (s : List Char) : Piece := .ofText (match precision with
    | some n => s.take n
    | none => s)
  match p.conversion with
  | 's' => d.text.toOption.map fun text => cut text.toList
  | 'r' => d.describe.toOption.map fun text => cut text.toList
  | 'a' => d.describe.toOption.map fun text => cut (asciiText text)
  | 'c' => (character? d).map Piece.ofText
  | 'd' => (truncated? d).map (integerPiece p 10 [] (precision.getD 0))
  | 'i' => (truncated? d).map (integerPiece p 10 [] (precision.getD 0))
  | 'u' => (truncated? d).map (integerPiece p 10 [] (precision.getD 0))
  | 'o' => (index? d).map (integerPiece p 8 ['0', 'o'] (precision.getD 0))
  | 'x' => (index? d).map (integerPiece p 16 ['0', 'x'] (precision.getD 0))
  | 'X' => (index? d).map (integerPiece p 16 ['0', 'X'] (precision.getD 0))
  | c =>
    if ['e', 'f', 'g'].contains c.toLower then (double? d).map (doublePiece p precision) else none

/-- What the placeholders of a template still have to take. -/
structure Arguments where
  positional : List Datum
  named : Option (List (Datum × Datum))

namespace Arguments

/-- One dictionary that is not empty stands for named arguments. -/
def ofList : List Datum → Arguments
  | [.dict (e :: more)] => ⟨[.dict (e :: more)], some (e :: more)⟩
  | args => ⟨args, none⟩

def next? (a : Arguments) : Option (Datum × Arguments) :=
  match a.positional with
  | d :: rest => some (d, { a with positional := rest })
  | [] => none

/-- The named argument becomes the one that is taken next. -/
def select? (a : Arguments) (key : Option String) : Option Arguments :=
  match key, a.named with
  | none, _ => some a
  | some _, none => none
  | some name, some entries =>
    (entries.findSome? fun e => match e.1 with
      | .str s => if s = name then some e.2 else none
      | _ => none).map fun d => { a with positional := [d] }

def extent? (a : Arguments) : Extent → Option (Option Int × Arguments)
  | .absent => some (none, a)
  | .given n => if n < twoTo 31 then some (some n, a) else none
  | .argument => do
    let (d, rest) ← a.next?
    let n ← index? d
    if n.natAbs < twoTo 31 then some (some n, rest) else none

end Arguments

/-- A placeholder filled in. A negative width aligns to the left; a negative precision is zero. -/
def fill? (p : Placeholder) (a : Arguments) : Option (List Char × Arguments) := do
  let a ← a.select? p.key
  let (width, a) ← a.extent? p.width
  let (precision, a) ← a.extent? p.precision
  let p := match width with
    | some w => if w < 0 then { p with flags := '-' :: p.flags } else p
    | none => p
  let (d, a) ← a.next?
  let piece ← convert? p (precision.map Int.toNat) d
  pure (piece.padded p ((width.getD 0).natAbs), a)

/-- The text of a template. Two percent signs are one; arguments that no placeholder takes are a
misfit unless they are named. Each placeholder takes at least its letter, so the length of the
template bounds their number. -/
def fillAll? : Nat → List Char → Arguments → Option (List Char)
  | _, [], a => if a.positional.isEmpty || a.named.isSome then some [] else none
  | 0, _ :: _, _ => none
  | fuel + 1, '%' :: '%' :: rest, a => (fillAll? fuel rest a).map ('%' :: ·)
  | fuel + 1, c :: rest, a =>
    if c = '%' then do
      let (p, rest) ← Placeholder.take? rest
      let (text, a) ← fill? p a
      let more ← fillAll? fuel rest a
      pure (text ++ more)
    else (fillAll? fuel rest a).map (c :: ·)

/-- The message that a template and its arguments make. -/
def message? (template : String) (args : List Datum) : Option String :=
  if args.isEmpty then some template
  else (fillAll? template.length template.toList (Arguments.ofList args)).map String.ofList

end ReminderFlow.Log
