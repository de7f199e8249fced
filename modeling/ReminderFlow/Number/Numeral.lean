import ReminderFlow.Number.Rounding
import ReminderFlow.Text.Blank
import ReminderFlow.Text.Digit

namespace ReminderFlow.Numeral

open Text

def takeSign : List Char → Bool × List Char
  | '-' :: rest => (true, rest)
  | '+' :: rest => (false, rest)
  | s => (false, s)

/-- The digits before and after an optional point, and what follows them. -/
def takeDigits (s : List Char) : List Char × List Char × List Char :=
  let (whole, rest) := s.span Char.isDigit
  match rest with
  | '.' :: more =>
    let (fraction, rest) := more.span Char.isDigit
    (whole, fraction, rest)
  | _ => (whole, [], rest)

/-- A power of ten that ends the text: `e`, a sign if any, and at least one digit. -/
def takePower : List Char → Option Int
  | [] => some 0
  | e :: rest =>
    if e = 'e' ∨ e = 'E' then
      let (negative, digits) := takeSign rest
      if digits.isEmpty || !digits.all Char.isDigit then none
      else some (if negative then -(digitsValue digits : Int) else digitsValue digits)
    else none

def double? (s : List Char) : Option Double :=
  let (negative, body) := takeSign s
  let word := String.ofList (body.map Char.toLower)
  if word = "inf" ∨ word = "infinity" then some (.infinite negative)
  else if word = "nan" then some .nan
  else
    let (whole, fraction, rest) := takeDigits body
    if whole.isEmpty && fraction.isEmpty then none
    else (takePower rest).map fun power =>
      Double.ofDecimal negative (digitsValue (whole ++ fraction)) (power - fraction.length)

def int? (s : List Char) : Option Int :=
  let (negative, digits) := takeSign s
  if digits.isEmpty || !digits.all Char.isDigit then none
  else some (if negative then -(digitsValue digits : Int) else digitsValue digits)

/-- The text without its underscores, each of which has to stand between two digits. -/
def dropSeparators (afterDigit : Bool) : List Char → Option (List Char)
  | [] => some []
  | '_' :: c :: rest => if afterDigit && c.isDigit then dropSeparators false (c :: rest) else none
  | c :: rest => if c = '_' then none else (dropSeparators c.isDigit rest).map (c :: ·)

/-- The digits of other scripts as the common ones. -/
def commonDigit (c : Char) : Char :=
  match digitValue? c with
  | some d => Char.ofNat ('0'.toNat + d)
  | none => c

/-- Blanks around a numeral; the information separators do not count. -/
def isPadding (c : Char) : Bool :=
  isBlank c && !(0x1C ≤ c.toNat && c.toNat ≤ 0x1F)

def unpad (s : List Char) : List Char :=
  ((s.dropWhile isPadding).reverse.dropWhile isPadding).reverse

/-- A numeral as the command line takes it, brought to the plain notation. -/
def plain? (s : String) : Option (List Char) :=
  dropSeparators false ((unpad s.toList).map commonDigit)

def commandDouble? (s : String) : Option Double :=
  plain? s >>= double?

def commandInt? (s : String) : Option Int := do
  let body ← plain? s
  if wholeLimit < (takeSign body).2.length then none else int? body

/-- The text without underscores, unless it starts or ends with one or has two in a row. -/
def looseSeparators? (s : List Char) : Option (List Char) :=
  let pairs := s.zip s.tail
  if s.head? = some '_' ∨ s.getLast? = some '_' ∨ pairs.any (fun p => p.1 = '_' && p.2 = '_') then
    none
  else some (s.filter (· ≠ '_'))

def settingDouble? (s : String) : Option Double :=
  double? (unpad s.toList) <|> (looseSeparators? s.toList >>= double?)

/-- A whole number may end in a point and zeros. -/
def dropZeroFraction (s : List Char) : List Char :=
  let (whole, rest) := s.span (· ≠ '.')
  match rest with
  | '.' :: zeros => if !zeros.isEmpty && zeros.all (· = '0') then whole else s
  | _ => s

/-- Whether the text of a setting is too long to be read as a whole number at all. -/
def isOverlong (s : String) : Bool := wholeLimit < (String.ofList (unpad s.toList)).utf8ByteSize

def settingInt? (s : String) : Option Int :=
  let body := dropZeroFraction (unpad s.toList)
  match int? body with
  | some n => some n
  | none => looseSeparators? body >>= int?

end ReminderFlow.Numeral
