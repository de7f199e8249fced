import ReminderFlow.Datum
import ReminderFlow.Text.Blank
import ReminderFlow.Text.Digit

namespace ReminderFlow

/-- One step of a path: into a member or to an item. -/
inductive Token where
  | name (s : String)
  | index (n : Nat)
  deriving DecidableEq

inductive PathError where
  /-- Not a text that starts with `$`. -/
  | unrooted (given : Datum)
  | malformed (text : String) (offset : Nat)
  /-- An index of too many digits. -/
  | indexTooLong (digits : Nat)
  /-- A list or an object instead of a text. -/
  | unhashable

namespace Path

/-- The characters of a name behind a dot. -/
def isNameChar (c : Char) : Bool :=
  !(c = '.' || c = '[' || c = ']' || c = '\'' || c = '"' || Text.isBlank c)

inductive Segment where
  | dotted (name : List Char)
  | index (digits : List Char)
  | quoted (mark : Char) (name : List Char)
  deriving DecidableEq

namespace Segment

def write : Segment → List Char
  | dotted name => '.' :: name
  | index digits => '[' :: digits ++ [']']
  | quoted mark name => '[' :: mark :: name ++ [mark, ']']

def WellFormed : Segment → Prop
  | dotted name => name ≠ [] ∧ name.all isNameChar = true
  | index digits => digits ≠ [] ∧ digits.all Text.isDigit = true
  | quoted mark name => (mark = '\'' ∨ mark = '"') ∧ mark ∉ name

def token : Segment → Token
  | dotted name => .name (String.ofList name)
  | index digits => .index (Text.digitsValue digits)
  | quoted _ name => .name (String.ofList name)

def digitCount : Segment → Nat
  | index digits => digits.length
  | _ => 0

/-- Whether the index is short enough to be read as a number. -/
def readable (g : Segment) : Bool := g.digitCount ≤ Text.wholeLimit

end Segment

/-- The segment at the start of a text, and what follows it. -/
def segment? : List Char → Option (Segment × List Char)
  | '.' :: rest =>
    let name := rest.takeWhile isNameChar
    if name.isEmpty then none else some (.dotted name, rest.dropWhile isNameChar)
  | '[' :: mark :: rest =>
    if mark = '\'' ∨ mark = '"' then
      match rest.dropWhile (· ≠ mark) with
      | _ :: ']' :: more => some (.quoted mark (rest.takeWhile (· ≠ mark)), more)
      | _ => none
    else
      let inside := mark :: rest
      let digits := inside.takeWhile Text.isDigit
      match inside.dropWhile Text.isDigit with
      | ']' :: more => if digits.isEmpty then none else some (.index digits, more)
      | _ => none
  | _ => none

private theorem length_dropWhile_le (p : Char → Bool) (s : List Char) :
    (s.dropWhile p).length ≤ s.length := by
  induction s with
  | nil => simp
  | cons c rest ih => by_cases h : p c <;> simp [h]; omega

theorem length_of_segment? {s rest : List Char} {g : Segment} (h : segment? s = some (g, rest)) :
    rest.length < s.length := by
  unfold segment? at h
  split at h
  · rename_i more
    dsimp only at h
    split at h
    · simp at h
    · obtain ⟨-, rfl⟩ := Prod.mk.inj (Option.some.inj h)
      exact Nat.lt_succ_of_le (length_dropWhile_le _ _)
  · rename_i mark more
    split at h
    · split at h
      · rename_i after heq
        obtain ⟨-, rfl⟩ := Prod.mk.inj (Option.some.inj h)
        have := length_dropWhile_le (· ≠ mark) more
        rw [heq] at this
        simp only [List.length_cons] at this ⊢
        omega
      · simp at h
    · dsimp only at h
      split at h
      · rename_i after heq
        split at h
        · simp at h
        · obtain ⟨-, rfl⟩ := Prod.mk.inj (Option.some.inj h)
          have := length_dropWhile_le Text.isDigit (mark :: more)
          rw [heq] at this
          simp only [List.length_cons] at this ⊢
          omega
      · simp at h
  · simp at h

/-- The segments that a text is made of, or the offset at which none starts. A segment that is no
readable number is reported where it stands. -/
def segments (text : String) (offset : Nat) (s : List Char) : Except PathError (List Segment) :=
  match s with
  | [] => .ok []
  | c :: cs =>
    match h : segment? (c :: cs) with
    | none => .error (.malformed text offset)
    | some (g, rest) =>
      have := length_of_segment? h
      if g.readable then
        (segments text (offset + ((c :: cs).length - rest.length)) rest).map (g :: ·)
      else .error (.indexTooLong g.digitCount)
  termination_by s.length
  decreasing_by exact this

def parse (text : String) : Except PathError (List Token) :=
  match text.toList with
  | '$' :: rest => (segments text 1 rest).map (·.map Segment.token)
  | _ => .error (.unrooted (.str text))

/-- The path that a datum is, if it is a text at all. -/
def parseDatum : Datum → Except PathError (List Token)
  | .str text => parse text
  | d => .error (if d.isHashable then .unrooted d else .unhashable)

def parseValue (v : Value) : Except PathError (List Token) :=
  parseDatum (Datum.ofValue v)

end Path

namespace PathError

def shown? : PathError → Option Datum
  | unrooted given => some given
  | _ => none

def wording (shown : String) : PathError → String
  | unrooted _ => s!"Reference path must start with '$': {shown}"
  | malformed text offset => s!"Invalid reference path {Text.quote text} at offset {offset}"
  | indexTooLong digits => Text.overLimit digits
  | unhashable => "A reference path must be a text"

def kind : PathError → String
  | indexTooLong _ => "ValueError"
  | unhashable => "TypeError"
  | _ => "InvalidPath"

def fault (e : PathError) : Fault :=
  .worded e.kind ((Datum.words e.shown?).map fun shown => e.wording shown)

end PathError

end ReminderFlow
