import ReminderFlow.Json.Syntax
import ReminderFlow.Number.Numeral
import ReminderFlow.Validation

namespace ReminderFlow

structure Form where
  waitSeconds : Double
  preference : String
  message : String
  email : String
  phone : String
  /-- Members beyond the documented ones are kept. -/
  extra : List (String × Value)

namespace Form

/-- Whole numbers of 64 bits are taken as doubles, and so are numerals in texts and truth values. -/
def seconds (location : List String) : Value → Checked Double
  | .float x => .valid x
  | .int n =>
    if -(twoTo 63 : Int) ≤ n ∧ n < (twoTo 63 : Int) then .valid (Double.ofInt n)
    else .fail (.floatType location)
  | .bool b => .valid (Double.ofInt (if b then 1 else 0))
  | .str s =>
    match Numeral.settingDouble? s with
    | some x => .valid x
    | none => .fail (.floatParsing location)
  | _ => .fail (.floatType location)

def names : List String := ["waitSeconds", "preference", "message", "email", "phone"]

def ofMembers (members : List (String × Value)) : Checked Form :=
  let text (field : String) := requiredMember members field fun l v => v.asText l
  let optionalText (field : String) := optionalMember members field "" fun l v => v.asText l
  Form.mk <$> requiredMember members "waitSeconds" seconds <*> text "preference" <*> text "message"
    <*> optionalText "email" <*> optionalText "phone"
    <*> .valid (members.filter fun m => !names.contains m.1)

def ofJson : Value → Checked Form
  | .obj members => ofMembers members
  | _ => .fail (.modelType [])

/-- The form in a text, or everything that is wrong with it. -/
def read (codec : Codec) (text : String) : Checked Form :=
  match Json.Syntax.complaint? codec.readDepth text, Json.read text with
  | some complaint, _ => .fail (.jsonInvalid complaint)
  | none, .ok v => ofJson v
  | none, .error _ => .fail (.jsonInvalid "number out of range")

def toJson (f : Form) : Value :=
  .obj ([("waitSeconds", .float f.waitSeconds), ("preference", .str f.preference),
    ("message", .str f.message), ("email", .str f.email), ("phone", .str f.phone)] ++ f.extra)

end Form

end ReminderFlow
