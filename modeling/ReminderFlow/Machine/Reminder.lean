import ReminderFlow.Machine.Json

namespace ReminderFlow.Machine

def emailExecutor : String := "send-email"

def smsExecutor : String := "send-sms"

def noMatches : String := "No Matches"

/-- A task that takes and gives the whole document. -/
def taskOn (resource : String) (next : Value) : State :=
  .task (.str resource) (.str "$") (.str "$") next

def singleTask (name resource : String) : Machine :=
  mk name [(name, taskOn resource .null)] ""

/-- The rule for one preference. -/
def preferring (preference target : String) : Rule :=
  ⟨.compare .stringEquals (.str "$.preference") (.str preference), .str target⟩

def reminder : Machine :=
  mk "Wait"
    [("Wait", .wait (.str "$.waitSeconds") .null (.str "ChoiceState")),
     ("ChoiceState", .choice
       [preferring "email" "Send Email", preferring "sms" "Send SMS", preferring "both" "Send Both"]
       (.str noMatches)),
     ("Send Email", taskOn emailExecutor (.str "Pass")),
     ("Send SMS", taskOn smsExecutor (.str "Pass")),
     ("Send Both", .parallel
       [singleTask "First send email" emailExecutor, singleTask "Second send SMS" smsExecutor] []
       (.str "Pass")),
     (noMatches, .fail (.str noMatches) (.str "NoMatches")),
     ("Pass", .pass (.str "Succeed")),
     ("Succeed", .succeed)]
    "Deliver a reminder by email, SMS, or both after a delay"

end ReminderFlow.Machine
