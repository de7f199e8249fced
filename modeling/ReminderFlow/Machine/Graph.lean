namespace ReminderFlow.Graph

/-- One round: the chosen names and those that one of them leads to. -/
def grow (leads : String → String → Bool) (names chosen : List String) : List String :=
  names.filter fun n => chosen.contains n || chosen.any fun m => leads m n

/-- At most `rounds` rounds; as many as there are names suffice. -/
def closeIn (leads : String → String → Bool) (names : List String) :
    Nat → List String → List String
  | 0, chosen => chosen
  | rounds + 1, chosen =>
    let next := grow leads names chosen
    if next.length ≤ chosen.length then chosen else closeIn leads names rounds next

def closure (leads : String → String → Bool) (names start : List String) : List String :=
  closeIn leads names names.length (names.filter fun n => start.contains n)

/-- The names that are not in the closure, in the order of their text. -/
def outside (leads : String → String → Bool) (names start : List String) : List String :=
  let inside := closure leads names start
  (names.filter fun n => !inside.contains n).mergeSort fun a b => a ≤ b

end ReminderFlow.Graph
