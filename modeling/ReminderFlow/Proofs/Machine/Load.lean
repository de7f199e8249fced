import ReminderFlow.Machine.Load
import ReminderFlow.Proofs.Datum
import ReminderFlow.Proofs.Json.LongNumber
import ReminderFlow.Proofs.Machine.Breakdown

namespace ReminderFlow.Machine

/-- The codes that say that a machine is malformed. -/
def reportCodes : List String :=
  ["States.DefinitionInvalid", "States.NoChoiceMatch", "States.InvalidPath"]

/-- What reading a machine comes to, if it breaks down over nothing but what is said here. -/
inductive ReadsTo (breaks : LoadError → Prop) : Except LoadError Machine → Prop
  | machine {m : Machine} (accepted : m.Accepted) : ReadsTo breaks (.ok m)
  | report {e : LoadError} {code message : String} (reported : e.report? = some (code, message))
      (listed : code ∈ reportCodes) : ReadsTo breaks (.error e)
  | breakdown {e : LoadError} (unreported : e.report? = none) (culprit : breaks e) :
      ReadsTo breaks (.error e)

/-- What the reading of a value breaks down over: how deep it is, something in it, or a report that
is to show what cannot be shown. -/
inductive ValueBreaks (room : Room) (v : Value) : LoadError → Prop
  | deep (tall : room.walks (.ofValue v) = false) : ValueBreaks room v .tooDeep
  | uncoded {e : MachineError} (breaks : Breaks v e) : ValueBreaks room v (.machine e)
  | unworded {e : MachineError} {d : Datum} (shows : e.shown? = some d)
      (mute : d.describe = .error e.fault) : ValueBreaks room v (.machine e)

/-- What loading a machine breaks down over: bytes that are no text, a number of too many digits in
the text, the depth of the text, or the value that it writes. Half of a surrogate pair is no fault of
a text, but no value here can hold it. -/
inductive LoadBreaks (room : Room) : Option Entry → LoadError → Prop
  | encoding {content : ByteArray} (undecodable : String.fromUTF8? content = none) :
      LoadBreaks room (some (.file content)) .notUtf8
  | number {entry : Option Entry} {text : String} {count : Nat}
      (found : Entry.readText entry = .ok text) (long : Json.HasLongNumber text.toList count) :
      LoadBreaks room entry (.integerTooLong count)
  | deep {entry : Option Entry} {text : String} (found : Entry.readText entry = .ok text)
      (tall : room.reads text = false) : LoadBreaks room entry .tooDeep
  | half {entry : Option Entry} {text : String} (found : Entry.readText entry = .ok text)
      (half : Json.hasHalf false (Json.units text.toList) = true) : LoadBreaks room entry .halfPair
  | value {entry : Option Entry} {text : String} {v : Value} {e : LoadError}
      (found : Entry.readText entry = .ok text) (read : Json.read text = .ok v)
      (breaks : ValueBreaks room v e) : LoadBreaks room entry e

theorem mem_reportCodes {e : MachineError} {code : String} (h : e.code? = some code) :
    code ∈ reportCodes := by
  unfold MachineError.code? at h
  split at h <;> cases h <;> simp [reportCodes]

theorem ReadsTo.mono {breaks breaks' : LoadError → Prop} {r : Except LoadError Machine}
    (h : ReadsTo breaks r) (hbreaks : ∀ e, breaks e → breaks' e) : ReadsTo breaks' r := by
  cases h with
  | machine accepted => exact .machine accepted
  | report reported listed => exact .report reported listed
  | breakdown unreported culprit => exact .breakdown unreported (hbreaks _ culprit)

theorem readsTo_ofValue (room : Room) (v : Value) :
    ReadsTo (ValueBreaks room v) (ofValue room v) := by
  rw [ofValue]
  split_ifs with hroom
  · cases hread : ofJson v with
    | ok m => exact .machine (accepted_of_ofJson v hread)
    | error e =>
      cases hcode : e.code? with
      | none =>
        have hnone : e.report? = none := by rw [MachineError.report?, hcode]; rfl
        exact .breakdown hnone (.uncoded (breaks_of_ofJson v hread hcode))
      | some code =>
        rcases MachineError.report?_cases hcode with ⟨message, hsome⟩ | ⟨hnone, d, hshown, hmute⟩
        · exact .report hsome (mem_reportCodes hcode)
        · exact .breakdown hnone (.unworded hshown hmute)
  · exact .breakdown rfl (.deep (Bool.eq_false_iff.2 hroom))

theorem readsTo_ofEntry (room : Room) (path : String) (entry : Option Entry) :
    ReadsTo (LoadBreaks room entry) (ofEntry room path entry) := by
  have hunreadable (reason : String) :
      ReadsTo (LoadBreaks room entry) (.error (.unreadable path reason)) :=
    .report rfl List.mem_cons_self
  unfold ofEntry
  split
  case h_1 text hfound =>
    unfold ofText
    split_ifs with hroom
    · split
      case h_1 v hread =>
        exact (readsTo_ofValue room v).mono fun _ => .value hfound hread
      case h_2 count hread => exact .breakdown rfl (.number hfound (Json.hasLongNumber_of_read hread))
      case h_3 hread => exact .breakdown rfl (.half hfound (Json.hasHalf_of_read hread))
      case h_4 => exact hunreadable _
    · exact .breakdown rfl (.deep hfound (Bool.eq_false_iff.2 hroom))
  case h_2 hfault =>
    unfold Entry.readText at hfault
    split at hfault
    · cases hfault
    · cases hfault
    · split at hfault
      · cases hfault
      · rename_i hcontent
        exact .breakdown rfl (.encoding hcontent)
  case h_3 => exact hunreadable _

theorem accepted_reminder : reminder.Accepted := by
  have hreminder : reminder.check = .ok () := eq_ok_of_isSome (by decide +kernel)
  have hemail : (singleTask "First send email" emailExecutor).check = .ok () :=
    eq_ok_of_isSome (by decide +kernel)
  have hsms : (singleTask "Second send SMS" smsExecutor).check = .ok () :=
    eq_ok_of_isSome (by decide +kernel)
  refine .of_parts hreminder fun p hp => ?_
  simp only [reminder, states, List.mem_cons, List.not_mem_nil, or_false] at hp
  rcases hp with rfl | rfl | rfl | rfl | rfl | rfl | rfl | rfl
  case inr.inr.inl => exact ⟨emailExecutor, rfl⟩
  case inr.inr.inr.inl => exact ⟨smsExecutor, rfl⟩
  case inr.inr.inr.inr.inl =>
    intro b hb
    rcases List.mem_pair.1 hb with rfl | rfl
    · exact accepted_singleTask hemail
    · exact accepted_singleTask hsms
  all_goals trivial

/-- Whatever value is read as a machine, and whatever stands in the file that one is loaded from, an
accepted machine comes of it, or an error that reports it as malformed; it is only over one of a few
kinds of values and texts that the reading breaks down instead. -/
theorem accepted_or_reported (room : Room) (v : Value) (files : String → Option Entry)
    (path : Option String) :
    ReadsTo (ValueBreaks room v) (ofValue room v) ∧
      ReadsTo (fun e => ∃ name, path = some name ∧ LoadBreaks room (files name) e)
        (load room files path) := by
  refine ⟨readsTo_ofValue room v, ?_⟩
  cases path with
  | none => exact .machine accepted_reminder
  | some name =>
    exact (readsTo_ofEntry room name (files name)).mono fun _ culprit => ⟨name, rfl, culprit⟩

/-- A machine whose only state has a number for its branches. -/
def unforked : Value :=
  .obj [("StartAt", .str "A"),
    ("States", .obj [("A", .obj [("Type", .str "Parallel"), ("Branches", .int 5),
      ("End", .bool true)])])]

def undecodable : Entry := .file ⟨#[0xff]⟩

theorem not_readsTo_of_unreported {e : LoadError} (h : e.report? = none) :
    ¬ReadsTo (fun _ => False) (.error e) := by
  intro hreads
  cases hreads with
  | report reported =>
    rw [h] at reported
    cases reported
  | breakdown _ culprit => exact culprit

/-- Neither every value nor every file leads to a machine or to a report, and be the stack as large
as it may. -/
theorem not_always_reported :
    (¬∀ v, ReadsTo (fun _ => False) (ofValue .ample v)) ∧
    ¬∀ files path, ReadsTo (fun _ => False) (load .ample files path) := by
  constructor
  · intro h
    have hread : ofValue .ample unforked = .error (.machine .branchesNotList) := by
      simp [ofValue, Room.ample, unforked, ofJson, statesIn, statesOf, stateList, stateOf, branchesIn,
        branchesOf, memberOrNull, Value.str?, bind, Except.bind, Except.mapError]
    exact not_readsTo_of_unreported rfl (hread ▸ h unforked)
  · intro h
    have hcontent : String.fromUTF8? ⟨#[0xff]⟩ = none := by decide +kernel
    have hread : load .ample (fun _ => some undecodable) (some "machine.json") = .error .notUtf8 := by
      rw [load, ofEntry, undecodable, Entry.readText, hcontent]
    exact not_readsTo_of_unreported rfl
      (hread ▸ h (fun _ => some undecodable) (some "machine.json"))

end ReminderFlow.Machine
