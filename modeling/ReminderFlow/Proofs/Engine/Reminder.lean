import ReminderFlow.Proofs.Engine.Ensures
import ReminderFlow.Proofs.Engine.Schedule
import ReminderFlow.Proofs.Run.Reminder

namespace ReminderFlow

theorem Registry.exists_reply {r : Registry} {executor : String} (h : r.contains executor = true)
    (input : Value) : ∃ reply, r.MayReply executor input reply := by
  obtain ⟨e, he⟩ := Option.isSome_iff_exists.1 h
  exact ⟨_, e, 0, he, rfl⟩

namespace Engine

open Machine (Delivered reminder emailExecutor smsExecutor waitPath outcomeOf?)

/-- In any run in which it is not cut off, an execution of the built-in machine goes on by itself no
more than seventeen times. It can go on until its document has been delivered: with the calls that
it asks for, each made once and with the whole document, and with the outcome that it leads to, or
with what a fault leads to that is raised where a message is made or an output read. Only a whole
number of seconds beyond the doubles is left out. -/
theorem Run.delivers_reminder {registry : Registry} {archive : Option Archive} {retention : Nat}
    {actions : List Action} {e : Engine} {events : List Event}
    (hrun : Run (make registry archive retention) actions e events)
    (hemail : registry.contains emailExecutor = true) (hsms : registry.contains smsExecutor = true)
    {id : String} (huncut : ∀ a ∈ actions, ¬a.Cuts id) {x : Execution}
    (hx : e.execution? id = some x) (hmachine : x.machine = reminder)
    (hfits : ∀ n, x.input.get waitPath = .ok (.int n) → fitsDouble n = true) :
    actions.countP (Action.advances id) ≤ 17 ∧
      ((x.outcome? = none ∧ ∀ now, ∃ move after more, (Action.move now move).advances id = true ∧
          Happens e (.move now move) after more) ∨
        ∃ ending, x.outcome? = outcomeOf? x.deadline ending ∧
          Delivered registry.MayReply x.input (Chain.calls (chainEvents id events)) ending) := by
  have hsure : Chain.Ensures registry.contains registry.MayReply 15
      (fun calls r => ∃ ending, Delivered registry.MayReply x.input calls ending ∧
        ∀ deadline, Outcome.ofResult? deadline r = outcomeOf? deadline ending)
      (.ready x.machine x.machine.start x.input) := by
    rw [hmachine]
    exact Chain.ensures_reminder hemail hsms (fun _ input h => Registry.exists_reply h input) x.input
      hfits
  obtain ⟨hcount, hgoes | ⟨r, ho, ending, hdelivered, htold⟩⟩ := hrun.ensured rfl huncut hx hsure
  · exact ⟨hcount, .inl hgoes⟩
  · exact ⟨hcount, .inr ⟨ending, ho.trans (htold x.deadline), hdelivered⟩⟩

/-- The seconds are a list with a whole number of too many digits in it. -/
def untellable : Option (List Action × Engine × List Event) :=
  performNew ⟨0⟩ "r" reminder (.dict [(.str "waitSeconds", .list [.int (tenTo Text.wholeLimit)])])
    (.int 60) [.move (.begin "r"), .move (.chain "r" [] .enter), .move (.settle "r")]
    (make ⟨[(emailExecutor, .ofFunction "mail" fun v => .ok (.ofValue v)),
      (smsExecutor, .ofFunction "text" fun v => .ok (.ofValue v))]⟩ none 0)

/-- The document says how long to wait, but not by a number. -/
def waitsForNoNumber (doc : Document) : Bool :=
  match doc.get waitPath with
  | .ok (.arr _) => true
  | _ => false

def failsWith (error : String) (x : Execution) : Bool :=
  x.outcome?.any fun o => Record.textOrNull o.error = some (some error)

/-- Where the message for what is no number cannot be made, the error is another one. -/
theorem bad_wait_not_always_told :
    untellable.any (fun run => (run.1.all fun a => ¬a.Cuts "r") &&
      (run.2.1.execution? "r").any fun x => waitsForNoNumber x.input &&
        failsWith "States.Runtime" x && !failsWith "States.InvalidDuration" x) = true := by
  decide +kernel

/-- Mail is down; text messages are handed back as they are. -/
def halfDown : Registry :=
  ⟨[(emailExecutor, .ofFunction "mail" fun _ => .error (.raised "OSError" (some "mail is down"))),
    (smsExecutor, .ofFunction "text" fun v => .ok (.ofValue v))]⟩

/-- The text message is sent before the mail fails. -/
def reminding : Option (List Action × Engine × List Event) :=
  performNew ⟨0⟩ "r" reminder
    (.dict [(.str "waitSeconds", .int 0), (.str "preference", .str "both")]) (.int 60)
    [.move (.begin "r"), .move (.chain "r" [] .enter), .move (.chain "r" [] .wake),
      .move (.chain "r" [] .enter), .move (.chain "r" [] .enter), .move (.chain "r" [1] .begin),
      .move (.chain "r" [1] .enter), .move (.chain "r" [1] .call), .answer "r" [1],
      .move (.chain "r" [0] .begin), .move (.chain "r" [0] .enter), .move (.chain "r" [0] .call),
      .answer "r" [0], .move (.chain "r" [] .join), .move (.settle "r")]
    (make halfDown none 0)

def waitFits (doc : Document) : Bool :=
  match doc.get waitPath with
  | .ok (.int n) => fitsDouble n
  | _ => true

def failsByMail (x : Execution) : Bool :=
  failsWith "States.TaskFailed" x &&
    x.outcome?.any fun o => Record.textOrNull o.cause = some (some "mail is down")

theorem delivers_reminder_reminding :
    ∃ actions e events x ending, reminding = some (actions, e, events) ∧
      Run (make halfDown none 0) actions e events ∧ halfDown.contains emailExecutor = true ∧
      halfDown.contains smsExecutor = true ∧ (∀ a ∈ actions, ¬a.Cuts "r") ∧
      e.execution? "r" = some x ∧ x.machine = reminder ∧
      (∀ n, x.input.get waitPath = .ok (.int n) → fitsDouble n = true) ∧ failsByMail x = true ∧
      x.outcome? = outcomeOf? x.deadline ending ∧
      Delivered halfDown.MayReply x.input (Chain.calls (chainEvents "r" events)) ending := by
  have hcomputed : reminding.any (fun run => (run.1.all fun a => ¬a.Cuts "r") &&
      (run.2.1.execution? "r").any fun x => waitFits x.input && failsByMail x) = true := by
    decide +kernel
  obtain ⟨⟨actions, e, events⟩, hsome, hrest⟩ := (Option.any_eq_true _ _).1 hcomputed
  obtain ⟨hall, hrest⟩ := Bool.and_eq_true_iff.1 hrest
  obtain ⟨x, hx, hrest⟩ := (Option.any_eq_true _ _).1 hrest
  obtain ⟨hwait, hmail⟩ := Bool.and_eq_true_iff.1 hrest
  have hrun : Run (make halfDown none 0) actions e events := .of_performNew rfl hsome
  have huncut : ∀ a ∈ actions, ¬a.Cuts "r" := by
    intro a ha
    simpa using List.all_eq_true.1 hall a ha
  have hmachine : x.machine = reminder := by
    obtain ⟨-, told⟩ := hrun.told rfl
    obtain ⟨now, input, limit, passed, hmem, -⟩ := told.started x hx
    rcases mem_of_performNew hsome hmem with heq | ⟨move, heq⟩
    · rw [Action.start.injEq, Option.some.injEq] at heq
      exact heq.2.2.1
    · cases heq
  have hfits : ∀ n, x.input.get waitPath = .ok (.int n) → fitsDouble n = true := by
    intro n hn
    rw [waitFits, hn] at hwait
    exact hwait
  have hemail : halfDown.contains emailExecutor = true := by decide
  have hsms : halfDown.contains smsExecutor = true := by decide
  obtain ⟨-, ⟨hnone, -⟩ | ⟨ending, ho, hdelivered⟩⟩ :=
    hrun.delivers_reminder hemail hsms huncut hx hmachine hfits
  · rw [failsByMail, failsWith, hnone] at hmail
    cases hmail
  · exact ⟨actions, e, events, x, ending, hsome, hrun, hemail, hsms, huncut, hx, hmachine, hfits, hmail,
      ho, hdelivered⟩

end Engine

end ReminderFlow
